import Hlos.Kernel.SymbolTable

/-!
# The bounds of the symbol table and of the kernel text

The loop that keeps the symbols of the kernel text does not compare
`kallsyms_num` with the length of the arrays, and the test of that loop leaves
out a symbol at the very start of the text.
-/

set_option linter.style.nameCheck false

namespace Hlos.Kernel

open Hlos.Lib Hlos.Include

/-! ## Array bounds -/

/-- A filter loop that stays inside the arrays has counted all symbols that it
accepts. -/
theorem filterSymbols_some {text : TextBounds} {source : SymbolSource}
    {m : Memory} {left i : Nat} {k k' : Kallsyms}
    (run : filterSymbols text source m left i k = some k')
    (room : k.num ≤ KALLSYMS_NUM_MAX) :
    k.num + (acceptedSymbols text source m i left).length ≤
      KALLSYMS_NUM_MAX := by
  induction left generalizing i k with
  | zero => simpa [acceptedSymbols] using room
  | succ left inductionHypothesis =>
      rw [acceptedSymbols_succ]
      rw [filterSymbols] at run
      let symbol := symbolAt source.ksymtab (BitVec.ofNat 32 i) m
      by_cases inside : isKernelText text symbol.value
      · simp only [symbol, inside, if_true, List.length_cons] at run ⊢
        by_cases free : k.num < KALLSYMS_NUM_MAX
        · simp only [writeAddr, writeName, free, if_true, Option.bind_eq_bind,
            Option.bind_some] at run
          have counted := inductionHypothesis run free
          simp only at counted
          omega
        · simp [writeAddr, free] at run
      · simp only [symbol, inside, Bool.false_eq_true, if_false] at run ⊢
        exact inductionHypothesis run room

/-- The binary search stays inside its window, whatever the entries are. -/
theorem bisect_inside {k : Kallsyms} (addr : Word) (fuel low high : Nat)
    (order : low < high) (room : high ≤ KALLSYMS_NUM_MAX)
    (enough : high - low ≤ fuel + 1) :
    ∃ pos, bisect k addr fuel low high = some pos ∧ pos < high := by
  induction fuel generalizing low high with
  | zero =>
      refine ⟨low, ?_, order⟩
      rw [bisect, if_neg (by omega)]
  | succ fuel inductionHypothesis =>
      by_cases wide : high - low > 1
      · have read : readAddr (low + (high - low) / 2) k =
            some (k.addr (low + (high - low) / 2)) :=
          if_pos (by omega)
        rw [bisect, if_pos wide]
        simp only [read, Option.bind_eq_bind, Option.bind_some]
        by_cases atMost : k.addr (low + (high - low) / 2) ≤ addr
        · rw [if_pos atMost]
          exact inductionHypothesis _ high (by omega) room (by omega)
        · rw [if_neg atMost]
          obtain ⟨pos, run, below⟩ := inductionHypothesis low
            (low + (high - low) / 2) (by omega) (by omega) (by omega)
          exact ⟨pos, run, by omega⟩
      · exact ⟨low, by rw [bisect, if_neg wide], order⟩

/-- A lookup in a table that is not too long stays inside the arrays.  In an
empty table it reads the first entry. -/
theorem getSymbolPos_inside {k : Kallsyms} (room : k.num ≤ KALLSYMS_NUM_MAX)
    (addr : Word) :
    ∃ idx, getSymbolPos addr k = some (idx, addr - k.addr idx) ∧
      idx < KALLSYMS_NUM_MAX := by
  have searched : ∃ pos, bisect k addr k.num 0 k.num = some pos ∧
      pos < KALLSYMS_NUM_MAX := by
    by_cases empty : k.num = 0
    · rw [empty]
      exact ⟨0, rfl, by decide⟩
    · obtain ⟨pos, found, below⟩ :=
        @bisect_inside k addr k.num 0 k.num (by omega) room (by omega)
      exact ⟨pos, found, by omega⟩
  obtain ⟨pos, found, below⟩ := searched
  obtain ⟨first, aliasRun, order, _⟩ := firstAlias_spec k pos below
  refine ⟨first, ?_, by omega⟩
  have read : readAddr first k = some (k.addr first) := if_pos (by omega)
  simp only [getSymbolPos, found, aliasRun, read, Option.bind_eq_bind,
    Option.bind_some]
  rfl

/-- Loading and every later lookup stay inside the arrays: there is a result,
and a result means that no index of `KALLSYMS_NUM_MAX` or more is used. -/
def StaysInTable (mb : Multiboot) (text : TextBounds) (stack : Word × Word)
    (m : Memory) (k : Kallsyms) : Prop :=
  ∃ k', loadKsymFromMultiboot mb text stack m k = some k' ∧
    k'.num ≤ KALLSYMS_NUM_MAX ∧
    ∀ addr, ∃ idx offset, getSymbolPos addr k' = some (idx, offset) ∧
      idx < KALLSYMS_NUM_MAX

theorem StaysInTable.few {mb : Multiboot} {text : TextBounds}
    {stack : Word × Word} {m : Memory} {k : Kallsyms}
    (stays : StaysInTable mb text stack m k) :
    (acceptedSymbols text (symbolSource mb stack m) m 0
      (symbolSource mb stack m).symtab_size).length ≤ KALLSYMS_NUM_MAX := by
  obtain ⟨k', run, _⟩ := stays
  obtain ⟨filtered, filterRun, _⟩ := Option.bind_eq_some_iff.mp run
  have counted := filterSymbols_some filterRun (Nat.zero_le _)
  simpa using counted

/-- The arrays are not overrun exactly when at most `KALLSYMS_NUM_MAX` symbols
lie in the kernel text. -/
theorem symbol_table_bounded_iff (mb : Multiboot) (text : TextBounds)
    (stack : Word × Word) (m : Memory) (k : Kallsyms) :
    StaysInTable mb text stack m k ↔
      (acceptedSymbols text (symbolSource mb stack m) m 0
        (symbolSource mb stack m).symtab_size).length ≤ KALLSYMS_NUM_MAX := by
  constructor
  · exact StaysInTable.few
  · intro room
    obtain ⟨k', run, few, _⟩ := loadKsym_spec mb text stack m k room
    refine ⟨k', run, few, ?_⟩
    intro addr
    obtain ⟨idx, found, inside⟩ := getSymbolPos_inside few addr
    exact ⟨idx, addr - k'.addr idx, found, inside⟩

/-- Section names at `0x4000`, three section headers at `0x1000`, and symbols
from `0x10000` on, which all have the value `0xC0100010`. -/
def crowdedMemory (symtab_bytes : Word) : Memory :=
  let names : List (BitVec 8) :=
    [0] ++ strtabName ++ [0] ++ symtabName ++ [0]
  let symbol : List (BitVec 8) := [0, 0, 0, 0, 0x10, 0x00, 0x10, 0xC0]
  let words : List (Nat × Word) :=
    [(0x1000, 1), (0x100C, 0x2000), (0x1028, 9), (0x1034, 0x10000),
      (0x103C, symtab_bytes), (0x105C, 0x4000)]
  words.foldl (fun m word => m.store32 word.1 word.2)
    ⟨fun position =>
      if 0x10000 ≤ position then symbol.getD (position % 16) 0
      else names.getD (position - 0x4000) 0, []⟩

theorem crowdedMemory_symbol (symtab_bytes : Word) {i : Nat}
    (small : i < 2 ^ 16) :
    (symbolAt 0xC0010000 (BitVec.ofNat 32 i)
      (crowdedMemory symtab_bytes)).value = 0xC0100010 := by
  have address : bootPhysical (0xC0010000 + 16 * BitVec.ofNat 32 i + 4) =
      0x10004 + 16 * i := by
    have base : KERNBASE = 0xC0000000 := rfl
    rw [bootPhysical, base]
    bv_omega
  have place : ∀ offset, offset < 4 →
      (0x10004 + 16 * i + offset) % 16 = 4 + offset := by
    intro offset inside
    omega
  have zero := place 0 (by decide)
  have one := place 1 (by decide)
  have two := place 2 (by decide)
  have three := place 3 (by decide)
  rw [Nat.add_zero] at zero
  change Memory.load32 (bootPhysical _) _ = _
  rw [address]
  simp only [crowdedMemory, List.foldl_cons, List.foldl_nil]
  rw [Memory.load32_store32_of_apart _ _ (by omega),
    Memory.load32_store32_of_apart _ _ (by omega),
    Memory.load32_store32_of_apart _ _ (by omega),
    Memory.load32_store32_of_apart _ _ (by omega),
    Memory.load32_store32_of_apart _ _ (by omega),
    Memory.load32_store32_of_apart _ _ (by omega), Memory.load32]
  have above : ∀ offset, 0x10000 ≤ 0x10004 + 16 * i + offset := by
    intro offset
    omega
  have first := above 0
  rw [Nat.add_zero] at first
  simp only [zero, one, two, three, first, above, if_true]
  decide

/-- 1025 symbols of the kernel text overrun the arrays. -/
theorem symbol_table_overrun :
    ¬ ∀ (mb : Multiboot) (text : TextBounds) (stack : Word × Word)
        (m : Memory) (k : Kallsyms), StaysInTable mb text stack m k := by
  intro general
  have counted := (general ⟨3, 0x1000, 2⟩ ⟨0x100000, 0x200000⟩ (0, 0)
    (crowdedMemory 16400) ⟨0, fun _ => 0, fun _ => 0⟩).few
  have source : symbolSource ⟨3, 0x1000, 2⟩ (0, 0) (crowdedMemory 16400) =
      ⟨0xC0002000, 0xC0010000, 1025⟩ := by
    decide +kernel
  have all : acceptedSymbols ⟨0x100000, 0x200000⟩
      ⟨0xC0002000, 0xC0010000, 1025⟩ (crowdedMemory 16400) 0 1025 =
        (List.range' 0 1025).map fun index =>
          symbolAt 0xC0010000 (BitVec.ofNat 32 index)
            (crowdedMemory 16400) := by
    apply List.filter_eq_self.mpr
    intro symbol member
    obtain ⟨index, inside, rfl⟩ := List.mem_map.mp member
    have bound := (List.mem_range'_1.mp inside).2
    rw [crowdedMemory_symbol 16400 (by omega)]
    decide
  rw [source, all, List.length_map, List.length_range'] at counted
  exact absurd counted (by decide)

/-! ## The start of the text -/

/-- The address lies in the kernel text, whose first byte belongs to it. -/
def InText (text : TextBounds) (addr : Word) : Prop :=
  text.kern_text_start + PAGE_OFFSET ≤ addr ∧
    addr < text.kern_text_end + PAGE_OFFSET

instance (text : TextBounds) (addr : Word) : Decidable (InText text addr) :=
  inferInstanceAs (Decidable (_ ∧ _))

/-- The symbols of the table whose value lies in the kernel text. -/
def textSymbols (text : TextBounds) (source : SymbolSource) (m : Memory) :
    List ElfSymbol :=
  ((List.range' 0 source.symtab_size).map fun index =>
    symbolAt source.ksymtab (BitVec.ofNat 32 index) m).filter fun symbol =>
      InText text symbol.value

/-- The test at loading time leaves out the symbols at the text start. -/
theorem isKernelText_iff (text : TextBounds) (addr : Word) :
    isKernelText text addr = true ↔
      InText text addr ∧ text.kern_text_start + PAGE_OFFSET < addr := by
  simp only [isKernelText, InText, decide_eq_true_eq]
  constructor
  · exact fun inside => ⟨⟨BitVec.le_of_lt inside.1, inside.2⟩, inside.1⟩
  · exact fun inside => ⟨inside.2, inside.1.2⟩

section Attribution

variable {text : TextBounds} {source : SymbolSource} {m : Memory}

theorem mem_acceptedSymbols_iff {symbol : ElfSymbol} :
    symbol ∈ acceptedSymbols text source m 0 source.symtab_size ↔
      symbol ∈ textSymbols text source m ∧
        text.kern_text_start + PAGE_OFFSET < symbol.value := by
  simp only [acceptedSymbols, textSymbols, List.mem_filter, isKernelText_iff,
    decide_eq_true_eq, and_assoc]

theorem acceptedSymbols_length_le :
    (acceptedSymbols text source m 0 source.symtab_size).length ≤
      (textSymbols text source m).length := by
  simp only [acceptedSymbols, textSymbols, ← List.countP_eq_length_filter]
  apply List.countP_mono_left
  intro symbol _ accepted
  exact decide_eq_true ((isKernelText_iff text symbol.value).mp accepted).1

end Attribution

/-- The symbol selected for the address has a value at or below it, and no
symbol of the text lies strictly between. -/
def AttributedBelow (mb : Multiboot) (text : TextBounds)
    (stack : Word × Word) (m : Memory) (k : Kallsyms) (addr : Word) : Prop :=
  ∃ k' idx offset, loadKsymFromMultiboot mb text stack m k = some k' ∧
    getSymbolPos addr k' = some (idx, offset) ∧ idx < k'.num ∧
    k'.addr idx ≤ addr ∧
    ∀ symbol, symbol ∈ textSymbols text (symbolSource mb stack m) m →
      ¬ (k'.addr idx < symbol.value ∧ symbol.value < addr)

/-- An address with a selected symbol at or below it has one above the start of
the text. -/
theorem AttributedBelow.exists_above {mb : Multiboot} {text : TextBounds}
    {stack : Word × Word} {m : Memory} {k : Kallsyms} {addr : Word}
    (few : (textSymbols text (symbolSource mb stack m) m).length ≤
      KALLSYMS_NUM_MAX)
    (attributed : AttributedBelow mb text stack m k addr) :
    ∃ symbol, symbol ∈ textSymbols text (symbolSource mb stack m) m ∧
      text.kern_text_start + PAGE_OFFSET < symbol.value ∧
      symbol.value ≤ addr := by
  obtain ⟨k₁, idx, _, run₁, _, bound, atMost, _⟩ := attributed
  obtain ⟨k', run, _, perm, _⟩ := loadKsym_spec mb text stack m k
    (Nat.le_trans acceptedSymbols_length_le few)
  rw [run] at run₁
  obtain rfl := Option.some.inj run₁
  obtain ⟨symbol, member, value, _⟩ := symbol_of_entry perm bound
  obtain ⟨inText, above⟩ := mem_acceptedSymbols_iff.mp member
  exact ⟨symbol, inText, above, by rw [value]; exact atMost⟩

/-- An address is never attributed to a later function when some symbol lies
between the text start, without it, and the address; otherwise it is. -/
theorem text_attribution_iff {mb : Multiboot} {text : TextBounds}
    {stack : Word × Word} {m : Memory} (k : Kallsyms) (addr : Word)
    (few : (textSymbols text (symbolSource mb stack m) m).length ≤
      KALLSYMS_NUM_MAX) :
    AttributedBelow mb text stack m k addr ↔
      ∃ symbol, symbol ∈ textSymbols text (symbolSource mb stack m) m ∧
        text.kern_text_start + PAGE_OFFSET < symbol.value ∧
        symbol.value ≤ addr := by
  constructor
  · exact AttributedBelow.exists_above few
  · intro exists_
    obtain ⟨symbol, inText, above, atMost⟩ := exists_
    obtain ⟨k', run, room, perm, settled⟩ := loadKsym_spec mb text stack m k
      (Nat.le_trans acceptedSymbols_length_le few)
    obtain ⟨idx, found, bound, below, greatest, _⟩ :=
      getSymbolPos_of_covered room perm (ascending_of_settled settled)
        ⟨symbol, mem_acceptedSymbols_iff.mpr ⟨inText, above⟩, atMost⟩
    refine ⟨k', idx, _, run, found, bound, below, ?_⟩
    intro other otherText between
    -- a symbol at the text start lies below every accepted one
    have otherAbove : text.kern_text_start + PAGE_OFFSET < other.value := by
      have least := BitVec.le_def.mp (greatest symbol
        (mem_acceptedSymbols_iff.mpr ⟨inText, above⟩) atMost)
      have later := BitVec.lt_def.mp between.1
      rw [BitVec.lt_def] at above ⊢
      omega
    have otherLe := greatest other
      (mem_acceptedSymbols_iff.mpr ⟨otherText, otherAbove⟩)
      (BitVec.le_of_lt between.2)
    exact absurd between.1 (BitVec.not_lt.mpr otherLe)

theorem text_attribution_iff_sample :
    AttributedBelow ⟨3, 0x1000, 2⟩ ⟨0x100000, 0x200000⟩ (0, 0) sampleMemory
        ⟨0, fun _ => 0, fun _ => 0⟩ 0xC0100018 ↔
      ∃ symbol, symbol ∈ textSymbols ⟨0x100000, 0x200000⟩
          (symbolSource ⟨3, 0x1000, 2⟩ (0, 0) sampleMemory) sampleMemory ∧
        (0x100000 : Word) + PAGE_OFFSET < symbol.value ∧
        symbol.value ≤ 0xC0100018 :=
  text_attribution_iff _ _ (by decide +kernel)

/-- The third symbol of the sample at the start of the text. -/
def startMemory : Memory := sampleMemory.store32 0x3024 0xC0100000

/-- The address of the function at the text start is attributed to the next
one. -/
theorem text_start_misattributed :
    ¬ ∀ (mb : Multiboot) (text : TextBounds) (stack : Word × Word)
        (m : Memory) (k : Kallsyms) (addr : Word),
      (textSymbols text (symbolSource mb stack m) m).length ≤
        KALLSYMS_NUM_MAX →
      InText text addr →
      (∃ symbol, symbol ∈ textSymbols text (symbolSource mb stack m) m ∧
        symbol.value ≤ addr) →
      AttributedBelow mb text stack m k addr := by
  intro general
  have few : (textSymbols ⟨0x100000, 0x200000⟩
      (symbolSource ⟨3, 0x1000, 2⟩ (0, 0) startMemory) startMemory).length ≤
        KALLSYMS_NUM_MAX := by
    decide +kernel
  have symbols : textSymbols ⟨0x100000, 0x200000⟩
      (symbolSource ⟨3, 0x1000, 2⟩ (0, 0) startMemory) startMemory =
        [⟨5, 0xC0100030⟩, ⟨1, 0xC0100010⟩, ⟨9, 0xC0100000⟩] := by
    decide +kernel
  have attributed := general ⟨3, 0x1000, 2⟩ ⟨0x100000, 0x200000⟩ (0, 0)
    startMemory ⟨0, fun _ => 0, fun _ => 0⟩ 0xC0100000 few (by decide)
    (by rw [symbols]; decide)
  have exists_ := attributed.exists_above few
  rw [symbols] at exists_
  exact absurd exists_ (by decide)

end Hlos.Kernel
