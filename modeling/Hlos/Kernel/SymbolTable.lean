import Hlos.Kernel.Ksym
import Hlos.Lib.IndexedTable

/-!
# Loading and looking up symbols

The table after `load_ksym_from_multiboot` is a sorted permutation of the
accepted symbols.  A lookup delivers the first entry with the greatest address
that does not exceed the one asked for.
-/

set_option linter.style.nameCheck false

namespace Hlos.Kernel

open Hlos.Lib Hlos.Include

namespace Kallsyms

/-- Address and name of an entry. -/
def pair (k : Kallsyms) (i : Nat) : Word × Word := (k.addr i, k.name i)

/-- The loaded entries in index order. -/
def table (k : Kallsyms) : List (Word × Word) := tableOf k.num k.pair

/-- The address of an entry as a number. -/
def key (k : Kallsyms) (i : Nat) : Nat := (k.addr i).toNat

end Kallsyms

/-- The symbols with index from `i` on that lie in the kernel text. -/
def acceptedSymbols (text : TextBounds) (source : SymbolSource) (m : Memory)
    (i left : Nat) : List ElfSymbol :=
  ((List.range' i left).map fun index =>
    symbolAt source.ksymtab (BitVec.ofNat 32 index) m).filter fun symbol =>
      isKernelText text symbol.value

/-- The entry of a symbol: its address and the address of its name. -/
def symbolEntry (source : SymbolSource) (symbol : ElfSymbol) : Word × Word :=
  (symbol.value, source.strtab_offset + symbol.name)

/-! ## Filtering -/

theorem acceptedSymbols_succ (text : TextBounds) (source : SymbolSource)
    (m : Memory) (i left : Nat) :
    acceptedSymbols text source m i (left + 1) =
      let symbol := symbolAt source.ksymtab (BitVec.ofNat 32 i) m
      if isKernelText text symbol.value then
        symbol :: acceptedSymbols text source m (i + 1) left
      else acceptedSymbols text source m (i + 1) left := by
  simp only [acceptedSymbols, List.range'_succ, List.map_cons,
    List.filter_cons]

/-- Appending one entry behind the loaded ones. -/
theorem table_append (k : Kallsyms) (value name : Word) :
    Kallsyms.table
        ⟨k.num + 1, Function.update k.addr k.num value,
          Function.update k.name k.num name⟩ =
      k.table ++ [(value, name)] := by
  rw [Kallsyms.table, tableOf_succ]
  congr 1
  · apply tableOf_congr
    intro index bound
    have different : index ≠ k.num := by
      change index < k.num at bound
      omega
    simp [Kallsyms.pair, different]
  · simp [Kallsyms.pair]

theorem filterSymbols_spec (text : TextBounds) (source : SymbolSource)
    (m : Memory) (left i : Nat) (k : Kallsyms)
    (room : k.num + (acceptedSymbols text source m i left).length ≤
      KALLSYMS_NUM_MAX) :
    ∃ k', filterSymbols text source m left i k = some k' ∧
      k'.num = k.num + (acceptedSymbols text source m i left).length ∧
      k'.table = k.table ++
        (acceptedSymbols text source m i left).map (symbolEntry source) := by
  induction left generalizing i k with
  | zero => exact ⟨k, rfl, rfl, by simp [acceptedSymbols]⟩
  | succ left inductionHypothesis =>
      rw [acceptedSymbols_succ] at room ⊢
      rw [filterSymbols]
      let symbol := symbolAt source.ksymtab (BitVec.ofNat 32 i) m
      by_cases inside : isKernelText text symbol.value
      · simp only [symbol, inside, if_true, List.length_cons] at room ⊢
        have free : k.num < KALLSYMS_NUM_MAX := by omega
        obtain ⟨k', run, number, table⟩ :=
          inductionHypothesis (i + 1)
            ⟨k.num + 1, Function.update k.addr k.num symbol.value,
              Function.update k.name k.num
                (source.strtab_offset + symbol.name)⟩
            (by simp only; omega)
        refine ⟨k', ?_, ?_, ?_⟩
        · simp only [writeAddr, writeName, free, if_true, Option.bind_eq_bind,
            Option.bind_some]
          exact run
        · simp only at number
          omega
        · rw [table, table_append, List.map_cons, List.append_assoc]
          rfl
      · simp only [symbol, inside, Bool.false_eq_true, if_false] at room ⊢
        exact inductionHypothesis (i + 1) k room

/-! ## Sorting -/

theorem findLeast_spec (kallsyms : Kallsyms) (left k idx : Nat)
    (room : k + left ≤ KALLSYMS_NUM_MAX) :
    ∃ least,
      findLeast kallsyms left k idx (kallsyms.addr idx) =
        some (least, kallsyms.addr least) ∧
      (least = idx ∨ k ≤ least ∧ least < k + left) ∧
      kallsyms.key least ≤ kallsyms.key idx ∧
      ∀ j, k ≤ j → j < k + left → kallsyms.key least ≤ kallsyms.key j := by
  induction left generalizing k idx with
  | zero =>
      refine ⟨idx, rfl, Or.inl rfl, Nat.le_refl _, ?_⟩
      intro j above below
      exact absurd above (Nat.not_le.mpr below)
  | succ left inductionHypothesis =>
      have inside : k < KALLSYMS_NUM_MAX := by omega
      have read : readAddr k kallsyms = some (kallsyms.addr k) :=
        if_pos inside
      rw [findLeast, read]
      simp only [Option.bind_eq_bind, Option.bind_some]
      by_cases smaller : kallsyms.addr idx > kallsyms.addr k
      · have keys : kallsyms.key k < kallsyms.key idx :=
          BitVec.lt_def.mp smaller
        obtain ⟨least, run, place, atMost, others⟩ :=
          inductionHypothesis (k + 1) k (by omega)
        rw [if_pos smaller]
        refine ⟨least, run, ?_, by omega, ?_⟩
        · right
          rcases place with isFirst | ⟨above, below⟩ <;> omega
        · intro j above below
          by_cases first : j = k
          · rw [first]
            exact atMost
          · exact others j (by omega) (by omega)
      · have keys : kallsyms.key idx ≤ kallsyms.key k :=
          Nat.le_of_not_lt fun less => smaller (BitVec.lt_def.mpr less)
        obtain ⟨least, run, place, atMost, others⟩ :=
          inductionHypothesis (k + 1) idx (by omega)
        rw [if_neg smaller]
        refine ⟨least, run, ?_, atMost, ?_⟩
        · rcases place with same | ⟨above, below⟩
          · exact Or.inl same
          · right
            omega
        · intro j above below
          by_cases first : j = k
          · rw [first]
            omega
          · exact others j (by omega) (by omega)

/-- The exchange swaps the entries in both arrays. -/
theorem exchange_spec {i idx : Nat} (k : Kallsyms)
    (iBound : i < KALLSYMS_NUM_MAX) (idxBound : idx < KALLSYMS_NUM_MAX) :
    exchange i idx (k.addr idx) k =
      some ⟨k.num, swapAt k.addr i idx, swapAt k.name i idx⟩ := by
  rw [swapAt_eq_update, swapAt_eq_update]
  simp only [exchange, readName, readAddr, writeAddr, writeName, iBound,
    idxBound, if_true, Option.bind_eq_bind, Option.bind_some]

/-- Each turn settles one more entry and permutes the table. -/
theorem sortSymbols_spec (left i : Nat) (k : Kallsyms)
    (whole : i + left = k.num) (room : k.num ≤ KALLSYMS_NUM_MAX)
    (settled : SettledBelow k.key i k.num) :
    ∃ k', sortSymbols left i k = some k' ∧ k'.num = k.num ∧
      k'.table.Perm k.table ∧ SettledBelow k'.key k'.num k'.num := by
  induction left generalizing i k with
  | zero =>
      have all : i = k.num := by omega
      rw [all] at settled
      exact ⟨k, rfl, rfl, List.Perm.refl _, settled⟩
  | succ left inductionHypothesis =>
      have iBound : i < KALLSYMS_NUM_MAX := by omega
      have read : readAddr i k = some (k.addr i) := if_pos iBound
      obtain ⟨least, found, place, atMost, others⟩ :=
        findLeast_spec k (k.num - (i + 1)) (i + 1) i (by omega)
      have low : i ≤ least := by
        rcases place with same | ⟨above, _⟩ <;> omega
      have high : least < k.num := by
        rcases place with same | ⟨_, below⟩ <;> omega
      have isLeast : ∀ j, i ≤ j → j < k.num → k.key least ≤ k.key j := by
        intro j above below
        by_cases first : j = i
        · rw [first]
          exact atMost
        · exact others j (by omega) (by omega)
      have swap : ∀ continue_ : Kallsyms → Option Kallsyms,
          (if i ≠ least then
            (exchange i least (k.addr least) k).bind continue_
          else continue_ k) =
            continue_
              ⟨k.num, swapAt k.addr i least, swapAt k.name i least⟩ := by
        intro continue_
        by_cases same : i = least
        · rw [if_neg (by simpa using same), ← same, swapAt_self, swapAt_self]
        · rw [if_pos same, exchange_spec k iBound (by omega),
            Option.bind_some]
      obtain ⟨k', run, number, perm, sorted⟩ :=
        inductionHypothesis (i + 1)
          ⟨k.num, swapAt k.addr i least, swapAt k.name i least⟩
          (by simp only; omega) room
          (settled.select low high isLeast)
      refine ⟨k', ?_, number, ?_, sorted⟩
      · rw [sortSymbols, read]
        simp only [Option.bind_eq_bind, Option.bind_some, found]
        rw [swap]
        exact run
      · have iInside : i < k.num := by omega
        exact perm.trans (tableOf_swapAt_perm k.pair iInside high)

/-- The loaded table is a sorted permutation of the accepted symbols. -/
theorem loadKsym_spec (mb : Multiboot) (text : TextBounds)
    (stack : Word × Word) (m : Memory) (k : Kallsyms)
    (room : (acceptedSymbols text (symbolSource mb stack m) m 0
      (symbolSource mb stack m).symtab_size).length ≤ KALLSYMS_NUM_MAX) :
    ∃ k', loadKsymFromMultiboot mb text stack m k = some k' ∧
      k'.num ≤ KALLSYMS_NUM_MAX ∧
      k'.table.Perm ((acceptedSymbols text (symbolSource mb stack m) m 0
        (symbolSource mb stack m).symtab_size).map
          (symbolEntry (symbolSource mb stack m))) ∧
      SettledBelow k'.key k'.num k'.num := by
  obtain ⟨filtered, filterRun, number, table⟩ :=
    filterSymbols_spec text (symbolSource mb stack m) m
      (symbolSource mb stack m).symtab_size 0 ⟨0, k.addr, k.name⟩
      (by simpa using room)
  have few : filtered.num ≤ KALLSYMS_NUM_MAX := by
    simp only at number
    omega
  obtain ⟨k', sortRun, sameNumber, perm, sorted⟩ :=
    sortSymbols_spec filtered.num 0 filtered (Nat.zero_add _) few
      (SettledBelow.zero _ _)
  refine ⟨k', ?_, by omega, ?_, sorted⟩
  · simp only [loadKsymFromMultiboot, filterRun, sortRun,
      Option.bind_eq_bind, Option.bind_some]
  · rw [table] at perm
    simpa [Kallsyms.table, tableOf] using perm

/-! ## Searching -/

/-- The keys of a loaded table ascend. -/
def Ascending (k : Kallsyms) : Prop :=
  ∀ left right, left ≤ right → right < k.num → k.key left ≤ k.key right

/-- The binary search ends at the last entry that does not exceed the
address.  The window shrinks in every turn. -/
theorem bisect_spec {k : Kallsyms} (room : k.num ≤ KALLSYMS_NUM_MAX)
    (addr : Word) (fuel low high : Nat) (order : low < high)
    (bound : high ≤ k.num) (enough : high - low ≤ fuel + 1)
    (below : k.key low ≤ addr.toNat)
    (above : high = k.num ∨ addr.toNat < k.key high) :
    ∃ pos, bisect k addr fuel low high = some pos ∧ pos < k.num ∧
      k.key pos ≤ addr.toNat ∧
      (pos + 1 = k.num ∨ addr.toNat < k.key (pos + 1)) := by
  induction fuel generalizing low high with
  | zero =>
      have single : high = low + 1 := by omega
      refine ⟨low, ?_, by omega, below, ?_⟩
      · rw [bisect, if_neg (by omega)]
      · rw [← single]
        exact above
  | succ fuel inductionHypothesis =>
      by_cases wide : high - low > 1
      · have read : readAddr (low + (high - low) / 2) k =
            some (k.addr (low + (high - low) / 2)) :=
          if_pos (by omega)
        rw [bisect, if_pos wide]
        simp only [read, Option.bind_eq_bind, Option.bind_some]
        by_cases atMost : k.addr (low + (high - low) / 2) ≤ addr
        · rw [if_pos atMost]
          exact inductionHypothesis _ high (by omega) bound (by omega)
            (BitVec.le_def.mp atMost) above
        · have exceeds : addr.toNat < k.key (low + (high - low) / 2) :=
            Nat.lt_of_not_le fun le => atMost (BitVec.le_def.mpr le)
          rw [if_neg atMost]
          exact inductionHypothesis low _ (by omega) (by omega)
            (by omega) below (Or.inr exceeds)
      · have single : high = low + 1 := by omega
        refine ⟨low, ?_, by omega, below, ?_⟩
        · rw [bisect, if_neg wide]
        · rw [← single]
          exact above

/-- The backward scan ends at the first of the equal entries before it. -/
theorem firstAlias_spec (k : Kallsyms) (low : Nat)
    (bound : low < KALLSYMS_NUM_MAX) :
    ∃ first, firstAlias k low = some first ∧ first ≤ low ∧
      k.addr first = k.addr low ∧
      (first = 0 ∨ k.addr (first - 1) ≠ k.addr first) := by
  induction low with
  | zero => exact ⟨0, rfl, Nat.le_refl _, rfl, Or.inl rfl⟩
  | succ low inductionHypothesis =>
      have before : readAddr low k = some (k.addr low) :=
        if_pos (Nat.lt_of_succ_lt bound)
      have here : readAddr (low + 1) k = some (k.addr (low + 1)) :=
        if_pos bound
      rw [firstAlias, before, here]
      simp only [Option.bind_eq_bind, Option.bind_some]
      by_cases alias_ : k.addr low = k.addr (low + 1)
      · obtain ⟨first, run, order, same, start⟩ :=
          inductionHypothesis (Nat.lt_of_succ_lt bound)
        rw [if_pos alias_]
        exact ⟨first, run, by omega, same.trans alias_, start⟩
      · rw [if_neg alias_]
        exact ⟨low + 1, rfl, Nat.le_refl _, rfl, Or.inr alias_⟩

/-- A lookup in an ascending table. -/
theorem getSymbolPos_spec {k : Kallsyms} (room : k.num ≤ KALLSYMS_NUM_MAX)
    (ascending : Ascending k) (addr : Word) (positive : 0 < k.num)
    (below : k.key 0 ≤ addr.toNat) :
    ∃ idx, getSymbolPos addr k = some (idx, addr - k.addr idx) ∧
      idx < k.num ∧ k.key idx ≤ addr.toNat ∧
      (∀ j, j < k.num → k.key j ≤ addr.toNat → k.key j ≤ k.key idx) ∧
      ∀ j, j < idx → k.addr j ≠ k.addr idx := by
  obtain ⟨pos, found, posBound, atMost, next⟩ :=
    bisect_spec room addr k.num 0 k.num positive (Nat.le_refl _) (by omega)
      below (Or.inl rfl)
  obtain ⟨first, aliasRun, order, same, start⟩ :=
    firstAlias_spec k pos (by omega)
  have sameKey : k.key first = k.key pos := congrArg BitVec.toNat same
  refine ⟨first, ?_, by omega, by omega, ?_, ?_⟩
  · have read : readAddr first k = some (k.addr first) := if_pos (by omega)
    simp only [getSymbolPos, found, aliasRun, read, Option.bind_eq_bind,
      Option.bind_some]
    rfl
  · intro j bound small
    rw [sameKey]
    by_cases early : j ≤ pos
    · exact ascending j pos early posBound
    · rcases next with last | exceeds
      · omega
      · have later := ascending (pos + 1) j (by omega) bound
        omega
  · intro j less equal
    rcases start with zero | different
    · omega
    · have equalKey : k.key j = k.key first := congrArg BitVec.toNat equal
      have lower := ascending j (first - 1) (by omega) (by omega)
      have upper := ascending (first - 1) first (by omega) (by omega)
      apply different
      apply BitVec.eq_of_toNat_eq
      change k.key (first - 1) = k.key first
      omega

theorem ascending_of_settled {k : Kallsyms}
    (settled : SettledBelow k.key k.num k.num) : Ascending k :=
  settled.sorted (Nat.le_succ _)

/-- A permuted table has the entries of the symbols. -/
theorem entry_of_symbol {k : Kallsyms} {source : SymbolSource}
    {symbols : List ElfSymbol}
    (perm : k.table.Perm (symbols.map (symbolEntry source)))
    {symbol : ElfSymbol} (member : symbol ∈ symbols) :
    ∃ i, i < k.num ∧ k.addr i = symbol.value := by
  have listed : symbolEntry source symbol ∈ k.table :=
    perm.mem_iff.mpr (List.mem_map_of_mem member)
  obtain ⟨i, bound, isEntry⟩ := mem_tableOf.mp listed
  exact ⟨i, bound, congrArg Prod.fst isEntry⟩

theorem symbol_of_entry {k : Kallsyms} {source : SymbolSource}
    {symbols : List ElfSymbol}
    (perm : k.table.Perm (symbols.map (symbolEntry source)))
    {i : Nat} (bound : i < k.num) :
    ∃ symbol, symbol ∈ symbols ∧ symbol.value = k.addr i ∧
      k.name i = source.strtab_offset + symbol.name := by
  have listed : k.pair i ∈ k.table := mem_tableOf.mpr ⟨i, bound, rfl⟩
  obtain ⟨symbol, member, isEntry⟩ :=
    List.mem_map.mp (perm.mem_iff.mp listed)
  exact ⟨symbol, member, congrArg Prod.fst isEntry,
    (congrArg Prod.snd isEntry).symm⟩

/-- A lookup at or above the value of some symbol of a sorted table. -/
theorem getSymbolPos_of_covered {k : Kallsyms} {source : SymbolSource}
    {symbols : List ElfSymbol} (room : k.num ≤ KALLSYMS_NUM_MAX)
    (perm : k.table.Perm (symbols.map (symbolEntry source)))
    (ascending : Ascending k) {addr : Word}
    (covered : ∃ symbol, symbol ∈ symbols ∧ symbol.value ≤ addr) :
    ∃ idx, getSymbolPos addr k = some (idx, addr - k.addr idx) ∧
      idx < k.num ∧ k.addr idx ≤ addr ∧
      (∀ symbol, symbol ∈ symbols → symbol.value ≤ addr →
        symbol.value ≤ k.addr idx) ∧
      ∀ j, j < idx → k.addr j ≠ k.addr idx := by
  obtain ⟨witness, witnessMember, witnessLe⟩ := covered
  obtain ⟨place, placeBound, placeValue⟩ :=
    entry_of_symbol perm witnessMember
  have least : k.key 0 ≤ addr.toNat := by
    have first := ascending 0 place (Nat.zero_le _) placeBound
    have value : k.key place = witness.value.toNat :=
      congrArg BitVec.toNat placeValue
    have small := BitVec.le_def.mp witnessLe
    omega
  obtain ⟨idx, found, bound, atMost, greatest, first⟩ :=
    getSymbolPos_spec room ascending addr (by omega) least
  refine ⟨idx, found, bound, BitVec.le_def.mpr atMost, ?_, first⟩
  intro other otherMember otherLe
  obtain ⟨j, jBound, jValue⟩ := entry_of_symbol perm otherMember
  have key : k.key j = other.value.toNat := congrArg BitVec.toNat jValue
  have small := BitVec.le_def.mp otherLe
  have result := greatest j jBound (by omega)
  exact BitVec.le_def.mpr (by rw [← key]; exact result)

/-- Loading gives a sorted permutation of the kernel text symbols.  A lookup
at or above the least of them stops at the first entry with the greatest
address not above the one asked for, and names a symbol with that address. -/
theorem symbol_lookup (mb : Multiboot) (text : TextBounds)
    (stack : Word × Word) (m : Memory) (k : Kallsyms)
    (room : (acceptedSymbols text (symbolSource mb stack m) m 0
      (symbolSource mb stack m).symtab_size).length ≤ KALLSYMS_NUM_MAX) :
    let source := symbolSource mb stack m
    let symbols := acceptedSymbols text source m 0 source.symtab_size
    ∃ k', loadKsymFromMultiboot mb text stack m k = some k' ∧
      k'.table.Perm (symbols.map (symbolEntry source)) ∧
      k'.table.Pairwise (fun left right => left.1 ≤ right.1) ∧
      ∀ addr, (∃ symbol, symbol ∈ symbols ∧ symbol.value ≤ addr) →
        ∃ idx, getSymbolPos addr k' = some (idx, addr - k'.addr idx) ∧
          idx < k'.num ∧ k'.addr idx ≤ addr ∧
          (∀ symbol, symbol ∈ symbols → symbol.value ≤ addr →
            symbol.value ≤ k'.addr idx) ∧
          (∀ j, j < idx → k'.addr j ≠ k'.addr idx) ∧
          ∃ symbol, symbol ∈ symbols ∧ symbol.value = k'.addr idx ∧
            ksymLookupName addr k' =
              some (source.strtab_offset + symbol.name) := by
  intro source symbols
  obtain ⟨k', run, few, perm, settled⟩ := loadKsym_spec mb text stack m k room
  have ascending := ascending_of_settled settled
  refine ⟨k', run, perm, ?_, ?_⟩
  · apply pairwise_tableOf
    intro left right order bound
    exact BitVec.le_def.mpr (ascending left right (by omega) bound)
  · intro addr covered
    obtain ⟨idx, found, bound, atMost, greatest, first⟩ :=
      getSymbolPos_of_covered few perm ascending covered
    obtain ⟨symbol, member, value, name⟩ := symbol_of_entry perm bound
    refine ⟨idx, found, bound, atMost, greatest, first, symbol, member, value,
      ?_⟩
    have read : readName idx k' = some (k'.name idx) := if_pos (by omega)
    rw [ksymLookupName, found]
    simp only [Option.bind_eq_bind, Option.bind_some, read, name]
    rfl

/-! ## A small symbol table -/

/-- Section names at `0x4000`, three section headers at `0x1000` and three
symbols at `0x3000`, with the string table at the given address. -/
def sampleTables (strtab : Word) : Memory :=
  let names : List (BitVec 8) :=
    [0] ++ strtabName ++ [0] ++ symtabName ++ [0]
  let words : List (Nat × Word) :=
    [(0x1000, 1), (0x100C, strtab), (0x1028, 9), (0x1034, 0x3000),
      (0x103C, 48), (0x105C, 0x4000), (0x3000, 5), (0x3004, 0xC0100030),
      (0x3010, 1), (0x3014, 0xC0100010), (0x3020, 9), (0x3024, 0xC0000000)]
  words.foldl (fun m word => m.store32 word.1 word.2)
    ⟨fun position => names.getD (position - 0x4000) 0, []⟩

def sampleMemory : Memory := sampleTables 0x2000

theorem symbol_lookup_sample :
    ∃ k', loadKsymFromMultiboot ⟨3, 0x1000, 2⟩ ⟨0x100000, 0x200000⟩ (0, 0)
        sampleMemory ⟨0, fun _ => 0, fun _ => 0⟩ = some k' ∧
      k'.table.Perm [(0xC0100030, 0xC0002005), (0xC0100010, 0xC0002001)] := by
  obtain ⟨k', run, perm, _⟩ :=
    symbol_lookup ⟨3, 0x1000, 2⟩ ⟨0x100000, 0x200000⟩ (0, 0) sampleMemory
      ⟨0, fun _ => 0, fun _ => 0⟩ (by decide +kernel)
  refine ⟨k', run, perm.trans (List.Perm.of_eq ?_)⟩
  decide +kernel

end Hlos.Kernel
