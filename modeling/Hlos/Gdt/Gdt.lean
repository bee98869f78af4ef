import Hlos.Include.Page
import Hlos.Lib.Segments

/-!
# `gdt/gdt.c` and `gdt/gdt_s.s`

The global descriptor table in byte memory, as the processor reads it.
-/

namespace Hlos.Gdt

open Hlos.Lib Hlos.Lib.X86 Hlos.Include

/-- The addresses of the objects of `gdt.c`. -/
structure GdtObjects where
  gdt_entries : Word
  gdt_ptr : Word

/-- The objects lie in the address space and do not overlap. -/
structure GdtObjects.Placed (o : GdtObjects) : Prop where
  entries_inside : o.gdt_entries.toNat + 40 ≤ 2 ^ 32
  ptr_inside : o.gdt_ptr.toNat + 6 ≤ 2 ^ 32
  apart : o.gdt_entries.toNat + 40 ≤ o.gdt_ptr.toNat ∨
    o.gdt_ptr.toNat + 6 ≤ o.gdt_entries.toNat

def GDT_LENGTH : Nat := 5

def gdtSetGate (o : GdtObjects) (num : Nat) (base limit : Word)
    (access gran : BitVec 8) (m : Memory) : Memory :=
  let entry := o.gdt_entries.toNat + 8 * num
  let m := m.store16 (entry + 2) ((base &&& 0xFFFF).setWidth 16)
  let m := m.store8 (entry + 4) (((base >>> 16) &&& 0xFF).setWidth 8)
  let m := m.store8 (entry + 7) (((base >>> 24) &&& 0xFF).setWidth 8)
  let m := m.store16 entry ((limit &&& 0xFFFF).setWidth 16)
  let m := m.store8 (entry + 6) (((limit >>> 16) &&& 0x0F).setWidth 8)
  let m := m.store8 (entry + 6) (m.load8 (entry + 6) ||| (gran &&& 0xF0))
  m.store8 (entry + 5) access

/-- The processor and `GDTR`. -/
structure Processor where
  cpu : Cpu
  gdtr : TableRegister

/-- `gdt_flush`, up to its `ret`.  The far jump loads `cs`. -/
def gdtFlush (gdt_ptr : Word) (p : Processor) : Option Processor := do
  let c := p.cpu.setReg .eax gdt_ptr
  let gdtr := tableRegisterAt (c.reg .eax).toNat c.mem
  let c := c.setLow .eax 0x10
  let c ← loadSeg gdtr .ds 0x10 c
  let c ← loadSeg gdtr .es 0x10 c
  let c ← loadSeg gdtr .fs 0x10 c
  let c ← loadSeg gdtr .gs 0x10 c
  let c ← loadSeg gdtr .ss 0x10 c
  let c ← loadSeg gdtr .cs 0x08 c
  return ⟨c, gdtr⟩

/-- The stores of `init_gdt`. -/
def fillGdt (o : GdtObjects) (m : Memory) : Memory :=
  let m := m.store16 o.gdt_ptr.toNat (BitVec.ofNat 16 (8 * GDT_LENGTH - 1))
  let m := m.store32 (o.gdt_ptr.toNat + 2) o.gdt_entries
  let m := gdtSetGate o 0 0 0 0 0 m
  let m := gdtSetGate o 1 0 0xFFFFFFFF 0x9A 0xCF m
  let m := gdtSetGate o 2 0 0xFFFFFFFF 0x92 0xCF m
  let m := gdtSetGate o 3 0 0xFFFFFFFF 0xFA 0xCF m
  gdtSetGate o 4 0 0xFFFFFFFF 0xF2 0xCF m

def initGdt (o : GdtObjects) (p : Processor) : Option Processor :=
  gdtFlush o.gdt_ptr { p with cpu := { p.cpu with mem := fillGdt o p.cpu.mem } }

/-! ## One descriptor -/

section Descriptors

variable {o : GdtObjects}

/-- The three parts of a base come back together. -/
theorem base_append (x : Word) :
    (((x >>> 24) &&& 0xFF).setWidth 8 ++ ((x >>> 16) &&& 0xFF).setWidth 8 ++
      (x &&& 0xFFFF).setWidth 16 : BitVec 32) = x := by
  apply BitVec.eq_of_toNat_eq
  have bound := x.isLt
  refine (append_toNat _ _).trans ?_
  have low (y : Word) : (y &&& 0xFFFF).toNat = y.toNat % 2 ^ 16 :=
    and_low_mask y 0xFFFF rfl
  have byte (y : Word) : (y &&& 0xFF).toNat = y.toNat % 2 ^ 8 :=
    and_low_mask y 0xFF rfl
  rw [append_toNat, BitVec.toNat_setWidth, BitVec.toNat_setWidth,
    BitVec.toNat_setWidth, low, byte, byte, BitVec.toNat_ushiftRight,
    BitVec.toNat_ushiftRight, Nat.shiftRight_eq_div_pow,
    Nat.shiftRight_eq_div_pow]
  omega

/-- The high half of the byte that `limit` and `gran` share. -/
theorem shared_high (limit gran : BitVec 8) :
    ((limit &&& 0x0F) ||| (gran &&& 0xF0)).extractLsb' 4 4 =
      gran.extractLsb' 4 4 := by
  ext i inside
  have places : i = 0 ∨ i = 1 ∨ i = 2 ∨ i = 3 := by omega
  rcases places with rfl | rfl | rfl | rfl <;> simp

theorem shared_low (limit gran : BitVec 8) :
    ((limit &&& 0x0F) ||| (gran &&& 0xF0)).extractLsb' 0 4 =
      limit.setWidth 4 := by
  ext i inside
  have places : i = 0 ∨ i = 1 ∨ i = 2 ∨ i = 3 := by omega
  rcases places with rfl | rfl | rfl | rfl <;> simp

/-- The limit comes back without its upper twelve bits. -/
theorem limit_append (x : Word) :
    ((((x >>> 16) &&& 0x0F).setWidth 8).setWidth 4 ++
      (x &&& 0xFFFF).setWidth 16 : BitVec 20) = x.setWidth 20 := by
  apply BitVec.eq_of_toNat_eq
  have bound := x.isLt
  refine (append_toNat _ _).trans ?_
  have low (y : Word) : (y &&& 0xFFFF).toNat = y.toNat % 2 ^ 16 :=
    and_low_mask y 0xFFFF rfl
  have nibble (y : Word) : (y &&& 0x0F).toNat = y.toNat % 2 ^ 4 :=
    and_low_mask y 0x0F rfl
  rw [BitVec.toNat_setWidth, BitVec.toNat_setWidth, BitVec.toNat_setWidth,
    BitVec.toNat_setWidth, low, nibble, BitVec.toNat_ushiftRight,
    Nat.shiftRight_eq_div_pow]
  omega

theorem low_nibble (x : Word) :
    ((x &&& 0x0F).setWidth 8 : BitVec 8) &&& 0x0F = (x &&& 0x0F).setWidth 8 := by
  ext i inside
  simp

/-- `gdt_set_gate` sets one descriptor, as the processor reads it, and no
other. -/
theorem descriptorAt_gdtSetGate (num other : Nat) (base limit : Word)
    (access gran : BitVec 8) (m : Memory) :
    descriptorAt (o.gdt_entries.toNat + 8 * other)
        (gdtSetGate o num base limit access gran m) =
      if other = num then
        ⟨base, limit.setWidth 20, access, gran.extractLsb' 4 4⟩
      else descriptorAt (o.gdt_entries.toNat + 8 * other) m := by
  simp only [descriptorAt, gdtSetGate]
  by_cases same : other = num
  · subst same
    simp (disch := omega) only [Memory.load16_store8_of_apart,
      Memory.load16_store16_of_apart, Memory.load16_store16_self,
      Memory.load8_store8_self, Memory.load8_store8_of_ne,
      Memory.load8_store16_of_apart, base_append, if_true]
    rw [← low_nibble, shared_low, shared_high, limit_append]
  · simp (disch := omega) only [Memory.load16_store8_of_apart,
      Memory.load16_store16_of_apart, Memory.load8_store8_of_ne,
      Memory.load8_store16_of_apart, if_neg same]

end Descriptors

/-! ## The table -/

section Table

variable {o : GdtObjects}

/-- The descriptors of `init_gdt`: kernel code and data, user code and data,
all of four gigabytes from address zero. -/
def flatDescriptor : Nat → Descriptor
  | 1 => ⟨0, 0xFFFFF, 0x9A, 0xC⟩
  | 2 => ⟨0, 0xFFFFF, 0x92, 0xC⟩
  | 3 => ⟨0, 0xFFFFF, 0xFA, 0xC⟩
  | 4 => ⟨0, 0xFFFFF, 0xF2, 0xC⟩
  | _ => ⟨0, 0, 0, 0⟩

theorem descriptorAt_fillGdt (m : Memory) {index : Nat}
    (inside : index < GDT_LENGTH) :
    descriptorAt (o.gdt_entries.toNat + 8 * index) (fillGdt o m) =
      flatDescriptor index := by
  have places : index = 0 ∨ index = 1 ∨ index = 2 ∨ index = 3 ∨ index = 4 := by
    unfold GDT_LENGTH at inside
    omega
  simp only [fillGdt, descriptorAt_gdtSetGate]
  rcases places with rfl | rfl | rfl | rfl | rfl <;> rfl

/-- The bytes of the table and of the operand of `lgdt`. -/
def GdtObjects.bytes (o : GdtObjects) : Set Nat :=
  {position |
    (o.gdt_entries.toNat ≤ position ∧ position < o.gdt_entries.toNat + 40) ∨
    (o.gdt_ptr.toNat ≤ position ∧ position < o.gdt_ptr.toNat + 6)}

theorem gdtSetGate_writes {num : Nat} (inside : num < GDT_LENGTH)
    (base limit : Word) (access gran : BitVec 8) (m : Memory) :
    Memory.WritesWithin
      {position | o.gdt_entries.toNat ≤ position ∧
        position < o.gdt_entries.toNat + 40} m
      (gdtSetGate o num base limit access gran m) := by
  unfold GDT_LENGTH at inside
  have member : ∀ offset, offset < 8 →
      o.gdt_entries.toNat + 8 * num + offset ∈ {position |
        o.gdt_entries.toNat ≤ position ∧
          position < o.gdt_entries.toNat + 40} := by
    intro offset small
    exact ⟨by omega, by omega⟩
  have byte : ∀ (offset : Nat) (value : BitVec 8) (m : Memory), offset < 8 →
      Memory.WritesWithin _ m (m.store8 _ value) :=
    fun offset value m small =>
      Memory.store8_writesWithin value m (member offset small)
  have half : ∀ (offset : Nat) (value : BitVec 16) (m : Memory), offset < 7 →
      Memory.WritesWithin _ m (m.store16 _ value) :=
    fun offset value m small =>
      Memory.store16_writesWithin value m (member offset (by omega))
        (member (offset + 1) (by omega))
  apply (half 2 _ m (by simp)).trans
  apply (byte 4 _ _ (by simp)).trans
  apply (byte 7 _ _ (by simp)).trans
  apply (half 0 _ _ (by simp)).trans
  apply (byte 6 _ _ (by simp)).trans
  apply (byte 6 _ _ (by simp)).trans
  exact byte 5 _ _ (by simp)

/-- The memory before the gates are set. -/
def gdtPtrStored (o : GdtObjects) (m : Memory) : Memory :=
  (m.store16 o.gdt_ptr.toNat (BitVec.ofNat 16 (8 * GDT_LENGTH - 1))).store32
    (o.gdt_ptr.toNat + 2) o.gdt_entries

theorem gates_writes (m : Memory) :
    Memory.WritesWithin
      {position | o.gdt_entries.toNat ≤ position ∧
        position < o.gdt_entries.toNat + 40} (gdtPtrStored o m)
      (fillGdt o m) := by
  apply (gdtSetGate_writes (show 0 < GDT_LENGTH by decide) _ _ _ _ _).trans
  apply (gdtSetGate_writes (show 1 < GDT_LENGTH by decide) _ _ _ _ _).trans
  apply (gdtSetGate_writes (show 2 < GDT_LENGTH by decide) _ _ _ _ _).trans
  apply (gdtSetGate_writes (show 3 < GDT_LENGTH by decide) _ _ _ _ _).trans
  exact gdtSetGate_writes (show 4 < GDT_LENGTH by decide) _ _ _ _ _

theorem fillGdt_writes (m : Memory) :
    Memory.WritesWithin o.bytes m (fillGdt o m) := by
  have limit : Memory.WritesWithin o.bytes m
      (m.store16 o.gdt_ptr.toNat (BitVec.ofNat 16 (8 * GDT_LENGTH - 1))) :=
    Memory.store16_writesWithin _ m (Or.inr ⟨by omega, by omega⟩)
      (Or.inr ⟨by omega, by omega⟩)
  have base : ∀ m : Memory, Memory.WritesWithin o.bytes m
      (m.store32 (o.gdt_ptr.toNat + 2) o.gdt_entries) :=
    fun m => Memory.store32_writesWithin _ m fun offset small =>
      Or.inr ⟨by omega, by omega⟩
  exact (limit.trans (base _)).trans
    ((gates_writes m).mono fun _ member => Or.inl member)

/-- What `lgdt` reads is not overwritten when the table is filled. -/
theorem gdtr_fillGdt (placed : o.Placed) (m : Memory) :
    tableRegisterAt o.gdt_ptr.toNat (fillGdt o m) = ⟨39, o.gdt_entries⟩ := by
  have apart := placed.apart
  have kept : tableRegisterAt o.gdt_ptr.toNat (fillGdt o m) =
      tableRegisterAt o.gdt_ptr.toNat (gdtPtrStored o m) := by
    apply tableRegisterAt_congr
    intro offset inside
    apply (gates_writes m).unchanged
    rintro ⟨low, high⟩
    omega
  rw [kept, gdtPtrStored, tableRegisterAt, Memory.load32_store32_self,
    Memory.load16_congr
      (Memory.store32_bytes_of_apart _ _ (Or.inl (by omega)))
      (Memory.store32_bytes_of_apart _ _ (Or.inl (by omega))),
    Memory.load16_store16_self]
  rfl

/-- A selector names a segment of the table. -/
def FlatSelector (selector : BitVec 16) : Prop :=
  0 < selector.toNat / 8 ∧ selector.toNat / 8 < GDT_LENGTH ∧
    selector.getLsbD 2 = false

instance (selector : BitVec 16) : Decidable (FlatSelector selector) :=
  inferInstanceAs (Decidable (_ ∧ _ ∧ _))

/-- The table of `init_gdt`, with the accessed bits that the processor has
set. -/
structure MarkedTable (marks : Nat → Bool) (gdtr : TableRegister)
    (m : Memory) : Prop where
  limit : gdtr.limit = 39
  descriptor : ∀ index, index < GDT_LENGTH →
    descriptorAt (gdtr.base.toNat + 8 * index) m =
      (flatDescriptor index).mark (marks index)

theorem fillGdt_table (m : Memory) :
    MarkedTable (fun _ => false) ⟨39, o.gdt_entries⟩ (fillGdt o m) :=
  ⟨rfl, fun _ inside => descriptorAt_fillGdt m inside⟩

theorem flatDescriptor_flat (accessed : Bool) {index : Nat}
    (positive : 0 < index) (inside : index < GDT_LENGTH) :
    ((flatDescriptor index).mark accessed).base = 0 ∧
      ((flatDescriptor index).mark accessed).present = true ∧
      ((flatDescriptor index).mark accessed).isSegment = true ∧
      ((flatDescriptor index).mark accessed).lastOffset = 2 ^ 32 - 1 := by
  have places : index = 1 ∨ index = 2 ∨ index = 3 ∨ index = 4 := by
    unfold GDT_LENGTH at inside
    omega
  rcases places with rfl | rfl | rfl | rfl <;> cases accessed <;> decide

/-- The selector that `gdt_flush` loads into a register. -/
def kernelSelector (s : Seg) : BitVec 16 := if s = .cs then 0x08 else 0x10

section Marked

variable {marks : Nat → Bool} {gdtr : TableRegister} {m m' : Memory}
  {c c' : Cpu} {s : Seg} {selector : BitVec 16}

/-- The bytes of a table of five descriptors. -/
def tableBytes (gdtr : TableRegister) : Set Nat :=
  {position | gdtr.base.toNat ≤ position ∧
    position < gdtr.base.toNat + 8 * GDT_LENGTH}

theorem MarkedTable.segmentAt_eq (table : MarkedTable marks gdtr m)
    (selector : BitVec 16) :
    segmentAt gdtr selector m =
      if FlatSelector selector then
        some ((flatDescriptor (selector.toNat / 8)).mark
          (marks (selector.toNat / 8)))
      else none := by
  have limit : gdtr.limit.toNat = 39 := congrArg BitVec.toNat table.limit
  have length : GDT_LENGTH = 5 := rfl
  rw [segmentAt, limit]
  by_cases flat : FlatSelector selector
  · obtain ⟨positive, inside, globalTable⟩ := flat
    rw [if_pos ⟨by omega, globalTable, by omega⟩,
      if_pos ⟨positive, inside, globalTable⟩, table.descriptor _ inside]
  · rw [if_neg flat, if_neg]
    rintro ⟨positive, globalTable, inside⟩
    exact flat ⟨by omega, by omega, globalTable⟩

/-- In the segments of the table an offset is its own linear address, and there
are no other segments. -/
theorem MarkedTable.linear_eq (table : MarkedTable marks gdtr m)
    (selector : BitVec 16) (offset : Word) :
    linear gdtr selector offset m =
      if FlatSelector selector then some offset else none := by
  have offsetBound := offset.isLt
  rw [linear, table.segmentAt_eq]
  by_cases flat : FlatSelector selector
  · obtain ⟨base, present, isSegment, last⟩ :=
      flatDescriptor_flat (marks (selector.toNat / 8)) flat.1 flat.2.1
    rw [if_pos flat, if_pos flat, Option.bind_eq_bind, Option.bind_some, base,
      last, if_pos ⟨present, isSegment, by omega⟩]
    exact congrArg some (BitVec.zero_add offset)
  · rw [if_neg flat, if_neg flat]
    rfl

theorem MarkedTable.loadSeg_eq (table : MarkedTable marks gdtr c.mem)
    (ring0 : c.cpl = 0) (flat : FlatSelector selector) :
    loadSeg gdtr s selector c =
      if (flatDescriptor (selector.toNat / 8)).loadable
          (selector.toNat % 4) s then
        some { c.setSeg s selector with
          mem := markAccessed gdtr selector c.mem }
      else none := by
  have positive := flat.1
  rw [loadSeg, if_neg (by simpa using ring0),
    if_neg (fun null => by have small := null.1; omega),
    table.segmentAt_eq, if_pos flat, Option.bind_eq_bind, Option.bind_some,
    Descriptor.loadable_mark]
  rfl

/-- Loading a segment marks it and leaves the other descriptors alone. -/
theorem MarkedTable.mark (table : MarkedTable marks gdtr m)
    (selector : BitVec 16) :
    MarkedTable
      (fun index => marks index || decide (index = selector.toNat / 8)) gdtr
      (markAccessed gdtr selector m) where
  limit := table.limit
  descriptor index inside := by
    rw [descriptorAt_markAccessed, table.descriptor index inside,
      Descriptor.mark_mark]

theorem markAccessed_writes (flat : FlatSelector selector) (m : Memory) :
    Memory.WritesWithin (tableBytes gdtr) m
      (markAccessed gdtr selector m) := by
  obtain ⟨_, inside, _⟩ := flat
  rw [markAccessed]
  split_ifs
  · exact Memory.WritesWithin.refl _ m
  · exact Memory.store8_writesWithin _ m ⟨by omega, by omega⟩

/-- Stores outside the table leave it alone. -/
theorem MarkedTable.congr (table : MarkedTable marks gdtr m)
    (same : ∀ position, position ∈ tableBytes gdtr →
      m'.bytes position = m.bytes position) : MarkedTable marks gdtr m' where
  limit := table.limit
  descriptor index inside := by
    rw [← table.descriptor index inside]
    exact descriptorAt_congr fun offset small =>
      same _ ⟨by omega, by omega⟩

/-- A segment register was loaded: nothing else has changed but the accessed
bit. -/
structure Loaded (marks : Nat → Bool) (gdtr : TableRegister) (s : Seg)
    (selector : BitVec 16) (c c' : Cpu) : Prop where
  run : loadSeg gdtr s selector c = some c'
  reg : c'.reg = c.reg
  seg : c'.seg = Function.update c.seg s selector
  eflags : c'.eflags = c.eflags
  ring0 : c'.cpl = 0
  table : MarkedTable
    (fun index => marks index || decide (index = selector.toNat / 8)) gdtr
    c'.mem
  writes : Memory.WritesWithin (tableBytes gdtr) c.mem c'.mem

theorem MarkedTable.loadKernel (table : MarkedTable marks gdtr c.mem)
    (ring0 : c.cpl = 0) (s : Seg) :
    ∃ c', Loaded marks gdtr s (kernelSelector s) c c' := by
  have flat : FlatSelector (kernelSelector s) := by
    cases s <;> decide
  have loadable : (flatDescriptor ((kernelSelector s).toNat / 8)).loadable
      ((kernelSelector s).toNat % 4) s = true := by
    cases s <;> decide
  refine ⟨{ c.setSeg s (kernelSelector s) with
    mem := markAccessed gdtr (kernelSelector s) c.mem }, ?_, rfl, rfl, rfl, ?_,
    table.mark _, markAccessed_writes flat c.mem⟩
  · rw [table.loadSeg_eq ring0 flat, if_pos loadable]
  · by_cases isCs : s = .cs
    · subst isCs
      exact (Cpu.cpl_setSeg_cs (kernelSelector .cs) c).trans (by decide)
    · exact (Cpu.cpl_setSeg_of_ne _ c isCs).trans ring0

/-- The table while the kernel runs: its own segments are marked, and any other
may be. -/
def FlatTable (gdtr : TableRegister) (m : Memory) : Prop :=
  ∃ marks, MarkedTable marks gdtr m ∧ marks 1 = true ∧ marks 2 = true

theorem FlatTable.congr (table : FlatTable gdtr m)
    (same : ∀ position, position ∈ tableBytes gdtr →
      m'.bytes position = m.bytes position) : FlatTable gdtr m' := by
  obtain ⟨marks, marked, code, data⟩ := table
  exact ⟨marks, marked.congr same, code, data⟩

/-- Loading the kernel's segments again stores nothing. -/
theorem FlatTable.loadKernel (table : FlatTable gdtr c.mem)
    (ring0 : c.cpl = 0) (s : Seg) :
    loadSeg gdtr s (kernelSelector s) c =
      some (c.setSeg s (kernelSelector s)) := by
  obtain ⟨marks, marked, code, data⟩ := table
  have flat : FlatSelector (kernelSelector s) := by
    cases s <;> decide
  have loadable : (flatDescriptor ((kernelSelector s).toNat / 8)).loadable
      ((kernelSelector s).toNat % 4) s = true := by
    cases s <;> decide
  have isMarked : marks ((kernelSelector s).toNat / 8) = true := by
    cases s
    case cs => exact code
    all_goals exact data
  have access : (descriptorAt
      (gdtr.base.toNat + 8 * ((kernelSelector s).toNat / 8))
      c.mem).access.getLsbD 0 = true := by
    rw [marked.descriptor _ flat.2.1, isMarked]
    cases s <;> decide
  rw [marked.loadSeg_eq ring0 flat, if_pos loadable,
    markAccessed_of_marked access]
  rfl

/-- Whatever is loaded, the table stays one. -/
theorem FlatTable.loaded (table : FlatTable gdtr c.mem)
    (run : loadSeg gdtr s selector c = some c') :
    FlatTable gdtr c'.mem := by
  obtain ⟨marks, marked, code, data⟩ := table
  rw [loadSeg] at run
  split_ifs at run with isRing isNull
  · rw [← Option.some.inj run]
    exact ⟨marks, marked, code, data⟩
  · obtain ⟨d, _, rest⟩ := Option.bind_eq_some_iff.mp run
    split_ifs at rest with loadable
    rw [← Option.some.inj rest]
    exact ⟨_, marked.mark selector, by simp [code], by simp [data]⟩

theorem flatDescriptor_loadable : ∀ index, index < GDT_LENGTH →
    ∀ requested, requested < 4 →
      ((flatDescriptor index).loadable requested .cs = true →
        index = 1 ∧ requested = 0) ∧
      ((flatDescriptor index).loadable requested .ss = true →
        index = 2 ∧ requested = 0) := by
  decide

/-- At privilege level zero the code and the stack segment can only be the
kernel's. -/
theorem FlatTable.selector_eq (table : FlatTable gdtr c.mem)
    (special : s = .cs ∨ s = .ss)
    (run : loadSeg gdtr s selector c = some c') :
    selector = kernelSelector s := by
  obtain ⟨marks, marked, _, _⟩ := table
  rw [loadSeg] at run
  split_ifs at run with isRing isNull
  · exact absurd special (by simp [isNull.2.1, isNull.2.2])
  · rw [marked.segmentAt_eq] at run
    split_ifs at run with flat
    · obtain ⟨d, isDescriptor, rest⟩ := Option.bind_eq_some_iff.mp run
      split_ifs at rest with loadable
      rw [← Option.some.inj isDescriptor, Descriptor.loadable_mark] at loadable
      obtain ⟨positive, inside, globalTable⟩ := flat
      have rules := flatDescriptor_loadable _ inside _
        (Nat.mod_lt selector.toNat (show 0 < 4 by decide))
      have bit : selector.toNat / 4 % 2 = 0 := by
        rw [BitVec.getLsbD, Nat.testBit_eq_decide_div_mod_eq] at globalTable
        simpa using globalTable
      apply BitVec.eq_of_toNat_eq
      rcases special with rfl | rfl
      · obtain ⟨index, requested⟩ := rules.1 loadable
        change selector.toNat = 8
        omega
      · obtain ⟨index, requested⟩ := rules.2 loadable
        change selector.toNat = 16
        omega
    · cases run

end Marked

/-- The segments that are marked when the kernel's segments are loaded. -/
def kernelMarks (index : Nat) : Bool := decide (index = 1 ∨ index = 2)

/-- `gdt_flush` loads the kernel's segments, and of the other registers it
changes only `eax`. -/
theorem gdtFlush_fillGdt (placed : o.Placed) {p : Processor} {m : Memory}
    (ring0 : p.cpu.cpl = 0) (isMem : p.cpu.mem = fillGdt o m) :
    ∃ c, gdtFlush o.gdt_ptr p = some ⟨c, ⟨39, o.gdt_entries⟩⟩ ∧
      (∀ s, c.seg s = kernelSelector s) ∧
      (∀ r, r ≠ .eax → c.reg r = p.cpu.reg r) ∧
      c.eflags = p.cpu.eflags ∧
      MarkedTable kernelMarks ⟨39, o.gdt_entries⟩ c.mem ∧
      Memory.WritesWithin (tableBytes ⟨39, o.gdt_entries⟩) p.cpu.mem
        c.mem := by
  have gdtr : tableRegisterAt ((p.cpu.setReg .eax o.gdt_ptr).reg .eax).toNat
      (p.cpu.setReg .eax o.gdt_ptr).mem = ⟨39, o.gdt_entries⟩ := by
    change tableRegisterAt (Function.update p.cpu.reg .eax o.gdt_ptr .eax).toNat
      p.cpu.mem = _
    rw [Function.update_self, isMem, gdtr_fillGdt placed]
  have start : MarkedTable (fun _ => false) ⟨39, o.gdt_entries⟩
      ((p.cpu.setReg .eax o.gdt_ptr).setLow .eax 0x10).mem := by
    change MarkedTable _ _ p.cpu.mem
    rw [isMem]
    exact fillGdt_table m
  obtain ⟨c₁, ds⟩ := start.loadKernel ring0 .ds
  obtain ⟨c₂, es⟩ := ds.table.loadKernel ds.ring0 .es
  obtain ⟨c₃, fs⟩ := es.table.loadKernel es.ring0 .fs
  obtain ⟨c₄, gs⟩ := fs.table.loadKernel fs.ring0 .gs
  obtain ⟨c₅, ss⟩ := gs.table.loadKernel gs.ring0 .ss
  obtain ⟨c₆, cs⟩ := ss.table.loadKernel ss.ring0 .cs
  refine ⟨c₆, ?_, ?_, ?_, ?_, ⟨rfl, ?_⟩, ?_⟩
  · simp only [gdtFlush, gdtr, Option.bind_eq_bind]
    refine Option.bind_eq_some_iff.mpr ⟨_, ds.run, ?_⟩
    refine Option.bind_eq_some_iff.mpr ⟨_, es.run, ?_⟩
    refine Option.bind_eq_some_iff.mpr ⟨_, fs.run, ?_⟩
    refine Option.bind_eq_some_iff.mpr ⟨_, gs.run, ?_⟩
    refine Option.bind_eq_some_iff.mpr ⟨_, ss.run, ?_⟩
    refine Option.bind_eq_some_iff.mpr ⟨_, cs.run, ?_⟩
    rfl
  · intro s
    rw [cs.seg, ss.seg, gs.seg, fs.seg, es.seg, ds.seg]
    cases s <;> rfl
  · intro r other
    rw [cs.reg, ss.reg, gs.reg, fs.reg, es.reg, ds.reg]
    change Function.update (Function.update _ _ _) _ _ r = _
    rw [Function.update_of_ne other, Function.update_of_ne other]
  · rw [cs.eflags, ss.eflags, gs.eflags, fs.eflags, es.eflags, ds.eflags]
    rfl
  · intro index inside
    rw [cs.table.descriptor index inside]
    have places : index = 0 ∨ index = 1 ∨ index = 2 ∨ index = 3 ∨
        index = 4 := by
      unfold GDT_LENGTH at inside
      omega
    rcases places with rfl | rfl | rfl | rfl | rfl <;> rfl
  · exact ((((ds.writes.trans es.writes).trans fs.writes).trans
      gs.writes).trans ss.writes).trans cs.writes

/-- What `init_gdt` leaves. -/
structure GdtLoaded (o : GdtObjects) (p p' : Processor) : Prop where
  run : initGdt o p = some p'
  gdtr : p'.gdtr = ⟨39, o.gdt_entries⟩
  segments : ∀ s, p'.cpu.seg s = kernelSelector s
  reg : ∀ r, r ≠ .eax → p'.cpu.reg r = p.cpu.reg r
  eflags : p'.cpu.eflags = p.cpu.eflags
  table : MarkedTable kernelMarks p'.gdtr p'.cpu.mem
  writes : Memory.WritesWithin o.bytes p.cpu.mem p'.cpu.mem

theorem initGdt_loaded (placed : o.Placed) {p : Processor}
    (ring0 : p.cpu.cpl = 0) : ∃ p', GdtLoaded o p p' := by
  obtain ⟨c, run, segments, reg, eflags, table, writes⟩ :=
    @gdtFlush_fillGdt o placed
      ⟨{ p.cpu with mem := fillGdt o p.cpu.mem }, p.gdtr⟩ p.cpu.mem ring0 rfl
  refine ⟨⟨c, ⟨39, o.gdt_entries⟩⟩, run, rfl, segments, reg, eflags, table, ?_⟩
  exact (fillGdt_writes p.cpu.mem).trans
    (writes.mono fun _ member => Or.inl member)

/-- `init_gdt` does not fault at privilege level zero.  All segments are flat:
every offset is its own linear address.  The kernel runs in the ring-zero
segments, which the processor has marked as accessed, and nothing but the table
and the operand of `lgdt` is written. -/
theorem init_gdt_flat (placed : o.Placed) {p : Processor}
    (ring0 : p.cpu.cpl = 0) :
    ∃ p', initGdt o p = some p' ∧
      (∀ s, p'.cpu.seg s = if s = .cs then 0x08 else 0x10) ∧
      (∀ index, index < GDT_LENGTH →
        descriptorAt (p'.gdtr.base.toNat + 8 * index) p'.cpu.mem =
          (flatDescriptor index).mark (decide (index = 1 ∨ index = 2))) ∧
      (∀ selector offset, linear p'.gdtr selector offset p'.cpu.mem =
        if FlatSelector selector then some offset else none) ∧
      Memory.WritesWithin o.bytes p.cpu.mem p'.cpu.mem := by
  obtain ⟨p', loaded⟩ := @initGdt_loaded o placed p ring0
  exact ⟨p', loaded.run, loaded.segments, loaded.table.descriptor,
    loaded.table.linear_eq, loaded.writes⟩

end Table

theorem init_gdt_flat_example :
    ∃ p', initGdt ⟨0x10000, 0x10100⟩
        ⟨⟨fun _ => 0, fun _ => 0x10, 0, 0, ⟨fun _ => 1, []⟩⟩, ⟨0, 0⟩⟩ =
          some p' ∧
      linear p'.gdtr 0x08 0xC0100000 p'.cpu.mem = some 0xC0100000 ∧
      linear p'.gdtr 0x0C 0xC0100000 p'.cpu.mem = none ∧
      (descriptorAt (p'.gdtr.base.toNat + 8 * 1) p'.cpu.mem).access = 0x9B := by
  obtain ⟨p', run, _, descriptors, translates, _⟩ :=
    @init_gdt_flat ⟨0x10000, 0x10100⟩ ⟨by decide, by decide, by decide⟩
      ⟨⟨fun _ => 0, fun _ => 0x10, 0, 0, ⟨fun _ => 1, []⟩⟩, ⟨0, 0⟩⟩ rfl
  refine ⟨p', run, ?_, ?_, ?_⟩
  · rw [translates, if_pos (by decide)]
  · rw [translates, if_neg (by decide)]
  · rw [descriptors 1 (by decide)]
    rfl

end Hlos.Gdt
