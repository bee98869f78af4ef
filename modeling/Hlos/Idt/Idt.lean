import Hlos.Idt.Stubs
import Hlos.Include.Page
import Hlos.Lib.Pic8259

/-!
# `idt/idt.c`

`init_idt` moves the lines of the interrupt controllers to the vectors from 32
on and fills the interrupt descriptor table.  The table and its neighbours are
objects of the kernel in byte memory; the stubs lie where the linker put them.
-/

set_option linter.style.nameCheck false

namespace Hlos.Idt

open Hlos.Lib Hlos.Lib.X86 Hlos.Lib.Pic8259 Hlos.Include Hlos.Gdt

/-- The addresses of the objects of `idt.c`. -/
structure IdtObjects where
  interrupt_handlers : Word
  idt_entries : Word
  idt_ptr : Word

/-- The objects lie in the address space and do not overlap. -/
structure IdtObjects.Placed (o : IdtObjects) : Prop where
  handlers_inside : o.interrupt_handlers.toNat + 1024 ≤ 2 ^ 32
  entries_inside : o.idt_entries.toNat + 2048 ≤ 2 ^ 32
  ptr_inside : o.idt_ptr.toNat + 6 ≤ 2 ^ 32
  handlers_entries :
    o.interrupt_handlers.toNat + 1024 ≤ o.idt_entries.toNat ∨
      o.idt_entries.toNat + 2048 ≤ o.interrupt_handlers.toNat
  handlers_ptr :
    o.interrupt_handlers.toNat + 1024 ≤ o.idt_ptr.toNat ∨
      o.idt_ptr.toNat + 6 ≤ o.interrupt_handlers.toNat
  entries_ptr :
    o.idt_entries.toNat + 2048 ≤ o.idt_ptr.toNat ∨
      o.idt_ptr.toNat + 6 ≤ o.idt_entries.toNat

/-- The memory, the interrupt controllers and `IDTR`. -/
structure Board where
  mem : Memory
  pics : Pics
  idtr : TableRegister

/-- The ten port writes at the head of `init_idt`. -/
def remapPics (p : Pics) : Pics :=
  let p := p.outb 0x20 0x11
  let p := p.outb 0xA0 0x11
  let p := p.outb 0x21 0x20
  let p := p.outb 0xA1 0x28
  let p := p.outb 0x21 0x04
  let p := p.outb 0xA1 0x02
  let p := p.outb 0x21 0x01
  let p := p.outb 0xA1 0x01
  let p := p.outb 0x21 0x0
  p.outb 0xA1 0x0

def idtSetGate (o : IdtObjects) (num : BitVec 8) (base : Word)
    (sel : BitVec 16) (flags : BitVec 8) (m : Memory) : Memory :=
  let entry := o.idt_entries.toNat + 8 * num.toNat
  let m := m.store16 entry ((base &&& 0xFFFF).setWidth 16)
  let m := m.store16 (entry + 6) (((base >>> 16) &&& 0xFFFF).setWidth 16)
  let m := m.store16 (entry + 2) sel
  let m := m.store8 (entry + 4) 0
  m.store8 (entry + 5) flags

/-- The gates that `init_idt` sets, in order. -/
def gates : List (BitVec 8 × Label) :=
  (List.range 32).map
      (fun n => (BitVec.ofNat 8 n, .isr (BitVec.ofNat 8 n))) ++
    (List.range 16).map
      (fun n => (BitVec.ofNat 8 (32 + n), .irq (BitVec.ofNat 8 n))) ++
    [(255, .isr 255)]

def setGates (o : IdtObjects) (stub : Label → Word) :
    List (BitVec 8 × Label) → Memory → Memory
  | [], m => m
  | (num, label) :: rest, m =>
      setGates o stub rest (idtSetGate o num (stub label) 0x08 0x8E m)

def bzero (dest : Word) (len : Nat) (m : Memory) : Memory :=
  Memory.memset 0 len dest.toNat m

def initIdt (o : IdtObjects) (stub : Label → Word) (b : Board) : Board :=
  let pics := remapPics b.pics
  let m := bzero o.interrupt_handlers (4 * 256) b.mem
  let m := m.store16 o.idt_ptr.toNat (8 * 256 - 1)
  let m := m.store32 (o.idt_ptr.toNat + 2) o.idt_entries
  let m := bzero o.idt_entries (8 * 256) m
  let m := setGates o stub gates m
  -- `idt_flush`
  { mem := m, pics := pics, idtr := tableRegisterAt o.idt_ptr.toNat m }

/-! ## The gates of the table -/

section Gates

variable {o : IdtObjects} {stub : Label → Word}

/-- The halves of an address go into the gate and come back together. -/
theorem halves_append (x : Word) :
    (((x >>> 16) &&& 0xFFFF).setWidth 16 ++ (x &&& 0xFFFF).setWidth 16 :
      BitVec 32) = x := by
  apply BitVec.eq_of_toNat_eq
  have bound := x.isLt
  refine (append_toNat _ _).trans ?_
  have lowHalf (y : Word) : (y &&& 0xFFFF).toNat = y.toNat % 2 ^ 16 :=
    and_low_mask y 0xFFFF rfl
  rw [BitVec.toNat_setWidth, BitVec.toNat_setWidth, lowHalf, lowHalf,
    BitVec.toNat_ushiftRight, Nat.shiftRight_eq_div_pow]
  omega

/-- `idt_set_gate` sets one gate, as the processor reads it, and no other. -/
theorem gateAt_idtSetGate (num vector : BitVec 8) (base : Word)
    (sel : BitVec 16) (flags : BitVec 8) (m : Memory) :
    gateAt (o.idt_entries.toNat + 8 * vector.toNat)
        (idtSetGate o num base sel flags m) =
      if vector = num then ⟨base, sel, flags⟩
      else gateAt (o.idt_entries.toNat + 8 * vector.toNat) m := by
  simp only [gateAt, idtSetGate]
  by_cases same : vector = num
  · subst same
    simp (disch := omega) only [Memory.load16_store8_of_apart,
      Memory.load16_store16_of_apart, Memory.load16_store16_self,
      Memory.load8_store8_self, halves_append, if_true]
  · have different : vector.toNat ≠ num.toNat :=
      fun isSame => same (BitVec.eq_of_toNat_eq isSame)
    simp (disch := omega) only [Memory.load16_store8_of_apart,
      Memory.load16_store16_of_apart, Memory.load8_store8_of_ne,
      Memory.load8_store16_of_apart, if_neg same]

theorem gateAt_setGates_of_notMem (vector : BitVec 8)
    {list : List (BitVec 8 × Label)} {m : Memory}
    (absent : vector ∉ list.map Prod.fst) :
    gateAt (o.idt_entries.toNat + 8 * vector.toNat) (setGates o stub list m) =
      gateAt (o.idt_entries.toNat + 8 * vector.toNat) m := by
  induction list generalizing m with
  | nil => rfl
  | cons first rest inductionHypothesis =>
      simp only [List.map_cons, List.mem_cons, not_or] at absent
      rw [setGates, inductionHypothesis absent.2, gateAt_idtSetGate,
        if_neg absent.1]

theorem gateAt_setGates {vector : BitVec 8} {label : Label}
    {list : List (BitVec 8 × Label)} {m : Memory}
    (member : (vector, label) ∈ list) (nodup : (list.map Prod.fst).Nodup) :
    gateAt (o.idt_entries.toNat + 8 * vector.toNat) (setGates o stub list m) =
      ⟨stub label, 0x08, 0x8E⟩ := by
  induction list generalizing m with
  | nil => cases member
  | cons first rest inductionHypothesis =>
      obtain ⟨firstFresh, restNodup⟩ := List.nodup_cons.mp nodup
      cases List.mem_cons.mp member with
      | inl isFirst =>
          subst isFirst
          rw [setGates, gateAt_setGates_of_notMem vector firstFresh,
            gateAt_idtSetGate, if_pos rfl]
      | inr inRest => exact inductionHypothesis inRest restNodup

theorem gates_nodup : (gates.map Prod.fst).Nodup := by
  decide

theorem gates_complete : ∀ vector : BitVec 8,
    ∀ label, label ∈ stubOf vector → (vector, label) ∈ gates := by
  decide

theorem gates_sound : ∀ gate, gate ∈ gates → stubOf gate.1 = some gate.2 := by
  decide

/-- A vector without a stub gets no gate. -/
theorem notMem_gates {vector : BitVec 8} (noStub : stubOf vector = none) :
    vector ∉ gates.map Prod.fst := by
  intro member
  obtain ⟨gate, isGate, rfl⟩ := List.mem_map.mp member
  rw [gates_sound gate isGate] at noStub
  cases noStub

theorem gateAt_flags (addr : Nat) (m : Memory) :
    (gateAt addr m).flags = m.bytes (addr + 5) := rfl

theorem bzero_bytes {dest : Word} {len position : Nat} (m : Memory)
    (low : dest.toNat ≤ position) (high : position < dest.toNat + len) :
    (bzero dest len m).bytes position = 0 :=
  Memory.memset_bytes_inside low high

/-- After `init_idt` the table has the gates of the stubs and no other. -/
theorem gateAt_initIdt (b : Board) (vector : BitVec 8) :
    (∀ label, stubOf vector = some label →
      gateAt (o.idt_entries.toNat + 8 * vector.toNat) (initIdt o stub b).mem =
        ⟨stub label, 0x08, 0x8E⟩) ∧
      (stubOf vector = none →
        (gateAt (o.idt_entries.toNat + 8 * vector.toNat)
          (initIdt o stub b).mem).flags = 0) := by
  constructor
  · intro label isStub
    exact gateAt_setGates (gates_complete vector label isStub) gates_nodup
  · intro noStub
    have small := vector.isLt
    rw [initIdt, gateAt_setGates_of_notMem vector (notMem_gates noStub),
      gateAt_flags]
    rw [bzero_bytes _ (by omega) (by omega)]

theorem setGates_writes {list : List (BitVec 8 × Label)} {m : Memory}
    {position : Nat}
    (outside : position < o.idt_entries.toNat ∨
      o.idt_entries.toNat + 2048 ≤ position) :
    (setGates o stub list m).bytes position = m.bytes position := by
  induction list generalizing m with
  | nil => rfl
  | cons gate rest inductionHypothesis =>
      have small := gate.1.isLt
      rw [setGates, inductionHypothesis, idtSetGate]
      simp (disch := omega) only [Memory.store8_bytes_of_ne,
        Memory.store16_bytes_of_apart]

/-- The bytes of the objects. -/
def IdtObjects.bytes (o : IdtObjects) : Set Nat :=
  {position |
    (o.interrupt_handlers.toNat ≤ position ∧
      position < o.interrupt_handlers.toNat + 1024) ∨
    (o.idt_entries.toNat ≤ position ∧
      position < o.idt_entries.toNat + 2048) ∨
    (o.idt_ptr.toNat ≤ position ∧ position < o.idt_ptr.toNat + 6)}

/-- `init_idt` stores to its own objects only. -/
theorem initIdt_bytes (b : Board) {position : Nat}
    (outside : position ∉ o.bytes) :
    (initIdt o stub b).mem.bytes position = b.mem.bytes position := by
  unfold IdtObjects.bytes at outside
  simp only [Set.mem_ofPred_eq, not_or, not_and] at outside
  obtain ⟨handlers, entries, ptr⟩ := outside
  rw [initIdt, setGates_writes (by omega), bzero,
    Memory.memset_bytes_outside (by omega),
    Memory.store32_bytes_of_apart _ _ (by omega),
    Memory.store16_bytes_of_apart _ _ (by omega), bzero,
    Memory.memset_bytes_outside (by omega)]

/-- The descriptor table of `init_gdt` outlives `init_idt`. -/
theorem flatTable_initIdt {g : GdtObjects} {p p' : Processor} {b : Board}
    (loaded : GdtLoaded g p p') (isMem : b.mem = p'.cpu.mem)
    (apart : ∀ position, position ∈ tableBytes p'.gdtr →
      position ∉ o.bytes) :
    FlatTable p'.gdtr (initIdt o stub b).mem := by
  have table : FlatTable p'.gdtr b.mem :=
    ⟨kernelMarks, isMem ▸ loaded.table, rfl, rfl⟩
  exact table.congr fun position inTable =>
    initIdt_bytes b (apart position inTable)

/-- The operand of `lidt` is not overwritten when the table is filled. -/
theorem idtPtr_kept (placed : o.Placed) (m : Memory) :
    tableRegisterAt o.idt_ptr.toNat
        (setGates o stub gates (bzero o.idt_entries (8 * 256) m)) =
      tableRegisterAt o.idt_ptr.toNat m := by
  have apart := placed.entries_ptr
  apply tableRegisterAt_congr
  intro offset inside
  rw [setGates_writes (by omega), bzero,
    Memory.memset_bytes_outside (by omega)]

/-- `lidt` loads the address of the table and its last offset. -/
theorem idtr_initIdt (placed : o.Placed) (b : Board) :
    (initIdt o stub b).idtr = ⟨2047, o.idt_entries⟩ := by
  rw [initIdt, idtPtr_kept placed, tableRegisterAt,
    Memory.load32_store32_self,
    Memory.load16_congr
      (Memory.store32_bytes_of_apart _ _ (Or.inl (by omega)))
      (Memory.store32_bytes_of_apart _ _ (Or.inl (by omega))),
    Memory.load16_store16_self]
  rfl

/-- The bytes of the table are those that `init_idt` has stored. -/
def TableKept (o : IdtObjects) (stub : Label → Word) (b : Board)
    (m : Memory) : Prop :=
  ∀ position, o.idt_entries.toNat ≤ position →
    position < o.idt_entries.toNat + 2048 →
      m.bytes position = (initIdt o stub b).mem.bytes position

/-- At privilege level zero every interrupt is taken through the gate that
`init_idt` has set for it, in whatever memory the bytes of the table are still
the same.  A vector without a stub has no gate. -/
theorem interrupt_initIdt (placed : o.Placed) {b : Board} {c : Cpu}
    {gdtr : TableRegister} (kept : TableKept o stub b c.mem)
    (segments : FlatTable gdtr c.mem) (ring0 : c.cpl = 0)
    (vector : BitVec 8) (error : Option (BitVec 32)) :
    interrupt (initIdt o stub b).idtr gdtr vector error c =
      (stubOf vector).map (fun label => c.enterGate 0x08 (stub label) error) := by
  have small := vector.isLt
  have sameGate :
      gateAt (o.idt_entries.toNat + 8 * vector.toNat) c.mem =
        gateAt (o.idt_entries.toNat + 8 * vector.toNat)
          (initIdt o stub b).mem :=
    gateAt_congr fun offset inside => kept _ (by omega) (by omega)
  have inside : 8 * vector.toNat + 7 ≤ (2047 : BitVec 16).toNat := by
    simp only [BitVec.reduceToNat]
    omega
  have load : loadSeg gdtr .cs (0x08 &&& 0xFFFC) c =
      some (c.setSeg .cs 0x08) := segments.loadKernel ring0 .cs
  rw [interrupt, idtr_initIdt placed, sameGate]
  cases isStub : stubOf vector with
  | none =>
      have noGate := (@gateAt_initIdt o stub b vector).2 isStub
      simp [Gate.isInterruptGate, noGate]
  | some label =>
      have isGate : Gate.isInterruptGate ⟨stub label, 0x08, 0x8E⟩ = true := by
        simp [Gate.isInterruptGate]
      rw [(gateAt_initIdt b vector).1 label isStub, load,
        if_pos ⟨inside, isGate⟩]
      simp only [Option.bind_eq_bind, Option.bind_some, Cpu.setSeg_self]
      rfl

end Gates

end Hlos.Idt
