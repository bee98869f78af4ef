import Hlos.Idt.Idt
import Hlos.Idt.StubRuns

/-!
# Interrupts through the table of `init_idt`

An interrupt leads through its gate and its stub to the C handler and back.
The handler reads the interrupted program from the `pt_regs` on the stack, and
the program goes on with whatever the handler leaves there.
-/

namespace Hlos.Idt

open Hlos.Lib Hlos.Lib.X86 Hlos.Lib.Pic8259 Hlos.Include Hlos.Gdt

section Interrupts

variable {o : IdtObjects} {stub : Label → Word} {b : Board} {c : Cpu}
variable {gdtr : TableRegister}
variable {vector : BitVec 8} {label : Label} {error : Option (BitVec 32)}
variable {addr : Nat}

/-- The program runs in the kernel with both tables in place, and the sixteen
words below its stack pointer lie apart from the segment table. -/
structure Interruptible (o : IdtObjects) (stub : Label → Word) (b : Board)
    (gdtr : TableRegister) (c : Cpu) (addr : Nat) : Prop where
  kept : TableKept o stub b c.mem
  segments : FlatTable gdtr c.mem
  ring0 : c.cpl = 0
  esp : (c.reg .esp).toNat = addr + 64
  apart : ∀ position, addr ≤ position → position < addr + 64 →
    position ∉ tableBytes gdtr

/-- What the handler of a vector finds when it begins at `addr`: where it
returns to, its argument, the interrupted program behind it, the kernel's
segments, interrupts turned off and the rest of the memory unchanged. -/
structure HandlerSees (back : Word) (vector : BitVec 8)
    (error : Option (BitVec 32)) (c : Cpu) (addr : Nat) (seen : Cpu) :
    Prop where
  esp : (seen.reg .esp).toNat = addr
  back : seen.top = back
  argument : (seen.mem.load32 (addr + 4)).toNat = addr + 8
  regs : ptRegsAt (addr + 8) seen.mem = interruptedRegs vector error c
  segments : ∀ s, seen.seg s = if s = .cs then 0x08 else 0x10
  masked : seen.eflags &&& Cpu.ifMask = 0
  sameTask : seen.eflags.getLsbD ntBit = false
  writes : Memory.WritesWithin
    {position | addr ≤ position ∧ position < addr + 64} c.mem seen.mem

theorem called_sees (isEsp : (c.reg .esp).toNat = addr + 64)
    (offset : BitVec 32) :
    HandlerSees (stub (backOf vector)) vector error c addr
      (called stub vector 0x08 offset error c) where
  esp := (called_frame isEsp).esp
  back := (called_frame isEsp).top
  argument := by
    have room := (c.reg .esp).isLt
    have second := (@called_frame stub vector 0x08 offset error c addr
      isEsp).word 1 (by simp)
    rw [show addr + 4 = addr + 4 * 1 from rfl, second]
    change (c.reg .esp - 56).toNat = _
    rw [BitVec.toNat_sub_of_le (by
      rw [BitVec.le_def, isEsp]
      simp only [BitVec.reduceToNat]
      omega), isEsp]
    rfl
  regs := called_regs isEsp
  segments := called_seg
  masked := called_eflags
  sameTask := called_nt
  writes := called_writes isEsp

/-- A handler is about to return: its own stack is empty, the return address
stands there, and it has kept the privilege level, the task and the segment
table. -/
structure Returning (gdtr : TableRegister) (back : Word) (addr : Nat)
    (c : Cpu) : Prop where
  esp : (c.reg .esp).toNat = addr
  back : c.top = back
  ring0 : c.cpl = 0
  sameTask : c.eflags.getLsbD ntBit = false
  segments : FlatTable gdtr c.mem

theorem returnFrom_eq {World : Type} {returned : Cpu}
    (isEsp : (c.reg .esp).toNat = addr + 64)
    (returning : Returning gdtr (stub (backOf vector)) addr returned)
    (w : World) :
    let regs := ptRegsAt (addr + 8) returned.mem
    returnFrom gdtr stub (backOf vector) (w, returned) =
      if regs.Resumable then
        some (w, regs.resume (c.reg .esp) returned.mem)
      else none := by
  intro regs
  have room : addr + 64 < 2 ^ 32 := isEsp ▸ (c.reg .esp).isLt
  have dropped : (returned.drop.reg .esp).toNat = addr + 4 := by
    change (Function.update returned.reg .esp (returned.reg .esp + 4)
      .esp).toNat = _
    rw [Function.update_self, BitVec.toNat_add, returning.esp]
    simp only [BitVec.reduceToNat]
    omega
  have sameEsp : returned.drop.reg .esp + 60 = c.reg .esp := by
    apply BitVec.eq_of_toNat_eq
    rw [BitVec.toNat_add, dropped, isEsp]
    simp only [BitVec.reduceToNat]
    omega
  have restored : restoreContext gdtr returned.drop =
      if regs.Resumable then some (regs.resume (c.reg .esp) returned.mem)
      else none := by
    rw [← sameEsp]
    exact restoreContext_eq dropped (by omega) returning.segments
      returning.ring0 returning.sameTask
  rw [returnFrom, ret, if_pos returning.back]
  simp only [Option.bind_eq_bind, Option.bind_some, restored]
  split_ifs <;> rfl

/-- The program that was interrupted can be resumed. -/
theorem interruptedRegs_resumable :
    (interruptedRegs vector error c).Resumable ↔
      c.seg .ds = 0x10 ∧ c.seg .cs = 0x08 ∧
        c.eflags.getLsbD vmBit = false := by
  have segCs : ((c.seg .cs).setWidth 32).setWidth 16 = c.seg .cs := by
    simp
  have segDs : ((c.reg .eax).extractLsb' 16 16 ++ c.seg .ds :
      BitVec 32).setWidth 16 = c.seg .ds := Cpu.low_append _ _
  change _ = _ ∧ _ = _ ∧ _ ↔ _
  rw [interruptedRegs, segCs, segDs]

/-- A `pt_regs` that the handler has left alone resumes the program as it was.
The segment registers are all loaded from the saved `ds`. -/
theorem resume_interruptedRegs (m : Memory) :
    let resumed := (interruptedRegs vector error c).resume (c.reg .esp) m
    resumed.reg = c.reg ∧ resumed.eip = c.eip ∧ resumed.eflags = c.eflags ∧
      (resumed.seg = c.seg ↔ ∀ s, s ≠ .cs → c.seg s = c.seg .ds) := by
  have segCs : ((c.seg .cs).setWidth 32).setWidth 16 = c.seg .cs := by
    simp
  have segDs : ((c.reg .eax).extractLsb' 16 16 ++ c.seg .ds :
      BitVec 32).setWidth 16 = c.seg .ds := Cpu.low_append _ _
  refine ⟨?_, rfl, rfl, ?_⟩
  · funext r
    cases r <;> rfl
  · constructor
    · intro same s notCs
      rw [← congrFun same s]
      cases s with
      | cs => exact absurd rfl notCs
      | ds => exact segDs
      | es => exact segDs
      | fs => exact segDs
      | gs => exact segDs
      | ss => exact segDs
    · intro allDs
      funext s
      cases s with
      | cs => exact segCs
      | ds => exact segDs
      | es => exact segDs.trans (allDs .es (by simp)).symm
      | fs => exact segDs.trans (allDs .fs (by simp)).symm
      | gs => exact segDs.trans (allDs .gs (by simp)).symm
      | ss => exact segDs.trans (allDs .ss (by simp)).symm

/-- What the stub takes back from a structure: all its words but the last two,
which are not its own. -/
theorem ptRegsAt_congr {m m' : Memory}
    (same : ∀ position, addr ≤ position → position < addr + 56 →
      m'.bytes position = m.bytes position) :
    ptRegsAt addr m' =
      { ptRegsAt addr m with
        useresp := m'.load32 (addr + 56), ss := m'.load32 (addr + 60) } := by
  have word (skip : Nat) (inside : skip ≤ 52) :
      m'.load32 (addr + skip) = m.load32 (addr + skip) :=
    Memory.load32_congr fun offset small => same _ (by omega) (by omega)
  have first := word 0 (by simp)
  rw [Nat.add_zero] at first
  simp only [ptRegsAt, first, word 4 (by simp), word 8 (by simp),
    word 12 (by simp), word 16 (by simp), word 20 (by simp), word 24 (by simp),
    word 28 (by simp), word 32 (by simp), word 36 (by simp), word 40 (by simp),
    word 44 (by simp), word 48 (by simp), word 52 (by simp)]

/-- What the stub makes of a `pt_regs` that the handler has left alone. -/
theorem HandlerSees.returnFrom_eq {World : Type} {back : Word}
    {seen returned : Cpu}
    (sees : HandlerSees back vector error c addr seen)
    (isEsp : (c.reg .esp).toNat = addr + 64)
    (returning : Returning gdtr (stub (backOf vector)) addr returned)
    (untouched : ∀ position, addr + 8 ≤ position → position < addr + 64 →
      returned.mem.bytes position = seen.mem.bytes position) (w : World) :
    returnFrom gdtr stub (backOf vector) (w, returned) =
      if (interruptedRegs vector error c).Resumable then
        some (w, (interruptedRegs vector error c).resume (c.reg .esp)
          returned.mem)
      else none := by
  have regs := ptRegsAt_congr untouched
  rw [sees.regs] at regs
  rw [Idt.returnFrom_eq isEsp returning, regs]
  -- neither looks at the last two words
  rfl

/-- After `init_gdt` and `init_idt` the kernel can be interrupted. -/
theorem interruptible_start {g : GdtObjects} {p p' : Processor}
    (loaded : GdtLoaded g p p') (isMem : b.mem = p'.cpu.mem)
    (tables : ∀ position, position ∈ tableBytes p'.gdtr → position ∉ o.bytes)
    (isEsp : (p'.cpu.reg .esp).toNat = addr + 64)
    (stack : ∀ position, addr ≤ position → position < addr + 64 →
      position ∉ tableBytes p'.gdtr) :
    Interruptible o stub b p'.gdtr
      { p'.cpu with mem := (initIdt o stub b).mem } addr where
  kept _ _ _ := rfl
  segments := flatTable_initIdt loaded isMem tables
  ring0 := by
    rw [Cpu.cpl, loaded.segments]
    rfl
  esp := isEsp
  apart := stack

end Interrupts

/-! ## A page fault -/

def exampleGdt : GdtObjects := ⟨0x13000, 0x13100⟩

def exampleObjects : IdtObjects := ⟨0x10000, 0x11000, 0x12000⟩

/-- Stubs one byte apart, for the example only their addresses count. -/
def exampleStub : Label → Word
  | .isr n => 0x1000#24 ++ n
  | .irq n => 0x1001#24 ++ n
  | .isrCommonStub => 0x100200
  | .irqCommonStub => 0x100201
  | .isrReturn => 0x100202
  | .irqReturn => 0x100203
  | .isrHandler => 0x100204
  | .irqHandler => 0x100205

def exampleBoard (m : Memory) : Board := ⟨m, ⟨.blank, .blank⟩, ⟨0, 0⟩⟩

/-- The processor before `init_gdt`, with the segments of a boot loader. -/
def exampleBoot : Processor where
  cpu :=
    { reg := fun r => if r = .esp then 0x9000 else 7
      seg := fun s => if s = .cs then 0x10 else 0x18
      eip := 0x1234
      eflags := 0x202
      mem := ⟨fun _ => 0, []⟩ }
  gdtr := ⟨0, 0⟩

/-- The processor when `init_idt` returns. -/
def afterInitIdt (p : Processor) : Cpu :=
  { p.cpu with
    mem := (initIdt exampleObjects exampleStub (exampleBoard p.cpu.mem)).mem }

theorem exampleGdt_placed : exampleGdt.Placed := by
  constructor <;> decide

theorem exampleObjects_placed : exampleObjects.Placed := by
  constructor <;> decide

theorem exampleBoot_loaded : ∃ p, GdtLoaded exampleGdt exampleBoot p :=
  initGdt_loaded exampleGdt_placed rfl

theorem exampleBoot_interruptible {p : Processor}
    (loaded : GdtLoaded exampleGdt exampleBoot p) :
    Interruptible exampleObjects exampleStub (exampleBoard p.cpu.mem) p.gdtr
      (afterInitIdt p) 0x8FC0 := by
  have table : tableBytes p.gdtr =
      {position | 0x13000 ≤ position ∧ position < 0x13028} := by
    rw [loaded.gdtr]
    rfl
  apply interruptible_start loaded rfl
  · rw [table]
    rintro position ⟨low, high⟩ (handlers | entries | ptr)
    · exact absurd (handlers.2.trans_le (show _ ≤ 0x13000 by decide)) (by omega)
    · exact absurd (entries.2.trans_le (show _ ≤ 0x13000 by decide)) (by omega)
    · exact absurd (ptr.2.trans_le (show _ ≤ 0x13000 by decide)) (by omega)
  · rw [loaded.reg .esp (by decide)]
    rfl
  · rw [table]
    rintro position low high ⟨above, _⟩
    omega

theorem pageFault_stub : stubOf 14 = some (.isr 14) := by
  decide

theorem pageFault_pushes : PushesError 14 (some 2) :=
  ⟨fun _ => by decide, fun _ => rfl⟩

end Hlos.Idt
