import Hlos.Idt.Interrupts

/-!
# The linked kernel

Where the objects of the two tables, the stubs and the stack are, and what is
asked of the compiled C functions that the stubs call.
-/

namespace Hlos.Idt

open Hlos.Lib Hlos.Lib.X86 Hlos.Include Hlos.Gdt

/-- `stackNeed` is what the functions use of the stack below their return
address, and `intact` what they rely on in the rest of the memory. -/
structure Image where
  objects : IdtObjects
  gdt : GdtObjects
  stub : Label → Word
  stackLow : Nat
  stackHigh : Nat
  stackNeed : Nat
  intact : Memory → Prop

namespace Image

def gdtr (k : Image) : TableRegister := ⟨39, k.gdt.gdt_entries⟩

def OnStack (k : Image) (position : Nat) : Prop :=
  k.stackLow ≤ position ∧ position < k.stackHigh

/-- The bytes of the interrupt descriptor table. -/
def InTable (k : Image) (position : Nat) : Prop :=
  k.objects.idt_entries.toNat ≤ position ∧
    position < k.objects.idt_entries.toNat + 2048

/-- The tables and the stack lie apart. -/
structure Placed (k : Image) : Prop where
  idt : k.objects.Placed
  gdt : k.gdt.Placed
  tables : ∀ position, position ∈ tableBytes k.gdtr →
    position ∉ k.objects.bytes
  stack : ∀ position, k.OnStack position →
    position ∉ k.objects.bytes ∧ position ∉ tableBytes k.gdtr
  intact : ∀ m m' : Memory,
    (∀ position, ¬ k.OnStack position →
      m'.bytes position = m.bytes position) → k.intact m → k.intact m'

/-- A program runs in the kernel's segments with both tables in place, and the
stack has room for an interrupt. -/
structure Runs (k : Image) (b : Board) (c : Cpu) : Prop where
  kept : TableKept k.objects k.stub b c.mem
  segments : FlatTable k.gdtr c.mem
  flat : ∀ s, c.seg s = kernelSelector s
  notVirtual : c.eflags.getLsbD vmBit = false
  intact : k.intact c.mem
  low : k.stackLow + k.stackNeed + 64 ≤ (c.reg .esp).toNat
  high : (c.reg .esp).toNat ≤ k.stackHigh

/-- A stub has called a C function: the stack has room for it, and its argument
points to the `pt_regs` of a vector behind it. -/
structure Calls (k : Image) (c : Cpu) : Prop where
  segments : FlatTable k.gdtr c.mem
  flat : ∀ s, c.seg s = kernelSelector s
  intact : k.intact c.mem
  low : k.stackLow + k.stackNeed ≤ (c.reg .esp).toNat
  high : (c.reg .esp).toNat + 64 ≤ k.stackHigh
  argument : (c.mem.load32 ((c.reg .esp).toNat + 4)).toNat =
    (c.reg .esp).toNat + 8
  vector : (ptRegsAt ((c.reg .esp).toNat + 8) c.mem).int_no.toNat < 256

/-- The function is about to return.  Beside the memory that it should leave, it
has used its argument and the stack below its return address. -/
structure Returns (k : Image) (c : Cpu) (m : Memory) (returned : Cpu) :
    Prop where
  esp : returned.reg .esp = c.reg .esp
  seg : returned.seg = c.seg
  sameTask : returned.eflags.getLsbD ntBit = c.eflags.getLsbD ntBit
  memory : ∀ position,
    (position + k.stackNeed < (c.reg .esp).toNat ∨
      (c.reg .esp).toNat ≤ position) →
    (position < (c.reg .esp).toNat + 4 ∨ (c.reg .esp).toNat + 8 ≤ position) →
    returned.mem.bytes position = m.bytes position

/-- What a function with its `pt_regs` at `regs` has to leave alone: both tables
and the stack from its return address on. -/
def Spared (k : Image) (regs : Nat) (position : Nat) : Prop :=
  k.InTable position ∨ position ∈ tableBytes k.gdtr ∨
    (regs ≤ position + 8 ∧ position < k.stackHigh)

end Image

section Images

variable {k : Image} {b : Board} {c : Cpu} {vector : BitVec 8} {label : Label}
variable {error : Option (BitVec 32)} {addr : Nat}

/-- The stack pointer of a program, above the words that an interrupt pushes. -/
theorem Image.Runs.exists_esp (runs : k.Runs b c) :
    ∃ addr, (c.reg .esp).toNat = addr + 64 := by
  have low := runs.low
  exact ⟨(c.reg .esp).toNat - 64, by omega⟩

theorem Image.Runs.onStack (runs : k.Runs b c)
    (isEsp : (c.reg .esp).toNat = addr + 64) {position : Nat}
    (low : addr ≤ position + k.stackNeed) (high : position < addr + 64) :
    k.OnStack position := by
  have below := runs.low
  have above := runs.high
  exact ⟨by omega, by omega⟩

theorem Image.Runs.interruptible (placed : k.Placed) (runs : k.Runs b c)
    (isEsp : (c.reg .esp).toNat = addr + 64) :
    Interruptible k.objects k.stub b k.gdtr c addr where
  kept := runs.kept
  segments := runs.segments
  ring0 := by
    rw [Cpu.cpl, runs.flat]
    rfl
  esp := isEsp
  apart position low high :=
    (placed.stack position (runs.onStack isEsp (by omega) high)).2

section Seen

variable {back : Word} {seen returned : Cpu}

/-- The handler is called with everything it may ask for. -/
theorem HandlerSees.calls (placed : k.Placed) (runs : k.Runs b c)
    (isEsp : (c.reg .esp).toNat = addr + 64)
    (sees : HandlerSees back vector error c addr seen) : k.Calls seen where
  segments := runs.segments.congr fun position inTable =>
    sees.writes.unchanged position fun range =>
      (placed.stack position
        (runs.onStack isEsp (by have := range.1; omega) range.2)).2 inTable
  flat := sees.segments
  intact := by
    refine placed.intact c.mem seen.mem (fun position off => ?_) runs.intact
    exact sees.writes.unchanged position fun range =>
      off (runs.onStack isEsp (by have := range.1; omega) range.2)
  low := by
    have low := runs.low
    rw [sees.esp]
    omega
  high := by
    have high := runs.high
    rw [sees.esp]
    omega
  argument := by
    rw [sees.esp]
    exact sees.argument
  vector := by
    have small := vector.isLt
    rw [sees.esp, sees.regs]
    change (vector.setWidth 32).toNat < 256
    rw [BitVec.toNat_setWidth]
    omega

/-- A function has been called for an interrupt of the program, should leave the
memory as `m`, and is about to return. -/
structure Image.Handles (k : Image) (b : Board) (back : Word)
    (vector : BitVec 8) (error : Option (BitVec 32)) (c : Cpu) (addr : Nat)
    (seen : Cpu) (m : Memory) (returned : Cpu) : Prop where
  runs : k.Runs b c
  esp : (c.reg .esp).toNat = addr + 64
  sees : HandlerSees back vector error c addr seen
  spares : ∀ position, k.Spared (addr + 8) position →
    m.bytes position = seen.mem.bytes position
  returns : k.Returns seen m returned

namespace Image.Handles

variable {m : Memory}

/-- Outside the stack the memory is what the function should leave. -/
theorem off (handles : k.Handles b back vector error c addr seen m returned)
    {position : Nat} (notOn : ¬ k.OnStack position) :
    returned.mem.bytes position = m.bytes position := by
  have outside : ¬ (addr ≤ position + k.stackNeed ∧ position < addr + 64) :=
    fun range => notOn (handles.runs.onStack handles.esp range.1 range.2)
  have memory := handles.returns.memory position
  rw [handles.sees.esp] at memory
  exact memory (by omega) (by omega)

/-- The return address and the `pt_regs` are as they were. -/
theorem frame (handles : k.Handles b back vector error c addr seen m returned)
    {position : Nat} (low : addr ≤ position) (below : position < addr + 64)
    (behind : position < addr + 4 ∨ addr + 8 ≤ position) :
    returned.mem.bytes position = seen.mem.bytes position := by
  have memory := handles.returns.memory position
  have isEsp := handles.esp
  have high := handles.runs.high
  rw [handles.sees.esp] at memory
  rw [memory (Or.inr low) behind,
    handles.spares position (Or.inr (Or.inr ⟨by omega, by omega⟩))]

theorem segments (placed : k.Placed)
    (handles : k.Handles b back vector error c addr seen m returned) :
    FlatTable k.gdtr returned.mem := by
  apply (handles.sees.calls placed handles.runs handles.esp).segments.congr
  intro position inTable
  rw [handles.off fun on => (placed.stack position on).2 inTable,
    handles.spares position (Or.inr (Or.inl inTable))]

theorem returning (placed : k.Placed)
    (handles : k.Handles b back vector error c addr seen m returned) :
    Returning k.gdtr back addr returned where
  esp := by rw [handles.returns.esp, handles.sees.esp]
  back := by
    rw [Cpu.top, handles.returns.esp, ← handles.sees.back, Cpu.top,
      handles.sees.esp]
    apply Memory.load32_congr
    intro offset inside
    exact handles.frame (by omega) (by omega) (by omega)
  ring0 := by
    rw [Cpu.cpl, handles.returns.seg, handles.sees.segments]
    rfl
  sameTask := by rw [handles.returns.sameTask, handles.sees.sameTask]
  segments := handles.segments placed

/-- The program goes on as it was. -/
theorem returnFrom_eq {World : Type} (placed : k.Placed)
    (handles : k.Handles b (k.stub (backOf vector)) vector error c addr seen m
      returned) (w : World) :
    returnFrom k.gdtr k.stub (backOf vector) (w, returned) =
      some (w, { c with mem := returned.mem }) := by
  have runs := handles.runs
  have program : (interruptedRegs vector error c).Resumable :=
    interruptedRegs_resumable.mpr
      ⟨runs.flat .ds, runs.flat .cs, runs.notVirtual⟩
  rw [handles.sees.returnFrom_eq handles.esp (handles.returning placed)
    (fun position low below => handles.frame (by omega) below (Or.inr low)) w,
    if_pos program]
  obtain ⟨reg, eip, eflags, seg⟩ :=
    @resume_interruptedRegs c vector error returned.mem
  have sameSeg := seg.mpr fun s notCs => by
    rw [runs.flat, runs.flat, kernelSelector, kernelSelector, if_neg notCs,
      if_neg (by decide)]
  exact congrArg (fun c => some (w, c)) (Cpu.ext reg sameSeg eip eflags rfl)

/-- It can be interrupted again. -/
theorem ready (placed : k.Placed)
    (handles : k.Handles b back vector error c addr seen m returned)
    (intact : k.intact m) : k.Runs b { c with mem := returned.mem } where
  kept position low high := by
    have notOn : ¬ k.OnStack position := fun on =>
      (placed.stack position on).1 (Or.inr (Or.inl ⟨low, high⟩))
    change returned.mem.bytes position = _
    rw [handles.off notOn, handles.spares position (Or.inl ⟨low, high⟩),
      ← handles.runs.kept position low high]
    exact handles.sees.writes.unchanged position fun range =>
      notOn (handles.runs.onStack handles.esp (by have := range.1; omega)
        range.2)
  segments :=
    show FlatTable k.gdtr returned.mem from handles.segments placed
  flat := handles.runs.flat
  notVirtual := handles.runs.notVirtual
  intact := placed.intact m returned.mem (fun _ notOn => handles.off notOn)
    intact
  low := handles.runs.low
  high := handles.runs.high

end Image.Handles

end Seen

/-- The way of an interrupt from the program to its function and back. -/
theorem Image.Handles.taken {m : Memory} {returned : Cpu} (placed : k.Placed)
    (isStub : stubOf vector = some label) (pushes : PushesError vector error)
    (handles : k.Handles b (k.stub (backOf vector)) vector error c addr
      (called k.stub vector 0x08 (k.stub label) error c) m returned)
    {World : Type} (callee : Label → World → Cpu → Option (World × Cpu))
    {w w' : World}
    (calls : callee (handlerOf vector) w
      (called k.stub vector 0x08 (k.stub label) error c) =
        some (w', returned)) :
    ∃ entered,
      interrupt (initIdt k.objects k.stub b).idtr k.gdtr vector error c =
        some entered ∧
      entered.eip = k.stub label ∧
      exec k.gdtr k.stub code callee 25 (code label) w entered =
        some (w', { c with mem := returned.mem }) := by
  have ready := handles.runs.interruptible placed handles.esp
  refine ⟨c.enterGate 0x08 (k.stub label) error, ?_, rfl, ?_⟩
  · rw [interrupt_initIdt placed.idt ready.kept ready.segments ready.ring0,
      isStub, Option.map_some]
  · rw [exec_called handles.esp ready.segments ready.apart isStub pushes callee
      w, calls, Option.bind_some, handles.returnFrom_eq placed w']

/-- What a function returns that leaves the memory as `m` and saves `ebp`. -/
def saveEbp (c : Cpu) (m : Memory) : Cpu :=
  { c with mem := ({ c with mem := m }.push (c.reg .ebp)).mem }

theorem saveEbp_returns (c : Cpu) (m : Memory) (need : 4 ≤ k.stackNeed)
    (low : k.stackNeed ≤ (c.reg .esp).toNat) :
    k.Returns c m (saveEbp c m) where
  esp := rfl
  seg := rfl
  sameTask := rfl
  memory position free _ := by
    obtain ⟨addr, isEsp⟩ : ∃ addr, (c.reg .esp).toNat = addr + 4 :=
      ⟨(c.reg .esp).toNat - 4, by omega⟩
    have start := Frame.start { c with mem := m }
    change Frame _ (c.reg .esp).toNat [] at start
    rw [isEsp] at start
    exact (start.pushAll_writes [c.reg .ebp]).unchanged position fun range => by
      have above := range.1
      have below := range.2
      simp only [List.length_cons, List.length_nil] at below
      omega

end Images

/-! ## An image -/

def exampleImage : Image where
  objects := exampleObjects
  gdt := exampleGdt
  stub := exampleStub
  stackLow := 0x8000
  stackHigh := 0x9000
  stackNeed := 4
  intact _ := True

theorem exampleImage_table (position : Nat) :
    position ∈ tableBytes exampleImage.gdtr ↔
      0x13000 ≤ position ∧ position < 0x13028 := Iff.rfl

theorem exampleImage_objects (position : Nat) :
    position ∈ exampleImage.objects.bytes ↔
      (0x10000 ≤ position ∧ position < 0x10400) ∨
        (0x11000 ≤ position ∧ position < 0x11800) ∨
        (0x12000 ≤ position ∧ position < 0x12006) := Iff.rfl

theorem exampleImage_placed : exampleImage.Placed where
  idt := exampleObjects_placed
  gdt := exampleGdt_placed
  tables position := by
    rw [exampleImage_table, exampleImage_objects]
    omega
  stack position on := by
    have low : 0x8000 ≤ position := on.1
    have high : position < 0x9000 := on.2
    rw [exampleImage_table, exampleImage_objects]
    omega
  intact _ _ _ _ := trivial

/-- The state after `init_idt` is one that this kernel runs in. -/
theorem exampleBoot_runs {p : Processor}
    (loaded : GdtLoaded exampleGdt exampleBoot p) :
    exampleImage.Runs (exampleBoard p.cpu.mem) (afterInitIdt p) where
  kept := (exampleBoot_interruptible loaded).kept
  segments := by
    have segments := (exampleBoot_interruptible loaded).segments
    rw [loaded.gdtr] at segments
    exact segments
  flat := loaded.segments
  notVirtual := by
    change p.cpu.eflags.getLsbD vmBit = false
    rw [loaded.eflags]
    rfl
  intact := trivial
  low := by
    rw [(exampleBoot_interruptible loaded).esp]
    decide
  high := by
    rw [(exampleBoot_interruptible loaded).esp]
    decide

end Hlos.Idt
