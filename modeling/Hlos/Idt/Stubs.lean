import Hlos.Gdt.Gdt

/-!
# `idt/idt_s.s`

Every vector has a stub that brings the stack into one shape and jumps to one
of two common stubs.  These save the registers as a `pt_regs`, call a C function
with its address and return to what was interrupted.
-/

namespace Hlos.Idt

open Hlos.Lib Hlos.Lib.X86 Hlos.Gdt

/-- The labels of the file, the two C functions it calls and the places behind
these calls. -/
inductive Label where
  | isr (n : BitVec 8)
  | irq (n : BitVec 8)
  | isrCommonStub
  | irqCommonStub
  | isrReturn
  | irqReturn
  | isrHandler
  | irqHandler
deriving DecidableEq, Repr

def isrNoErrCode (n : BitVec 8) : List (Instr Label) :=
  [.cli, .push 0, .push (n.setWidth 32), .jmp .isrCommonStub]

def isrErrCode (n : BitVec 8) : List (Instr Label) :=
  [.cli, .push (n.setWidth 32), .jmp .isrCommonStub]

/-- The macro `IRQ`, with the number of the line and its vector. -/
def irqStub (vector : BitVec 8) : List (Instr Label) :=
  [.cli, .push 0, .push (vector.setWidth 32), .jmp .irqCommonStub]

/-- The vectors for which the processor pushes an error code. -/
def errCodeVectors : List (BitVec 8) := [8, 10, 11, 12, 13, 14, 17]

/-- The vectors of the stubs made by `ISR_NOERRCODE`. -/
def noErrCodeVectors : List (BitVec 8) :=
  [0, 1, 2, 3, 4, 5, 6, 7, 9, 15, 16, 18, 19, 20, 21, 22, 23, 24, 25, 26, 27,
    28, 29, 30, 31, 255]

/-- The common stubs from their calls on. -/
def returnStub : List (Instr Label) :=
  [.addEsp 4,
    .popReg .ebx, .movToSeg .ds .ebx, .movToSeg .es .ebx,
    .movToSeg .fs .ebx, .movToSeg .gs .ebx, .movToSeg .ss .ebx,
    .popa, .addEsp 8, .iret]

/-- The common stubs, which differ in the function they call. -/
def commonStub (handler back : Label) : List (Instr Label) :=
  [.pusha, .movFromSeg .eax .ds, .pushReg .eax,
    .movLow .eax 0x10, .movToSeg .ds .eax, .movToSeg .es .eax,
    .movToSeg .fs .eax, .movToSeg .gs .eax, .movToSeg .ss .eax,
    .pushReg .esp, .call handler back] ++ returnStub

def code : Label → List (Instr Label)
  | .isr n =>
      if n ∈ errCodeVectors then isrErrCode n
      else if n ∈ noErrCodeVectors then isrNoErrCode n
      else []
  | .irq n => if n.toNat < 16 then irqStub (n + 32) else []
  | .isrCommonStub => commonStub .isrHandler .isrReturn
  | .irqCommonStub => commonStub .irqHandler .irqReturn
  | .isrReturn => returnStub
  | .irqReturn => returnStub
  | .isrHandler => []
  | .irqHandler => []

/-- The stub that takes the interrupts of a vector. -/
def stubOf (vector : BitVec 8) : Option Label :=
  if vector.toNat < 32 ∨ vector = 255 then some (.isr vector)
  else if vector.toNat < 48 then some (.irq (vector - 32))
  else none

/-- The C function that the stub of a vector calls. -/
def handlerOf (vector : BitVec 8) : Label :=
  if vector.toNat < 32 ∨ vector = 255 then .isrHandler else .irqHandler

/-- The processor pushes an error code for these vectors and for no other. -/
def PushesError (vector : BitVec 8) (error : Option (BitVec 32)) : Prop :=
  error.isSome ↔ vector ∈ errCodeVectors

/-- The place to which this function returns. -/
def backOf (vector : BitVec 8) : Label :=
  if vector.toNat < 32 ∨ vector = 255 then .isrReturn else .irqReturn

/-- `pt_regs`. -/
structure PtRegs where
  ds : BitVec 32
  edi : BitVec 32
  esi : BitVec 32
  ebp : BitVec 32
  esp : BitVec 32
  ebx : BitVec 32
  edx : BitVec 32
  ecx : BitVec 32
  eax : BitVec 32
  int_no : BitVec 32
  err_code : BitVec 32
  eip : BitVec 32
  cs : BitVec 32
  eflags : BitVec 32
  useresp : BitVec 32
  ss : BitVec 32
deriving DecidableEq, Repr

/-- The structure at an address. -/
def ptRegsAt (addr : Nat) (m : Memory) : PtRegs where
  ds := m.load32 addr
  edi := m.load32 (addr + 4)
  esi := m.load32 (addr + 8)
  ebp := m.load32 (addr + 12)
  esp := m.load32 (addr + 16)
  ebx := m.load32 (addr + 20)
  edx := m.load32 (addr + 24)
  ecx := m.load32 (addr + 28)
  eax := m.load32 (addr + 32)
  int_no := m.load32 (addr + 36)
  err_code := m.load32 (addr + 40)
  eip := m.load32 (addr + 44)
  cs := m.load32 (addr + 48)
  eflags := m.load32 (addr + 52)
  useresp := m.load32 (addr + 56)
  ss := m.load32 (addr + 60)

/-! ## The common stub in two halves -/

section Halves

variable (gdtr : TableRegister)

/-- Load the five data segment registers from the low half of a register. -/
def loadSegments (r : Reg) (c : Cpu) : Option Cpu := do
  let c ← movToSeg gdtr .ds r c
  let c ← movToSeg gdtr .es r c
  let c ← movToSeg gdtr .fs r c
  let c ← movToSeg gdtr .gs r c
  movToSeg gdtr .ss r c

/-- The registers and the data segment on the stack. -/
def saveRegisters (c : Cpu) : Cpu :=
  let c := c.pusha
  let c := c.setLow .eax (c.seg .ds)
  c.push (c.reg .eax)

/-- The common stub up to its call. -/
def saveContext (c : Cpu) : Option Cpu := do
  let c ← loadSegments gdtr .eax ((saveRegisters c).setLow .eax 0x10)
  return c.push (c.reg .esp)

/-- The common stub behind its call. -/
def restoreContext (c : Cpu) : Option Cpu := do
  let c ← loadSegments gdtr .ebx ((c.addEsp 4).popReg .ebx)
  iret gdtr (c.popa.addEsp 8)

/-- From the `ret` of a handler on. -/
def returnFrom {World : Type} (address : Label → BitVec 32) (back : Label)
    (returned : World × Cpu) : Option (World × Cpu) := do
  let c ← ret (address back) returned.2
  let c ← restoreContext gdtr c
  return (returned.1, c)

theorem exec_commonStub {World : Type} (address : Label → BitVec 32)
    (callee : Label → World → Cpu → Option (World × Cpu))
    (handler back : Label) (fuel : Nat) (w : World) (c : Cpu) :
    exec gdtr address code callee (fuel + 21) (commonStub handler back) w c =
      (saveContext gdtr c).bind fun c =>
        (callee handler w (c.push (address back))).bind
          (returnFrom gdtr address back) := by
  have back_eq : returnFrom gdtr address back = fun returned : World × Cpu =>
      (ret (address back) returned.2).bind fun c =>
        (restoreContext gdtr c).bind fun c => some (returned.1, c) := rfl
  simp only [commonStub, returnStub, List.cons_append, List.nil_append, exec,
    saveContext, loadSegments, saveRegisters, back_eq, restoreContext,
    Option.bind_eq_bind, Option.bind_assoc, Option.pure_def, Option.bind_some]

end Halves

/-- The state with the data segments of the kernel. -/
def kernelData (c : Cpu) : Cpu :=
  let c := c.setSeg .ds 0x10
  let c := c.setSeg .es 0x10
  let c := c.setSeg .fs 0x10
  let c := c.setSeg .gs 0x10
  c.setSeg .ss 0x10

theorem kernelData_seg (c : Cpu) (s : Seg) :
    (kernelData c).seg s = if s = .cs then c.seg .cs else 0x10 := by
  cases s <;> simp [kernelData]

section Segments

variable {gdtr : TableRegister} {c c' : Cpu} {r : Reg}

theorem movToSeg_kernel (table : FlatTable gdtr c.mem) (ring0 : c.cpl = 0)
    (isKernel : (c.reg r).setWidth 16 = (0x10 : BitVec 16)) {s : Seg}
    (notCs : s ≠ .cs) : movToSeg gdtr s r c = some (c.setSeg s 0x10) := by
  have load := table.loadKernel ring0 s
  rw [kernelSelector, if_neg notCs] at load
  rw [movToSeg, if_neg notCs, isKernel, load]

/-- The kernel's data segment is loaded into all five registers. -/
theorem loadSegments_kernel (table : FlatTable gdtr c.mem)
    (ring0 : c.cpl = 0)
    (isKernel : (c.reg r).setWidth 16 = (0x10 : BitVec 16)) :
    loadSegments gdtr r c = some (kernelData c) := by
  have load : ∀ (c' : Cpu) (s : Seg), c'.mem = c.mem → c'.reg = c.reg →
      c'.cpl = 0 → s ≠ .cs → movToSeg gdtr s r c' = some (c'.setSeg s 0x10) :=
    fun c' s sameMem sameReg level notCs =>
      movToSeg_kernel (sameMem ▸ table) level (sameReg ▸ isKernel) notCs
  refine Option.bind_eq_some_iff.mpr
    ⟨_, load _ .ds rfl rfl ring0 (by decide), ?_⟩
  refine Option.bind_eq_some_iff.mpr
    ⟨_, load _ .es rfl rfl ring0 (by decide), ?_⟩
  refine Option.bind_eq_some_iff.mpr
    ⟨_, load _ .fs rfl rfl ring0 (by decide), ?_⟩
  refine Option.bind_eq_some_iff.mpr
    ⟨_, load _ .gs rfl rfl ring0 (by decide), ?_⟩
  exact load _ .ss rfl rfl ring0 (by decide)

/-- A load of a data segment changes no general register. -/
theorem movToSeg_kept {s : Seg} (table : FlatTable gdtr c.mem)
    (run : movToSeg gdtr s r c = some c') :
    FlatTable gdtr c'.mem ∧ c'.reg = c.reg := by
  rw [movToSeg] at run
  split_ifs at run
  exact ⟨table.loaded run, loadSeg_reg run⟩

/-- No other selector can be loaded into all of them. -/
theorem loadSegments_selector (table : FlatTable gdtr c.mem)
    (run : loadSegments gdtr r c = some c') :
    (c.reg r).setWidth 16 = (0x10 : BitVec 16) := by
  obtain ⟨c₁, ds, run⟩ := Option.bind_eq_some_iff.mp run
  obtain ⟨c₂, es, run⟩ := Option.bind_eq_some_iff.mp run
  obtain ⟨c₃, fs, run⟩ := Option.bind_eq_some_iff.mp run
  obtain ⟨c₄, gs, ss⟩ := Option.bind_eq_some_iff.mp run
  obtain ⟨table₁, reg₁⟩ := movToSeg_kept table ds
  obtain ⟨table₂, reg₂⟩ := movToSeg_kept table₁ es
  obtain ⟨table₃, reg₃⟩ := movToSeg_kept table₂ fs
  obtain ⟨table₄, reg₄⟩ := movToSeg_kept table₃ gs
  rw [movToSeg, if_neg (by decide)] at ss
  have isKernel := table₄.selector_eq (Or.inr rfl) ss
  rw [reg₄, reg₃, reg₂, reg₁] at isKernel
  exact isKernel

end Segments

/-- The words that the common stub pushes before its call. -/
def contextWords (c : Cpu) : List (BitVec 32) :=
  [c.reg .eax, c.reg .ecx, c.reg .edx, c.reg .ebx, c.reg .esp, c.reg .ebp,
    c.reg .esi, c.reg .edi, (c.reg .eax).extractLsb' 16 16 ++ c.seg .ds]

theorem saveRegisters_pushed {start c : Cpu} {values : List (BitVec 32)}
    (pushed : Pushed start values c) :
    Pushed start (values ++ contextWords c) (saveRegisters c) := by
  have isWord : (c.pusha.setLow .eax (c.seg .ds)).reg .eax =
      (c.reg .eax).extractLsb' 16 16 ++ c.seg .ds := by
    rw [Cpu.setLow_self, Cpu.pusha_reg c (by simp)]
  have saved := (pushed.pusha.keep (c.pusha.setLow .eax (c.seg .ds))
    (by simp) rfl).push ((c.pusha.setLow .eax (c.seg .ds)).reg .eax)
  rw [List.append_assoc, isWord] at saved
  rw [saveRegisters, Cpu.pusha_seg, isWord]
  exact saved

theorem saveRegisters_esp (c : Cpu) :
    (saveRegisters c).reg .esp = c.reg .esp - 36 := by
  have steps : (saveRegisters c).reg .esp =
      c.reg .esp - 4 - 4 - 4 - 4 - 4 - 4 - 4 - 4 - 4 := by
    simp [saveRegisters, Cpu.pusha]
  rw [steps]
  bv_omega

/-- The state in which the common stub calls the handler. -/
def savedContext (c : Cpu) : Cpu :=
  let c := kernelData ((saveRegisters c).setLow .eax 0x10)
  c.push (c.reg .esp)

theorem saveContext_eq {gdtr : TableRegister} {c : Cpu}
    (table : FlatTable gdtr (saveRegisters c).mem) (ring0 : c.cpl = 0) :
    saveContext gdtr c = some (savedContext c) := by
  have loads : loadSegments gdtr .eax ((saveRegisters c).setLow .eax 0x10) =
      some (kernelData ((saveRegisters c).setLow .eax 0x10)) :=
    loadSegments_kernel table ring0 (Cpu.setLow_low _ _ _)
  rw [saveContext, loads]
  rfl

theorem savedContext_pushed {start c : Cpu} {values : List (BitVec 32)}
    (pushed : Pushed start values c) :
    Pushed start (values ++ contextWords c ++ [c.reg .esp - 36])
      (savedContext c) := by
  have saved := (saveRegisters_pushed pushed).keep
    (kernelData ((saveRegisters c).setLow .eax 0x10))
    (by simp [kernelData]) rfl
  have self : (kernelData ((saveRegisters c).setLow .eax 0x10)).reg .esp =
      c.reg .esp - 36 := by
    simp [kernelData, saveRegisters_esp]
  rw [savedContext, self]
  exact saved.push (c.reg .esp - 36)

theorem savedContext_seg (c : Cpu) (s : Seg) :
    (savedContext c).seg s = if s = .cs then c.seg .cs else 0x10 := by
  rw [savedContext, Cpu.push_seg, kernelData_seg]
  rfl

theorem savedContext_eflags (c : Cpu) :
    (savedContext c).eflags = c.eflags := rfl

/-! ## From the vector to the common stub -/

/-- The stub of a vector up to its jump. -/
def enterStub (vector : BitVec 8) (error : Option (BitVec 32)) (c : Cpu) :
    Cpu :=
  match error with
  | some _ => c.cli.push (vector.setWidth 32)
  | none => (c.cli.push 0).push (vector.setWidth 32)

/-- The words pushed before the common stub runs. -/
def entryWords (vector : BitVec 8) (error : Option (BitVec 32)) (c : Cpu) :
    List (BitVec 32) :=
  [c.eflags, (c.seg .cs).setWidth 32, c.eip, error.getD 0, vector.setWidth 32]

theorem enterStub_pushed (vector : BitVec 8) (selector : BitVec 16)
    (offset : BitVec 32) (error : Option (BitVec 32)) (c : Cpu) :
    Pushed c (entryWords vector error c)
      (enterStub vector error (c.enterGate selector offset error)) := by
  have entered := (((Pushed.refl c).push c.eflags).push
    ((c.seg .cs).setWidth 32)).push c.eip
  cases error with
  | none =>
      have stubbed := ((entered.keep
        (c.enterGate selector offset none).cli rfl rfl).push 0).push
          (vector.setWidth 32)
      exact stubbed
  | some error =>
      have stubbed := ((entered.push error).keep
        (c.enterGate selector offset (some error)).cli rfl rfl).push
          (vector.setWidth 32)
      exact stubbed

theorem enterStub_reg (vector : BitVec 8) (selector : BitVec 16)
    (offset : BitVec 32) (error : Option (BitVec 32)) (c : Cpu) {r : Reg}
    (different : r ≠ .esp) :
    (enterStub vector error (c.enterGate selector offset error)).reg r =
      c.reg r := by
  cases error <;> simp [enterStub, Cpu.enterGate, Cpu.cli, different]

theorem enterStub_esp (vector : BitVec 8) (selector : BitVec 16)
    (offset : BitVec 32) (error : Option (BitVec 32)) (c : Cpu) :
    (enterStub vector error (c.enterGate selector offset error)).reg .esp =
      c.reg .esp - 20 := by
  have steps :
      (enterStub vector error (c.enterGate selector offset error)).reg .esp =
        c.reg .esp - 4 - 4 - 4 - 4 - 4 := by
    cases error <;> simp [enterStub, Cpu.enterGate, Cpu.cli]
  rw [steps]
  bv_omega

theorem enterStub_seg (vector : BitVec 8) (selector : BitVec 16)
    (offset : BitVec 32) (error : Option (BitVec 32)) (c : Cpu) :
    (enterStub vector error (c.enterGate selector offset error)).seg =
      Function.update c.seg .cs selector := by
  cases error <;> rfl

/-! ## Back to what was interrupted -/

/-- The state that a `pt_regs` describes.  The stack pointer is not read from
the structure. -/
def PtRegs.resume (regs : PtRegs) (esp : BitVec 32) (m : Memory) : Cpu where
  reg
    | .eax => regs.eax
    | .ecx => regs.ecx
    | .edx => regs.edx
    | .ebx => regs.ebx
    | .esp => esp
    | .ebp => regs.ebp
    | .esi => regs.esi
    | .edi => regs.edi
  seg
    | .cs => regs.cs.setWidth 16
    | _ => regs.ds.setWidth 16
  eip := regs.eip
  eflags := regs.eflags
  mem := m

/-- The common stub can load the data segment into all registers, the stack
segment included, and `iret` stays in the kernel's code segment. -/
def PtRegs.Resumable (regs : PtRegs) : Prop :=
  regs.ds.setWidth 16 = (0x10 : BitVec 16) ∧
    regs.cs.setWidth 16 = (0x08 : BitVec 16) ∧
    regs.eflags.getLsbD vmBit = false

instance (regs : PtRegs) : Decidable regs.Resumable :=
  inferInstanceAs (Decidable (_ ∧ _ ∧ _))

section Restore

variable {gdtr : TableRegister} {c : Cpu} {addr : Nat}

/-- The words of a structure on the stack, behind the argument of a call. -/
theorem ptRegs_frame (isEsp : (c.reg .esp).toNat = addr)
    (room : addr + 60 < 2 ^ 32) :
    let regs := ptRegsAt (addr + 4) c.mem
    Frame c addr
      [c.mem.load32 addr, regs.ds, regs.edi, regs.esi, regs.ebp, regs.esp,
        regs.ebx, regs.edx, regs.ecx, regs.eax, regs.int_no, regs.err_code,
        regs.eip, regs.cs, regs.eflags] := by
  subst isEsp
  exact Frame.read 15 room

/-- The state before `iret`. -/
def beforeIret (c : Cpu) : Cpu :=
  (kernelData ((c.addEsp 4).popReg .ebx)).popa.addEsp 8

theorem savedSegment (isEsp : (c.reg .esp).toNat = addr)
    (room : addr + 60 < 2 ^ 32) :
    ((c.addEsp 4).popReg .ebx).reg .ebx = (ptRegsAt (addr + 4) c.mem).ds := by
  have atSegment := (ptRegs_frame isEsp room).addEsp (n := 4)
    [c.mem.load32 addr] rfl
  rw [Cpu.popReg_self]
  exact atSegment.top

/-- What is on the stack before `iret`, and which registers are restored. -/
theorem beforeIret_frame (isEsp : (c.reg .esp).toNat = addr)
    (room : addr + 60 < 2 ^ 32) :
    let regs := ptRegsAt (addr + 4) c.mem
    Frame (beforeIret c) (addr + 48) [regs.eip, regs.cs, regs.eflags] ∧
      ∀ r, r ≠ .esp → (beforeIret c).reg r = (regs.resume 0 c.mem).reg r := by
  have atSegment := (ptRegs_frame isEsp room).addEsp (n := 4)
    [c.mem.load32 addr] rfl
  have atPopa := (atSegment.popReg (r := .ebx) (by simp)).keep
    (kernelData ((c.addEsp 4).popReg .ebx)) rfl rfl
  obtain ⟨afterPopa, edi, esi, ebp, ebx, edx, ecx, eax⟩ := atPopa.popa
  have atIret := afterPopa.addEsp (n := 8)
    [(ptRegsAt (addr + 4) c.mem).int_no,
      (ptRegsAt (addr + 4) c.mem).err_code] rfl
  refine ⟨atIret, ?_⟩
  intro r different
  rw [beforeIret, Cpu.addEsp_reg _ _ different]
  cases r with
  | eax => exact eax
  | ecx => exact ecx
  | edx => exact edx
  | ebx => exact ebx
  | esp => exact absurd rfl different
  | ebp => exact ebp
  | esi => exact esi
  | edi => exact edi

/-- The code segment is loaded back. -/
theorem beforeIret_iret (isEsp : (c.reg .esp).toNat = addr)
    (room : addr + 60 < 2 ^ 32) (table : FlatTable gdtr c.mem)
    (ring0 : c.cpl = 0) (sameTask : c.eflags.getLsbD ntBit = false) :
    let regs := ptRegsAt (addr + 4) c.mem
    iret gdtr (beforeIret c) =
      if regs.cs.setWidth 16 = (0x08 : BitVec 16) ∧
          regs.eflags.getLsbD vmBit = false then
        some { (beforeIret c).drop.drop.drop.setSeg .cs 0x08 with
          eip := regs.eip, eflags := regs.eflags }
      else none := by
  obtain ⟨frame, _⟩ := beforeIret_frame isEsp room
  have task : (beforeIret c).eflags.getLsbD ntBit = false := by
    change (Cpu.addFlags _ _ (Cpu.addFlags _ _ c.eflags)).getLsbD ntBit = _
    rw [addFlags_nt, addFlags_nt, sameTask]
  have level : (beforeIret c).drop.drop.drop.cpl = 0 := by
    change ((kernelData ((c.addEsp 4).popReg .ebx)).seg .cs).toNat % 4 = 0
    rw [kernelData_seg]
    exact ring0
  have tableHere : FlatTable gdtr (beforeIret c).drop.drop.drop.mem := table
  have load := tableHere.loadKernel level .cs
  intro regs
  rw [frame.iret_eq task]
  by_cases isCode : regs.cs.setWidth 16 = (0x08 : BitVec 16)
  · by_cases isVm : regs.eflags.getLsbD vmBit = true
    · have notBoth : ¬ (regs.cs.setWidth 16 = (0x08 : BitVec 16) ∧
          regs.eflags.getLsbD vmBit = false) := by
        simp [isVm]
      rw [if_neg notBoth]
      exact if_pos isVm
    · have both : regs.cs.setWidth 16 = (0x08 : BitVec 16) ∧
          regs.eflags.getLsbD vmBit = false := ⟨isCode, by simpa using isVm⟩
      rw [if_pos both]
      refine (if_neg isVm).trans ?_
      change (loadSeg _ _ (regs.cs.setWidth 16) _).map _ = _
      rw [isCode]
      exact congrArg _ load
  · have notBoth : ¬ (regs.cs.setWidth 16 = (0x08 : BitVec 16) ∧
        regs.eflags.getLsbD vmBit = false) := fun both => isCode both.1
    rw [if_neg notBoth]
    split_ifs
    · rfl
    · rw [Option.map_eq_none_iff, Option.eq_none_iff_forall_ne_some]
      intro loaded run
      exact isCode (tableHere.selector_eq (Or.inl rfl) run)

/-- The stub returns to what the structure describes, or it faults. -/
theorem restoreContext_eq (isEsp : (c.reg .esp).toNat = addr)
    (room : addr + 60 < 2 ^ 32) (table : FlatTable gdtr c.mem)
    (ring0 : c.cpl = 0) (sameTask : c.eflags.getLsbD ntBit = false) :
    let regs := ptRegsAt (addr + 4) c.mem
    restoreContext gdtr c =
      if regs.Resumable then some (regs.resume (c.reg .esp + 60) c.mem)
      else none := by
  intro regs
  have isSaved := savedSegment isEsp room
  obtain ⟨frame, sameRegs⟩ := beforeIret_frame isEsp room
  by_cases isData : regs.ds.setWidth 16 = (0x10 : BitVec 16)
  · have loads : loadSegments gdtr .ebx ((c.addEsp 4).popReg .ebx) =
        some (kernelData ((c.addEsp 4).popReg .ebx)) :=
      loadSegments_kernel table ring0 (by rw [isSaved]; exact isData)
    have steps : restoreContext gdtr c = iret gdtr (beforeIret c) := by
      rw [restoreContext, loads]
      rfl
    rw [steps, beforeIret_iret isEsp room table ring0 sameTask]
    by_cases resumable : regs.Resumable
    · rw [if_pos resumable, if_pos resumable.2]
      congr 1
      apply Cpu.ext
      · funext r
        by_cases isStack : r = .esp
        · subst isStack
          apply BitVec.eq_of_toNat_eq
          refine frame.drop.drop.drop.esp.trans ?_
          change _ = (c.reg .esp + 60).toNat
          rw [BitVec.toNat_add, isEsp]
          simp only [BitVec.reduceToNat]
          omega
        · change (beforeIret c).drop.drop.drop.reg r = _
          rw [Cpu.drop_reg _ isStack, Cpu.drop_reg _ isStack,
            Cpu.drop_reg _ isStack, sameRegs r isStack]
          cases r <;> first | rfl | exact absurd rfl isStack
      · funext s
        obtain ⟨_, isCode, _⟩ := resumable
        change ((beforeIret c).drop.drop.drop.setSeg .cs 0x08).seg s = _
        have segs : ∀ s, s ≠ .cs →
            ((beforeIret c).drop.drop.drop.setSeg .cs 0x08).seg s = 0x10 := by
          intro s notCs
          rw [Cpu.setSeg_of_ne _ _ notCs]
          exact (kernelData_seg _ s).trans (if_neg notCs)
        cases s with
        | cs => exact (Cpu.setSeg_self _ _ _).trans isCode.symm
        | ds => exact (segs .ds (by decide)).trans isData.symm
        | es => exact (segs .es (by decide)).trans isData.symm
        | fs => exact (segs .fs (by decide)).trans isData.symm
        | gs => exact (segs .gs (by decide)).trans isData.symm
        | ss => exact (segs .ss (by decide)).trans isData.symm
      · rfl
      · rfl
      · rfl
    · rw [if_neg resumable, if_neg fun rest => resumable ⟨isData, rest⟩]
  · rw [if_neg fun resumable => isData resumable.1]
    refine Option.bind_eq_none_iff.mpr fun loaded run => ?_
    have isKernel := loadSegments_selector
      (show FlatTable gdtr ((c.addEsp 4).popReg .ebx).mem from table) run
    rw [isSaved] at isKernel
    exact absurd isKernel isData

end Restore

end Hlos.Idt
