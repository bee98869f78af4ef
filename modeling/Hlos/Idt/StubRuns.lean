import Hlos.Idt.Stubs

/-!
# From the gate to the handler

The whole stub of a vector: what it has pushed when its handler begins, and what
the handler finds.
-/

namespace Hlos.Idt

open Hlos.Lib Hlos.Lib.X86 Hlos.Gdt

/-- The state in which the handler of a vector begins. -/
def called (address : Label → BitVec 32) (vector : BitVec 8)
    (selector : BitVec 16) (offset : BitVec 32) (error : Option (BitVec 32))
    (c : Cpu) : Cpu :=
  (savedContext (enterStub vector error
    (c.enterGate selector offset error))).push (address (backOf vector))

theorem isr_vectors :
    ∀ vector : BitVec 8, vector.toNat < 32 ∨ vector = 255 →
      vector ∉ errCodeVectors → vector ∈ noErrCodeVectors := by
  decide

theorem errCodeVectors_lt :
    ∀ vector : BitVec 8, vector ∈ errCodeVectors → vector.toNat < 32 := by
  decide

theorem irq_vectors :
    ∀ vector : BitVec 8, ¬ (vector.toNat < 32 ∨ vector = 255) →
      vector.toNat < 48 →
        (vector - 32).toNat < 16 ∧ vector - 32 + 32 = vector := by
  decide

/-- The stub of a vector saves the context, calls the handler and returns. -/
theorem exec_stub {World : Type} {vector : BitVec 8} {label : Label}
    {error : Option (BitVec 32)} (gdtr : TableRegister)
    (address : Label → BitVec 32)
    (callee : Label → World → Cpu → Option (World × Cpu)) (fuel : Nat)
    (selector : BitVec 16) (offset : BitVec 32) (w : World) (c : Cpu)
    (isStub : stubOf vector = some label) (pushes : PushesError vector error) :
    exec gdtr address code callee (fuel + 25) (code label) w
        (c.enterGate selector offset error) =
      (saveContext gdtr (enterStub vector error
        (c.enterGate selector offset error))).bind fun c =>
          (callee (handlerOf vector) w
            (c.push (address (backOf vector)))).bind
              (returnFrom gdtr address (backOf vector)) := by
  rw [stubOf] at isStub
  rw [handlerOf, backOf]
  by_cases isException : vector.toNat < 32 ∨ vector = 255
  · rw [if_pos isException, Option.some.injEq] at isStub
    subst isStub
    rw [if_pos isException, if_pos isException, code]
    cases error with
    | none =>
        have noError : vector ∉ errCodeVectors := by
          intro member
          cases pushes.mpr member
        rw [if_neg noError, if_pos (isr_vectors vector isException noError)]
        exact exec_commonStub gdtr address callee .isrHandler .isrReturn fuel w
          _
    | some error =>
        rw [if_pos (pushes.mp rfl)]
        exact exec_commonStub gdtr address callee .isrHandler .isrReturn
          (fuel + 1) w _
  · rw [if_neg isException] at isStub
    split_ifs at isStub with isLine
    · rw [Option.some.injEq] at isStub
      subst isStub
      obtain ⟨small, sameVector⟩ := irq_vectors vector isException isLine
      rw [if_neg isException, if_neg isException, code, if_pos small,
        sameVector]
      cases error with
      | none =>
          exact exec_commonStub gdtr address callee .irqHandler .irqReturn fuel
            w _
      | some error =>
          exact absurd (Or.inl (errCodeVectors_lt vector (pushes.mp rfl)))
            isException

/-- What the handler of a vector reads through its argument.  Without a change
of privilege nothing is pushed for `useresp` and `ss`, which show the two words
on top of the interrupted stack. -/
def interruptedRegs (vector : BitVec 8) (error : Option (BitVec 32))
    (c : Cpu) : PtRegs where
  ds := (c.reg .eax).extractLsb' 16 16 ++ c.seg .ds
  edi := c.reg .edi
  esi := c.reg .esi
  ebp := c.reg .ebp
  esp := c.reg .esp - 20
  ebx := c.reg .ebx
  edx := c.reg .edx
  ecx := c.reg .ecx
  eax := c.reg .eax
  int_no := vector.setWidth 32
  err_code := error.getD 0
  eip := c.eip
  cs := (c.seg .cs).setWidth 32
  eflags := c.eflags
  useresp := c.mem.load32 (c.reg .esp).toNat
  ss := c.mem.load32 ((c.reg .esp).toNat + 4)

section Called

variable {gdtr : TableRegister} {address : Label → BitVec 32}
variable {vector : BitVec 8} {selector : BitVec 16} {offset : BitVec 32}
variable {error : Option (BitVec 32)} {c : Cpu} {addr : Nat}

/-- The words from the interrupt to the saved data segment. -/
theorem saved_pushed :
    Pushed c
      [c.eflags, (c.seg .cs).setWidth 32, c.eip, error.getD 0,
        vector.setWidth 32, c.reg .eax, c.reg .ecx, c.reg .edx, c.reg .ebx,
        c.reg .esp - 20, c.reg .ebp, c.reg .esi, c.reg .edi,
        (c.reg .eax).extractLsb' 16 16 ++ c.seg .ds]
      (saveRegisters (enterStub vector error
        (c.enterGate selector offset error))) := by
  have saved := saveRegisters_pushed (enterStub_pushed vector selector offset
    error c)
  have sameDs : Function.update c.seg .cs selector .ds = c.seg .ds :=
    Function.update_of_ne (by simp) _ _
  simpa [contextWords, entryWords, enterStub_reg, enterStub_esp,
    enterStub_seg, sameDs] using saved

/-- Everything that is pushed from the interrupt to the call. -/
theorem called_pushed :
    Pushed c
      [c.eflags, (c.seg .cs).setWidth 32, c.eip, error.getD 0,
        vector.setWidth 32, c.reg .eax, c.reg .ecx, c.reg .edx, c.reg .ebx,
        c.reg .esp - 20, c.reg .ebp, c.reg .esi, c.reg .edi,
        (c.reg .eax).extractLsb' 16 16 ++ c.seg .ds, c.reg .esp - 56,
        address (backOf vector)]
      (called address vector selector offset error c) := by
  have saved := (savedContext_pushed (enterStub_pushed vector selector offset
    error c)).push (address (backOf vector))
  have down : c.reg .esp - 20#32 - 36#32 = c.reg .esp - 56#32 := by bv_omega
  have sameDs : Function.update c.seg .cs selector .ds = c.seg .ds :=
    Function.update_of_ne (by simp) _ _
  simpa [called, contextWords, entryWords, enterStub_reg, enterStub_esp,
    enterStub_seg, down, sameDs] using saved

theorem called_frame (isEsp : (c.reg .esp).toNat = addr + 64) :
    Frame (called address vector selector offset error c) addr
      [address (backOf vector), c.reg .esp - 56,
        (c.reg .eax).extractLsb' 16 16 ++ c.seg .ds,
        c.reg .edi, c.reg .esi, c.reg .ebp, c.reg .esp - 20, c.reg .ebx,
        c.reg .edx, c.reg .ecx, c.reg .eax, vector.setWidth 32,
        error.getD 0, c.eip, (c.seg .cs).setWidth 32, c.eflags] := by
  have start := Frame.start c
  rw [isEsp] at start
  have pushed := @called_pushed address vector selector offset error c
  exact (start.pushAll [_, _, _, _, _, _, _, _, _, _, _, _, _, _, _, _]).keep _
    pushed.esp pushed.mem

theorem called_writes (isEsp : (c.reg .esp).toNat = addr + 64) :
    Memory.WritesWithin
      {position | addr ≤ position ∧ position < addr + 64}
      c.mem (called address vector selector offset error c).mem := by
  have start := Frame.start c
  rw [isEsp] at start
  rw [(@called_pushed address vector selector offset error c).mem]
  exact start.pushAll_writes [_, _, _, _, _, _, _, _, _, _, _, _, _, _, _, _]

theorem called_regs (isEsp : (c.reg .esp).toNat = addr + 64) :
    ptRegsAt (addr + 8)
        (called address vector selector offset error c).mem =
      interruptedRegs vector error c := by
  have word := (@called_frame address vector selector offset error c addr
    isEsp).word
  have writes := @called_writes address vector selector offset error c addr
    isEsp
  have untouched (above : Nat) (outside : addr + 64 ≤ above) :
      (called address vector selector offset error c).mem.load32 above =
        c.mem.load32 above :=
    writes.load32_eq fun position inside range =>
      absurd range.2 (by omega)
  have useresp := untouched (addr + 64) (by omega)
  have ss := untouched (addr + 68) (by omega)
  rw [interruptedRegs, isEsp, ptRegsAt]
  rw [PtRegs.mk.injEq]
  exact ⟨word 2 (by simp), word 3 (by simp), word 4 (by simp),
    word 5 (by simp), word 6 (by simp), word 7 (by simp), word 8 (by simp),
    word 9 (by simp), word 10 (by simp), word 11 (by simp), word 12 (by simp),
    word 13 (by simp), word 14 (by simp), word 15 (by simp), useresp, ss⟩

theorem called_seg (s : Seg) :
    (called address vector selector offset error c).seg s =
      if s = .cs then selector else 0x10 := by
  rw [called, Cpu.push_seg, savedContext_seg, enterStub_seg,
    Function.update_self]

/-- Interrupts are off while the handler runs. -/
theorem called_eflags :
    (called address vector selector offset error c).eflags &&&
      Cpu.ifMask = 0 := by
  have masked : ∀ flags : BitVec 32,
      flags &&& ~~~ 0x34300#32 &&& ~~~ Cpu.ifMask &&& Cpu.ifMask = 0 := by
    intro flags
    rw [BitVec.and_assoc]
    simp [Cpu.ifMask]
  rw [called, Cpu.push_eflags, savedContext_eflags]
  cases error <;> exact masked c.eflags

/-- The gate clears the nested-task flag. -/
theorem called_nt :
    (called address vector selector offset error c).eflags.getLsbD ntBit =
      false := by
  have cleared : ∀ flags : BitVec 32,
      (flags &&& ~~~ 0x34300#32 &&& ~~~ Cpu.ifMask).getLsbD ntBit = false := by
    intro flags
    simp [Cpu.ifMask, ntBit]
  rw [called, Cpu.push_eflags, savedContext_eflags]
  cases error <;> exact cleared c.eflags

/-- The kernel's data segment can still be loaded, since the stack lies apart
from the descriptor table. -/
theorem saveContext_called (isEsp : (c.reg .esp).toNat = addr + 64)
    (table : FlatTable gdtr c.mem)
    (apart : ∀ position, addr ≤ position → position < addr + 64 →
      position ∉ tableBytes gdtr)
    (ring0 : selector.toNat % 4 = 0) :
    saveContext gdtr
        (enterStub vector error (c.enterGate selector offset error)) =
      some (savedContext
        (enterStub vector error (c.enterGate selector offset error))) := by
  have start := Frame.start c
  rw [isEsp] at start
  have writes := @Frame.pushAll_writes c (addr + 8) []
    [c.eflags, (c.seg .cs).setWidth 32, c.eip, error.getD 0,
      vector.setWidth 32, c.reg .eax, c.reg .ecx, c.reg .edx, c.reg .ebx,
      c.reg .esp - 20, c.reg .ebp, c.reg .esi, c.reg .edi,
      (c.reg .eax).extractLsb' 16 16 ++ c.seg .ds] start
  rw [← (@saved_pushed vector selector offset error c).mem] at writes
  apply saveContext_eq
  · apply table.congr
    intro position inTable
    apply writes.unchanged
    rintro ⟨low, high⟩
    simp only [List.length_cons, List.length_nil] at high
    exact apart position (by omega) (by omega) inTable
  · rw [Cpu.cpl, enterStub_seg, Function.update_self]
    exact ring0

/-- From the gate to the handler and back. -/
theorem exec_called {World : Type} {label : Label}
    (isEsp : (c.reg .esp).toNat = addr + 64)
    (table : FlatTable gdtr c.mem)
    (apart : ∀ position, addr ≤ position → position < addr + 64 →
      position ∉ tableBytes gdtr)
    (isStub : stubOf vector = some label) (pushes : PushesError vector error)
    (callee : Label → World → Cpu → Option (World × Cpu)) (w : World) :
    exec gdtr address code callee 25 (code label) w
        (c.enterGate 0x08 offset error) =
      (callee (handlerOf vector) w
        (called address vector 0x08 offset error c)).bind
          (returnFrom gdtr address (backOf vector)) := by
  rw [exec_stub gdtr address callee 0 0x08 offset w c isStub pushes,
    saveContext_called isEsp table apart (by decide)]
  rfl

end Called

end Hlos.Idt
