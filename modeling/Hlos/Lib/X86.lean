import Hlos.Lib.ByteMemory
import Mathlib.Logic.Function.Basic

/-!
# A fragment of the 32-bit processor

General and segment registers, the flags and the stack.  The segments in use are
flat, so that an offset is its own linear address.

`Frame` describes the top of the stack as a list of words.  A push puts a word
in front of the list and a pop takes one off, so a straight run of stack
instructions is followed without address arithmetic.
-/

namespace Hlos.Lib.X86

inductive Reg where
  | eax | ecx | edx | ebx | esp | ebp | esi | edi
deriving DecidableEq, Repr

inductive Seg where
  | cs | ds | es | fs | gs | ss
deriving DecidableEq, Repr

/-- `eip` is where an interrupted program goes on. -/
@[ext]
structure Cpu where
  reg : Reg → BitVec 32
  seg : Seg → BitVec 16
  eip : BitVec 32
  eflags : BitVec 32
  mem : Memory

namespace Cpu

def setReg (r : Reg) (value : BitVec 32) (c : Cpu) : Cpu :=
  { c with reg := Function.update c.reg r value }

def setSeg (s : Seg) (selector : BitVec 16) (c : Cpu) : Cpu :=
  { c with seg := Function.update c.seg s selector }

/-- Write the low half of a register. -/
def setLow (r : Reg) (value : BitVec 16) (c : Cpu) : Cpu :=
  c.setReg r ((c.reg r).extractLsb' 16 16 ++ value)

def push (value : BitVec 32) (c : Cpu) : Cpu :=
  let esp := c.reg .esp - 4
  { c with
    reg := Function.update c.reg .esp esp
    mem := c.mem.store32 esp.toNat value }

/-- Push the values one after the other. -/
def pushAll : List (BitVec 32) → Cpu → Cpu
  | [], c => c
  | value :: values, c => pushAll values (c.push value)

/-- The word on top of the stack. -/
def top (c : Cpu) : BitVec 32 :=
  c.mem.load32 (c.reg .esp).toNat

/-- Drop the word on top of the stack. -/
def drop (c : Cpu) : Cpu :=
  c.setReg .esp (c.reg .esp + 4)

/-- Pop into a register. -/
def popReg (r : Reg) (c : Cpu) : Cpu :=
  c.drop.setReg r c.top

/-- `pusha` stores the stack pointer as it was before. -/
def pusha (c : Cpu) : Cpu :=
  let esp := c.reg .esp
  let c := c.push (c.reg .eax)
  let c := c.push (c.reg .ecx)
  let c := c.push (c.reg .edx)
  let c := c.push (c.reg .ebx)
  let c := c.push esp
  let c := c.push (c.reg .ebp)
  let c := c.push (c.reg .esi)
  c.push (c.reg .edi)

/-- `popa` skips the stored stack pointer. -/
def popa (c : Cpu) : Cpu :=
  let c := c.popReg .edi
  let c := c.popReg .esi
  let c := c.popReg .ebp
  let c := c.drop
  let c := c.popReg .ebx
  let c := c.popReg .edx
  let c := c.popReg .ecx
  c.popReg .eax

/-- The arithmetic flags of `add`. -/
def addFlags (a b eflags : BitVec 32) : BitVec 32 :=
  let sum := a + b
  let flag (n : Nat) (holds : Bool) : BitVec 32 :=
    if holds then 1#32 <<< n else 0
  let evenParity :=
    ((List.range 8).filter (fun i => sum.getLsbD i)).length % 2 == 0
  (eflags &&& ~~~ 0x8D5#32) |||
    flag 0 (BitVec.carry 32 a b false) ||| flag 2 evenParity |||
    flag 4 (BitVec.carry 4 a b false) ||| flag 6 (sum == 0) |||
    flag 7 sum.msb ||| flag 11 (BitVec.saddOverflow a b)

/-- `add esp, n`. -/
def addEsp (n : BitVec 32) (c : Cpu) : Cpu :=
  { c.setReg .esp (c.reg .esp + n) with
    eflags := addFlags (c.reg .esp) n c.eflags }

/-- The privilege level. -/
def cpl (c : Cpu) : Nat := (c.seg .cs).toNat % 4

/-- The interrupt flag. -/
def ifMask : BitVec 32 := 0x200

def cli (c : Cpu) : Cpu :=
  { c with eflags := c.eflags &&& ~~~ ifMask }

/-- Deliver an interrupt through a gate: save the flags, the code segment and
the instruction pointer, then the error code if there is one.  An interrupt
gate clears `VM`, `RF`, `NT`, `TF` and `IF`. -/
def enterGate (selector : BitVec 16) (offset : BitVec 32)
    (error : Option (BitVec 32)) (c : Cpu) : Cpu :=
  let c' := ((c.push c.eflags).push ((c.seg .cs).setWidth 32)).push c.eip
  let c' := match error with
    | some code => c'.push code
    | none => c'
  { c'.setSeg .cs selector with
    eip := offset
    eflags := c.eflags &&& ~~~ 0x34300#32 }

/-- The low half of a word that is put together from two halves. -/
theorem low_append (high low : BitVec 16) :
    (high ++ low : BitVec 32).setWidth 16 = low :=
  (BitVec.setWidth_append (x := high) (y := low) (k := 16)).trans (by simp)

@[simp] theorem push_esp (value : BitVec 32) (c : Cpu) :
    (c.push value).reg .esp = c.reg .esp - 4 := by
  simp [push]

@[simp] theorem push_reg {r : Reg} (value : BitVec 32) (c : Cpu)
    (different : r ≠ .esp) : (c.push value).reg r = c.reg r := by
  simp [push, different]

@[simp] theorem push_seg (value : BitVec 32) (c : Cpu) :
    (c.push value).seg = c.seg := rfl

@[simp] theorem push_eflags (value : BitVec 32) (c : Cpu) :
    (c.push value).eflags = c.eflags := rfl

@[simp] theorem setLow_reg {r r' : Reg} (value : BitVec 16) (c : Cpu)
    (different : r' ≠ r) : (c.setLow r value).reg r' = c.reg r' := by
  simp [setLow, setReg, different]

theorem setLow_self (r : Reg) (value : BitVec 16) (c : Cpu) :
    (c.setLow r value).reg r = (c.reg r).extractLsb' 16 16 ++ value := by
  simp [setLow, setReg]

@[simp] theorem setLow_low (r : Reg) (value : BitVec 16) (c : Cpu) :
    ((c.setLow r value).reg r).setWidth 16 = value := by
  simp only [setLow, setReg, Function.update_self]
  exact low_append _ _

@[simp] theorem setLow_seg (r : Reg) (value : BitVec 16) (c : Cpu) :
    (c.setLow r value).seg = c.seg := rfl

@[simp] theorem setLow_eflags (r : Reg) (value : BitVec 16) (c : Cpu) :
    (c.setLow r value).eflags = c.eflags := rfl

@[simp] theorem setSeg_reg (s : Seg) (selector : BitVec 16) (c : Cpu) :
    (c.setSeg s selector).reg = c.reg := rfl

@[simp] theorem setSeg_eflags (s : Seg) (selector : BitVec 16) (c : Cpu) :
    (c.setSeg s selector).eflags = c.eflags := rfl

@[simp] theorem setSeg_self (s : Seg) (selector : BitVec 16) (c : Cpu) :
    (c.setSeg s selector).seg s = selector := by
  simp [setSeg]

@[simp] theorem setSeg_of_ne {s s' : Seg} (selector : BitVec 16) (c : Cpu)
    (different : s' ≠ s) : (c.setSeg s selector).seg s' = c.seg s' := by
  simp [setSeg, different]

theorem cpl_setSeg_cs (selector : BitVec 16) (c : Cpu) :
    (c.setSeg .cs selector).cpl = selector.toNat % 4 := by
  rw [cpl, setSeg_self]

theorem cpl_setSeg_of_ne {s : Seg} (selector : BitVec 16) (c : Cpu)
    (different : s ≠ .cs) : (c.setSeg s selector).cpl = c.cpl := by
  rw [cpl, setSeg_of_ne selector c different.symm, cpl]

@[simp] theorem drop_reg {r : Reg} (c : Cpu) (different : r ≠ .esp) :
    c.drop.reg r = c.reg r := by
  simp [drop, setReg, different]

@[simp] theorem popReg_self (r : Reg) (c : Cpu) :
    (c.popReg r).reg r = c.top := by
  simp [popReg, setReg]

@[simp] theorem popReg_reg {r r' : Reg} (c : Cpu) (different : r' ≠ r)
    (notEsp : r' ≠ .esp) : (c.popReg r).reg r' = c.reg r' := by
  simp [popReg, setReg, drop, different, notEsp]

@[simp] theorem addEsp_reg {r : Reg} (n : BitVec 32) (c : Cpu)
    (different : r ≠ .esp) : (c.addEsp n).reg r = c.reg r := by
  simp [addEsp, setReg, different]

@[simp] theorem pusha_reg {r : Reg} (c : Cpu) (different : r ≠ .esp) :
    c.pusha.reg r = c.reg r := by
  simp [pusha, different]

@[simp] theorem pusha_seg (c : Cpu) : c.pusha.seg = c.seg := rfl

@[simp] theorem pusha_eflags (c : Cpu) : c.pusha.eflags = c.eflags := rfl

end Cpu

/-! ## The stack as a list of words -/

/-- The stack pointer is at `addr`, and these words lie on the stack. -/
structure Frame (c : Cpu) (addr : Nat) (words : List (BitVec 32)) : Prop where
  esp : (c.reg .esp).toNat = addr
  room : addr + 4 * words.length < 2 ^ 32
  word : ∀ i (inside : i < words.length),
    c.mem.load32 (addr + 4 * i) = words[i]

namespace Frame

variable {c : Cpu} {addr : Nat} {words : List (BitVec 32)}

/-- A stack about which nothing is known. -/
theorem start (c : Cpu) : Frame c (c.reg .esp).toNat [] where
  esp := rfl
  room := (c.reg .esp).isLt
  word _ inside := absurd inside (Nat.not_lt_zero _)

theorem push (frame : Frame c (addr + 4) words) (value : BitVec 32) :
    Frame (c.push value) addr (value :: words) := by
  have room := frame.room
  have isAddr : (c.reg .esp - 4).toNat = addr := by
    rw [BitVec.toNat_sub_of_le (by
      rw [BitVec.le_def, frame.esp]
      exact Nat.le_add_left 4 addr), frame.esp]
    rfl
  refine ⟨?_, ?_, ?_⟩
  · simpa [Cpu.push] using isAddr
  · rw [List.length_cons]
    omega
  · intro i inside
    simp only [Cpu.push, isAddr]
    cases i with
    | zero => exact Memory.load32_store32_self addr value c.mem
    | succ i =>
        rw [Memory.load32_store32_of_apart value c.mem (by omega),
          List.getElem_cons_succ, ← frame.word i (by simpa using inside)]
        congr 1
        omega

theorem pushAll (values : List (BitVec 32))
    (frame : Frame c (addr + 4 * values.length) words) :
    Frame (c.pushAll values) addr (values.reverse ++ words) := by
  induction values generalizing c words with
  | nil => simpa [Cpu.pushAll] using frame
  | cons value values inductionHypothesis =>
      have pushed : Frame (c.push value) (addr + 4 * values.length)
          (value :: words) := frame.push value
      simpa [Cpu.pushAll] using inductionHypothesis pushed

/-- The pushes write below the stack pointer only. -/
theorem pushAll_writes (values : List (BitVec 32))
    (frame : Frame c (addr + 4 * values.length) words) :
    Memory.WritesWithin
      {position | addr ≤ position ∧ position < addr + 4 * values.length}
      c.mem (c.pushAll values).mem := by
  induction values generalizing c words with
  | nil => exact Memory.WritesWithin.refl _ _
  | cons value values inductionHypothesis =>
      have pushed : Frame (c.push value) (addr + 4 * values.length)
          (value :: words) := frame.push value
      have isAddr : (c.reg .esp - 4).toNat = addr + 4 * values.length := by
        simpa [Cpu.push] using pushed.esp
      have first : Memory.WritesWithin
          {position | addr ≤ position ∧
            position < addr + 4 * (value :: values).length}
          c.mem (c.push value).mem := by
        simp only [Cpu.push, isAddr]
        apply Memory.store32_writesWithin
        intro offset inside
        rw [List.length_cons]
        exact ⟨by omega, by omega⟩
      apply first.trans
      apply (inductionHypothesis pushed).mono
      intro position range
      rw [List.length_cons]
      exact ⟨range.1, Nat.lt_of_lt_of_le range.2 (by omega)⟩

theorem top {word : BitVec 32} (frame : Frame c addr (word :: words)) :
    c.top = word := by
  have first := frame.word 0 (by simp)
  rw [Cpu.top, frame.esp]
  simpa using first

theorem drop {word : BitVec 32} (frame : Frame c addr (word :: words)) :
    Frame c.drop (addr + 4) words := by
  have room := frame.room
  rw [List.length_cons] at room
  refine ⟨?_, by omega, ?_⟩
  · simp only [Cpu.drop, Cpu.setReg, Function.update_self, BitVec.toNat_add,
      frame.esp, BitVec.reduceToNat]
    omega
  · intro i inside
    have later := frame.word (i + 1) (by simpa using inside)
    rw [List.getElem_cons_succ] at later
    rw [← later, Cpu.drop, Cpu.setReg]
    congr 1
    omega

/-- `add esp, n` drops the words it passes. -/
theorem addEsp (skipped : List (BitVec 32))
    (frame : Frame c addr (skipped ++ words)) {n : BitVec 32}
    (isSize : n.toNat = 4 * skipped.length) :
    Frame (c.addEsp n) (addr + 4 * skipped.length) words := by
  have room := frame.room
  rw [List.length_append] at room
  refine ⟨?_, by omega, ?_⟩
  · simp only [Cpu.addEsp, Cpu.setReg, Function.update_self,
      BitVec.toNat_add, frame.esp, isSize]
    omega
  · intro i inside
    have later := frame.word (skipped.length + i) (by
      rw [List.length_append]
      omega)
    rw [List.getElem_append_right (Nat.le_add_right _ _)] at later
    simp only [Nat.add_sub_cancel_left] at later
    rw [← later, Cpu.addEsp, Cpu.setReg]
    congr 1
    omega

theorem popReg {word : BitVec 32} (frame : Frame c addr (word :: words))
    {r : Reg} (different : r ≠ .esp) :
    Frame (c.popReg r) (addr + 4) words := by
  have dropped := frame.drop
  refine ⟨?_, dropped.room, dropped.word⟩
  rw [← dropped.esp]
  simp [Cpu.popReg, Cpu.setReg, different.symm]

/-- `popa` takes eight words and uses seven of them. -/
theorem popa {edi esi ebp esp ebx edx ecx eax : BitVec 32}
    (frame : Frame c addr
      (edi :: esi :: ebp :: esp :: ebx :: edx :: ecx :: eax :: words)) :
    Frame c.popa (addr + 32) words ∧
      c.popa.reg .edi = edi ∧ c.popa.reg .esi = esi ∧
      c.popa.reg .ebp = ebp ∧ c.popa.reg .ebx = ebx ∧
      c.popa.reg .edx = edx ∧ c.popa.reg .ecx = ecx ∧
      c.popa.reg .eax = eax := by
  have afterEdi := frame.popReg (r := .edi) (by simp)
  have afterEsi := afterEdi.popReg (r := .esi) (by simp)
  have afterEbp := afterEsi.popReg (r := .ebp) (by simp)
  have afterEsp := afterEbp.drop
  have afterEbx := afterEsp.popReg (r := .ebx) (by simp)
  have afterEdx := afterEbx.popReg (r := .edx) (by simp)
  have afterEcx := afterEdx.popReg (r := .ecx) (by simp)
  have afterEax := afterEcx.popReg (r := .eax) (by simp)
  refine ⟨afterEax, ?_, ?_, ?_, ?_, ?_, ?_, ?_⟩
  · simp [Cpu.popa, frame.top]
  · simp [Cpu.popa, afterEdi.top]
  · simp [Cpu.popa, afterEsi.top]
  · simp [Cpu.popa, afterEsp.top]
  · simp [Cpu.popa, afterEbx.top]
  · simp [Cpu.popa, afterEdx.top]
  · simp [Cpu.popa, afterEcx.top]

/-- A frame of whatever the memory holds. -/
theorem read {c : Cpu} (count : Nat)
    (room : (c.reg .esp).toNat + 4 * count < 2 ^ 32) :
    Frame c (c.reg .esp).toNat
      ((List.range count).map
        (fun i => c.mem.load32 ((c.reg .esp).toNat + 4 * i))) where
  esp := rfl
  room := by simpa using room
  word i inside := by simp

/-- A step that moves neither the stack pointer nor the memory. -/
theorem keep (frame : Frame c addr words) (c' : Cpu)
    (sameEsp : c'.reg .esp = c.reg .esp) (sameMem : c'.mem = c.mem) :
    Frame c' addr words where
  esp := by rw [sameEsp, frame.esp]
  room := frame.room
  word i inside := by rw [sameMem, frame.word i inside]

end Frame

/-- The stack of `c` is the stack of `start` with the values pushed. -/
structure Pushed (start : Cpu) (values : List (BitVec 32)) (c : Cpu) :
    Prop where
  esp : c.reg .esp = (start.pushAll values).reg .esp
  mem : c.mem = (start.pushAll values).mem

namespace Pushed

variable {start c : Cpu} {values : List (BitVec 32)}

theorem refl (start : Cpu) : Pushed start [] start := ⟨rfl, rfl⟩

theorem pushAll_concat (values : List (BitVec 32)) (value : BitVec 32)
    (start : Cpu) :
    start.pushAll (values ++ [value]) = (start.pushAll values).push value := by
  induction values generalizing start with
  | nil => rfl
  | cons first rest inductionHypothesis =>
      exact inductionHypothesis (start.push first)

theorem push (pushed : Pushed start values c) (value : BitVec 32) :
    Pushed start (values ++ [value]) (c.push value) := by
  constructor
  · rw [pushAll_concat, Cpu.push_esp, Cpu.push_esp, pushed.esp]
  · rw [pushAll_concat, Cpu.push, Cpu.push, pushed.esp, pushed.mem]

theorem keep (pushed : Pushed start values c) (c' : Cpu)
    (sameEsp : c'.reg .esp = c.reg .esp) (sameMem : c'.mem = c.mem) :
    Pushed start values c' :=
  ⟨sameEsp.trans pushed.esp, sameMem.trans pushed.mem⟩

theorem pusha (pushed : Pushed start values c) :
    Pushed start
      (values ++ [c.reg .eax, c.reg .ecx, c.reg .edx, c.reg .ebx, c.reg .esp,
        c.reg .ebp, c.reg .esi, c.reg .edi]) c.pusha := by
  have all := (((((((pushed.push (c.reg .eax)).push (c.reg .ecx)).push
    (c.reg .edx)).push (c.reg .ebx)).push (c.reg .esp)).push
      (c.reg .ebp)).push (c.reg .esi)).push (c.reg .edi)
  simpa [List.append_assoc, Cpu.pusha] using all

end Pushed

end Hlos.Lib.X86
