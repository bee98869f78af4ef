import Hlos.Lib.Descriptors

/-!
# Segments, interrupts and instructions

What the processor checks, at privilege level zero, when a segment register is
loaded from the global descriptor table, when an interrupt is taken through a
gate and when `iret` returns from it.  `none` is a fault, or a case that leaves
this fragment: another privilege level, another task, the virtual 8086 mode.
-/

namespace Hlos.Lib.X86

namespace Descriptor

def present (d : Descriptor) : Bool := d.access.getLsbD 7

def privilege (d : Descriptor) : Nat := (d.access.extractLsb' 5 2).toNat

/-- A code or data segment, not a system segment. -/
def isSegment (d : Descriptor) : Bool := d.access.getLsbD 4

def isCode (d : Descriptor) : Bool := d.access.getLsbD 3

def isConforming (d : Descriptor) : Bool := d.isCode && d.access.getLsbD 2

/-- Code may be read, data may be written. -/
def isOpen (d : Descriptor) : Bool := d.access.getLsbD 1

/-- The rules for the registers, with the requested privilege level.  Of the
code segments, only a conforming one could be asked for with another level;
this is left out. -/
def loadable (d : Descriptor) (requested : Nat) : Seg → Bool
  | .cs => d.present && d.isSegment && d.isCode && d.privilege == 0 &&
      requested == 0
  | .ss => d.present && d.isSegment && !d.isCode && d.isOpen &&
      d.privilege == 0 && requested == 0
  | _ => d.present && d.isSegment && (!d.isCode || d.isOpen) &&
      (d.isConforming || decide (requested ≤ d.privilege))

/-- The descriptor with its accessed bit. -/
def mark (d : Descriptor) (accessed : Bool) : Descriptor :=
  if accessed then { d with access := d.access ||| 1 } else d

theorem mark_mark (d : Descriptor) (first second : Bool) :
    (d.mark first).mark second = d.mark (first || second) := by
  cases first <;> cases second <;> simp [mark, BitVec.or_assoc]

/-- The other bits of the access byte stay. -/
theorem access_mark (d : Descriptor) (accessed : Bool) {i : Nat}
    (positive : i ≠ 0) :
    (d.mark accessed).access.getLsbD i = d.access.getLsbD i := by
  cases accessed with
  | false => rfl
  | true =>
      change (d.access ||| 1).getLsbD i = _
      simp [positive]

theorem privilege_mark (d : Descriptor) (accessed : Bool) :
    (d.mark accessed).privilege = d.privilege := by
  refine congrArg BitVec.toNat (BitVec.eq_of_getLsbD_eq fun i inside => ?_)
  rw [BitVec.getLsbD_extractLsb', BitVec.getLsbD_extractLsb',
    d.access_mark accessed (by omega)]

theorem loadable_mark (d : Descriptor) (accessed : Bool) (requested : Nat)
    (s : Seg) :
    (d.mark accessed).loadable requested s = d.loadable requested s := by
  cases s <;> simp only [loadable, present, isSegment, isCode, isOpen,
    isConforming, d.privilege_mark accessed,
    d.access_mark accessed (show 7 ≠ 0 by decide),
    d.access_mark accessed (show 4 ≠ 0 by decide),
    d.access_mark accessed (show 3 ≠ 0 by decide),
    d.access_mark accessed (show 2 ≠ 0 by decide),
    d.access_mark accessed (show 1 ≠ 0 by decide)]

end Descriptor

/-- A byte whose lowest bit is set. -/
theorem or_one_of_getLsbD {byte : BitVec 8} (set : byte.getLsbD 0 = true) :
    byte ||| 1 = byte := by
  apply BitVec.eq_of_getLsbD_eq
  intro i inside
  rw [BitVec.getLsbD_or]
  by_cases first : i = 0
  · rw [first, set, Bool.true_or]
  · have clear : (1 : BitVec 8).getLsbD i = false := by simp [first]
    rw [clear, Bool.or_false]

/-- The descriptor that a selector names.  The first one is never used, and
there is no local table. -/
def segmentAt (gdtr : TableRegister) (selector : BitVec 16) (m : Memory) :
    Option Descriptor :=
  let index := selector.toNat / 8
  if index ≠ 0 ∧ selector.getLsbD 2 = false ∧
      8 * index + 7 ≤ gdtr.limit.toNat then
    some (descriptorAt (gdtr.base.toNat + 8 * index) m)
  else
    none

/-- The linear address of an offset in the segment that a selector names, when
the offset lies inside. -/
def linear (gdtr : TableRegister) (selector : BitVec 16) (offset : BitVec 32)
    (m : Memory) : Option (BitVec 32) := do
  let d ← segmentAt gdtr selector m
  if d.present ∧ d.isSegment ∧ offset.toNat ≤ d.lastOffset then
    return d.base + offset
  else
    none

/-- The processor sets the accessed bit of a segment that it loads. -/
def markAccessed (gdtr : TableRegister) (selector : BitVec 16) (m : Memory) :
    Memory :=
  let access := gdtr.base.toNat + 8 * (selector.toNat / 8) + 5
  if (m.load8 access).getLsbD 0 then m
  else m.store8 access (m.load8 access ||| 1)

/-- Load a segment register.  The null selector may be loaded into the data
segments, but not into the stack segment. -/
def loadSeg (gdtr : TableRegister) (s : Seg) (selector : BitVec 16)
    (c : Cpu) : Option Cpu :=
  if c.cpl ≠ 0 then none
  else if selector.toNat < 4 ∧ s ≠ .cs ∧ s ≠ .ss then
    some (c.setSeg s selector)
  else do
    let d ← segmentAt gdtr selector c.mem
    if d.loadable (selector.toNat % 4) s then
      return { c.setSeg s selector with
        mem := markAccessed gdtr selector c.mem }
    else
      none

/-- The access byte belongs to one descriptor. -/
theorem descriptorAt_storeAccess (base index other : Nat) (value : BitVec 8)
    (m : Memory) :
    descriptorAt (base + 8 * index) (m.store8 (base + 8 * other + 5) value) =
      if index = other then
        { descriptorAt (base + 8 * index) m with access := value }
      else descriptorAt (base + 8 * index) m := by
  simp only [descriptorAt]
  by_cases same : index = other
  · subst same
    simp (disch := omega) only [Memory.load16_store8_of_apart,
      Memory.load8_store8_self, Memory.load8_store8_of_ne, if_true]
  · simp (disch := omega) only [Memory.load16_store8_of_apart,
      Memory.load8_store8_of_ne, if_neg same]

/-- The mark is set in the descriptor that the selector names, and in no
other. -/
theorem descriptorAt_markAccessed (gdtr : TableRegister)
    (selector : BitVec 16) (index : Nat) (m : Memory) :
    descriptorAt (gdtr.base.toNat + 8 * index)
        (markAccessed gdtr selector m) =
      (descriptorAt (gdtr.base.toNat + 8 * index) m).mark
        (decide (index = selector.toNat / 8)) := by
  rw [markAccessed]
  split_ifs with marked
  · by_cases same : index = selector.toNat / 8
    · subst same
      have stays : (descriptorAt (gdtr.base.toNat + 8 * (selector.toNat / 8))
          m).access ||| 1 = m.load8 _ := or_one_of_getLsbD marked
      rw [Descriptor.mark, if_pos (by simp), stays]
      rfl
    · rw [Descriptor.mark, if_neg (by simpa using same)]
  · rw [descriptorAt_storeAccess]
    by_cases same : index = selector.toNat / 8
    · subst same
      rw [if_pos rfl, Descriptor.mark, if_pos (by simp)]
      rfl
    · rw [if_neg same, Descriptor.mark, if_neg (by simpa using same)]

/-- Nothing is stored to a descriptor that is marked. -/
theorem markAccessed_of_marked {gdtr : TableRegister} {selector : BitVec 16}
    {m : Memory}
    (marked : (descriptorAt (gdtr.base.toNat + 8 * (selector.toNat / 8))
      m).access.getLsbD 0 = true) : markAccessed gdtr selector m = m :=
  if_pos marked

theorem loadSeg_reg {gdtr : TableRegister} {s : Seg} {selector : BitVec 16}
    {c c' : Cpu} (run : loadSeg gdtr s selector c = some c') :
    c'.reg = c.reg := by
  rw [loadSeg] at run
  split_ifs at run
  · rw [← Option.some.inj run]
    rfl
  · obtain ⟨d, _, rest⟩ := Option.bind_eq_some_iff.mp run
    split_ifs at rest
    rw [← Option.some.inj rest]
    rfl

/-- Raise an interrupt: it is taken through the gate of its vector, if the
table holds a present interrupt gate there whose code segment can be loaded.
The privilege level of the gate's selector does not count. -/
def interrupt (idtr gdtr : TableRegister) (vector : BitVec 8)
    (error : Option (BitVec 32)) (c : Cpu) : Option Cpu :=
  let gate := gateAt (idtr.base.toNat + 8 * vector.toNat) c.mem
  if 8 * vector.toNat + 7 ≤ idtr.limit.toNat ∧ gate.isInterruptGate then do
    let loaded ← loadSeg gdtr .cs (gate.selector &&& 0xFFFC) c
    return { c with mem := loaded.mem }.enterGate (loaded.seg .cs) gate.offset
      error
  else
    none

/-- The flags `NT` and `VM`. -/
def ntBit : Nat := 14

def vmBit : Nat := 17

/-- `iret` to the same privilege level, neither to another task nor to the
virtual 8086 mode.  The reserved bits of the flags are taken as they stand. -/
def iret (gdtr : TableRegister) (c : Cpu) : Option Cpu := do
  let eip := c.top
  let c₁ := c.drop
  let cs := c₁.top
  let c₂ := c₁.drop
  let eflags := c₂.top
  if c.eflags.getLsbD ntBit ∨ eflags.getLsbD vmBit then none
  else do
    let c ← loadSeg gdtr .cs (cs.setWidth 16) c₂.drop
    return { c with eip := eip, eflags := eflags }

/-- `iret` takes the instruction pointer, the code segment and the flags. -/
theorem Frame.iret_eq {c : Cpu} {addr : Nat} {eip cs eflags : BitVec 32}
    {words : List (BitVec 32)}
    (frame : Frame c addr (eip :: cs :: eflags :: words))
    (sameTask : c.eflags.getLsbD ntBit = false) (gdtr : TableRegister) :
    iret gdtr c =
      if eflags.getLsbD vmBit then none
      else (loadSeg gdtr .cs (cs.setWidth 16) c.drop.drop.drop).map
        fun loaded => { loaded with eip := eip, eflags := eflags } := by
  have afterEip := frame.drop
  have afterCs := afterEip.drop
  rw [iret, frame.top, afterEip.top, afterCs.top, sameTask]
  simp only [Bool.false_eq_true, false_or]
  split_ifs
  · rfl
  · cases loadSeg gdtr .cs (cs.setWidth 16) c.drop.drop.drop <;> rfl

/-- An addition changes arithmetic flags only. -/
theorem addFlags_nt (a b eflags : BitVec 32) :
    (Cpu.addFlags a b eflags).getLsbD ntBit = eflags.getLsbD ntBit := by
  have flag : ∀ (n : Nat) (holds : Bool), n ≠ 14 →
      (if holds then 1#32 <<< n else 0).getLsbD 14 = false := by
    intro n holds different
    cases holds with
    | false => simp
    | true =>
        rw [if_pos rfl, BitVec.getLsbD_shiftLeft]
        simp
        omega
  simp only [Cpu.addFlags, ntBit, BitVec.getLsbD_or, BitVec.getLsbD_and,
    BitVec.getLsbD_not, flag 0 _ (by decide), flag 2 _ (by decide),
    flag 4 _ (by decide), flag 6 _ (by decide), flag 7 _ (by decide),
    flag 11 _ (by decide)]
  simp

/-- `ret` to the address `back`; a function that returns elsewhere is not
followed. -/
def ret (back : BitVec 32) (c : Cpu) : Option Cpu :=
  if c.top = back then some c.drop else none

/-- The instructions, with the labels they jump to and call.  A call names the
label behind it. -/
inductive Instr (Label : Type) where
  | cli
  | push (value : BitVec 32)
  | pushReg (r : Reg)
  | popReg (r : Reg)
  | pusha
  | popa
  | movFromSeg (r : Reg) (s : Seg)
  | movLow (r : Reg) (value : BitVec 16)
  | movToSeg (s : Seg) (r : Reg)
  | addEsp (n : BitVec 32)
  | call (target back : Label)
  | jmp (target : Label)
  | iret

/-- `mov` to a segment register, which cannot be `cs`. -/
def movToSeg (gdtr : TableRegister) (s : Seg) (r : Reg) (c : Cpu) :
    Option Cpu :=
  if s = .cs then none else loadSeg gdtr s ((c.reg r).setWidth 16) c

/-- Run instructions up to `iret`.  A called function is given from outside:
from its first instruction up to its `ret`, together with a world that only
such functions change. -/
def exec {Label World : Type} (gdtr : TableRegister)
    (address : Label → BitVec 32) (code : Label → List (Instr Label))
    (callee : Label → World → Cpu → Option (World × Cpu)) :
    Nat → List (Instr Label) → World → Cpu → Option (World × Cpu)
  | 0, _, _, _ => none
  | _ + 1, [], _, _ => none
  | fuel + 1, instr :: rest, w, c =>
      let go (w : World) (c : Cpu) :=
        exec gdtr address code callee fuel rest w c
      match instr with
      | .cli => go w c.cli
      | .push value => go w (c.push value)
      | .pushReg r => go w (c.push (c.reg r))
      | .popReg r => go w (c.popReg r)
      | .pusha => go w c.pusha
      | .popa => go w c.popa
      | .movFromSeg r s => go w (c.setLow r (c.seg s))
      | .movLow r value => go w (c.setLow r value)
      | .movToSeg s r => do
          let c ← movToSeg gdtr s r c
          go w c
      | .addEsp n => go w (c.addEsp n)
      | .call target back => do
          let (w, c) ← callee target w (c.push (address back))
          let c ← ret (address back) c
          go w c
      | .jmp target =>
          exec gdtr address code callee fuel (code target) w c
      | .iret => do
          let c ← iret gdtr c
          return (w, c)

end Hlos.Lib.X86
