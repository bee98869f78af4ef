import Hlos.Lib.X86

/-!
# Descriptor tables of the 32-bit processor

The tables lie in memory as the processor reads them: eight bytes for a segment
descriptor and for a gate, and a six-byte operand for `lgdt` and `lidt`.
-/

namespace Hlos.Lib

namespace Memory

def load16 (addr : Nat) (m : Memory) : BitVec 16 :=
  BitVec.ofNat 16
    ((m.bytes addr).toNat + 256 * (m.bytes (addr + 1)).toNat)

def store16 (addr : Nat) (value : BitVec 16) (m : Memory) : Memory where
  bytes position :=
    if position = addr then value.setWidth 8
    else if position = addr + 1 then (value >>> 8).setWidth 8
    else m.bytes position
  log := (addr, 2) :: m.log

theorem load16_store16_self (addr : Nat) (value : BitVec 16) (m : Memory) :
    load16 addr (store16 addr value m) = value := by
  have bound := value.isLt
  apply BitVec.eq_of_toNat_eq
  simp only [load16, store16, if_true, Nat.add_eq_left, Nat.succ_ne_zero,
    if_false, BitVec.toNat_ofNat, BitVec.toNat_setWidth,
    BitVec.toNat_ushiftRight, Nat.shiftRight_eq_div_pow]
  omega

theorem load16_congr {addr : Nat} {m m' : Memory}
    (same : m'.bytes addr = m.bytes addr)
    (sameNext : m'.bytes (addr + 1) = m.bytes (addr + 1)) :
    load16 addr m' = load16 addr m := by
  rw [load16, load16, same, sameNext]

theorem store16_bytes_of_apart {addr position : Nat} (value : BitVec 16)
    (m : Memory) (apart : position < addr ∨ addr + 2 ≤ position) :
    (store16 addr value m).bytes position = m.bytes position := by
  have notFirst : position ≠ addr := by omega
  have notSecond : position ≠ addr + 1 := by omega
  simp [store16, notFirst, notSecond]

theorem store16_writesWithin {addr : Nat} {range : Set Nat}
    (value : BitVec 16) (m : Memory) (first : addr ∈ range)
    (second : addr + 1 ∈ range) : WritesWithin range m (store16 addr value m) := by
  constructor
  · refine ⟨[(addr, 2)], rfl, ?_⟩
    intro store isStore position low high
    rw [List.mem_singleton.mp isStore] at low high
    have places : position = addr ∨ position = addr + 1 := by
      change addr ≤ position at low
      change position < addr + 2 at high
      omega
    rcases places with rfl | rfl
    · exact first
    · exact second
  · intro position outside
    apply store16_bytes_of_apart
    by_contra covered
    have places : position = addr ∨ position = addr + 1 := by omega
    rcases places with rfl | rfl
    · exact outside first
    · exact outside second

theorem store8_bytes_of_ne {addr position : Nat} (value : BitVec 8)
    (m : Memory) (different : position ≠ addr) :
    (store8 addr value m).bytes position = m.bytes position :=
  if_neg different

theorem load16_store16_of_apart {addr other : Nat} (value : BitVec 16)
    (m : Memory) (apart : addr + 2 ≤ other ∨ other + 2 ≤ addr) :
    load16 other (store16 addr value m) = load16 other m :=
  load16_congr (store16_bytes_of_apart value m (by omega))
    (store16_bytes_of_apart value m (by omega))

theorem load16_store8_of_apart {addr other : Nat} (value : BitVec 8)
    (m : Memory) (apart : addr < other ∨ other + 2 ≤ addr) :
    load16 other (store8 addr value m) = load16 other m :=
  load16_congr (store8_bytes_of_ne value m (by omega))
    (store8_bytes_of_ne value m (by omega))

theorem load8_store16_of_apart {addr other : Nat} (value : BitVec 16)
    (m : Memory) (apart : addr + 2 ≤ other ∨ other < addr) :
    load8 other (store16 addr value m) = load8 other m :=
  store16_bytes_of_apart value m (by omega)

theorem load8_store8_of_ne {addr other : Nat} (value : BitVec 8)
    (m : Memory) (different : other ≠ addr) :
    load8 other (store8 addr value m) = load8 other m :=
  store8_bytes_of_ne value m different

theorem load8_store8_self (addr : Nat) (value : BitVec 8) (m : Memory) :
    load8 addr (store8 addr value m) = value :=
  if_pos rfl

end Memory

/-- Two bit fields side by side. -/
theorem append_toNat {m n : Nat} (high : BitVec m) (low : BitVec n) :
    (high ++ low).toNat = high.toNat * 2 ^ n + low.toNat := by
  rw [BitVec.toNat_append, ← Nat.shiftLeft_add_eq_or_of_lt low.isLt,
    Nat.shiftLeft_eq]

namespace X86

/-- A gate of the interrupt descriptor table. -/
structure Gate where
  offset : BitVec 32
  selector : BitVec 16
  flags : BitVec 8
deriving DecidableEq, Repr

def gateAt (addr : Nat) (m : Memory) : Gate where
  offset := m.load16 (addr + 6) ++ m.load16 addr
  selector := m.load16 (addr + 2)
  flags := m.load8 (addr + 5)

/-- The bits of an interrupt gate that is present and 32 bits wide, without
its privilege level. -/
def Gate.isInterruptGate (gate : Gate) : Bool :=
  gate.flags &&& 0x9F == 0x8E

/-- A segment descriptor: base, limit field, access byte and the four flags. -/
structure Descriptor where
  base : BitVec 32
  limit : BitVec 20
  access : BitVec 8
  flags : BitVec 4
deriving DecidableEq, Repr

def descriptorAt (addr : Nat) (m : Memory) : Descriptor where
  base := m.load8 (addr + 7) ++ m.load8 (addr + 4) ++ m.load16 (addr + 2)
  limit := (m.load8 (addr + 6)).extractLsb' 0 4 ++ m.load16 addr
  access := m.load8 (addr + 5)
  flags := (m.load8 (addr + 6)).extractLsb' 4 4

/-- The last offset inside the segment.  The top flag scales the limit to
pages. -/
def Descriptor.lastOffset (descriptor : Descriptor) : Nat :=
  if descriptor.flags.getLsbD 3 then descriptor.limit.toNat * 4096 + 4095
  else descriptor.limit.toNat

/-- The limit and the base of a descriptor table register. -/
structure TableRegister where
  limit : BitVec 16
  base : BitVec 32
deriving DecidableEq, Repr

/-- What `lgdt` and `lidt` load. -/
def tableRegisterAt (addr : Nat) (m : Memory) : TableRegister where
  limit := m.load16 addr
  base := m.load32 (addr + 2)

theorem tableRegisterAt_congr {addr : Nat} {m m' : Memory}
    (same : ∀ offset, offset < 6 →
      m'.bytes (addr + offset) = m.bytes (addr + offset)) :
    tableRegisterAt addr m' = tableRegisterAt addr m := by
  have sameLimit : m'.load16 addr = m.load16 addr :=
    Memory.load16_congr (same 0 (by simp)) (same 1 (by simp))
  have sameBase : m'.load32 (addr + 2) = m.load32 (addr + 2) := by
    apply Memory.load32_congr
    intro offset inside
    rw [Nat.add_assoc]
    exact same (2 + offset) (by omega)
  rw [tableRegisterAt, tableRegisterAt, sameLimit, sameBase]

theorem gateAt_congr {addr : Nat} {m m' : Memory}
    (same : ∀ offset, offset < 8 →
      m'.bytes (addr + offset) = m.bytes (addr + offset)) :
    gateAt addr m' = gateAt addr m := by
  have sameLow : m'.load16 addr = m.load16 addr :=
    Memory.load16_congr (same 0 (by simp)) (same 1 (by simp))
  have sameSelector : m'.load16 (addr + 2) = m.load16 (addr + 2) :=
    Memory.load16_congr (same 2 (by simp)) (same 3 (by simp))
  have sameHigh : m'.load16 (addr + 6) = m.load16 (addr + 6) :=
    Memory.load16_congr (same 6 (by simp)) (same 7 (by simp))
  rw [gateAt, gateAt, sameLow, sameSelector, sameHigh, Memory.load8,
    Memory.load8, same 5 (by simp)]

theorem descriptorAt_congr {addr : Nat} {m m' : Memory}
    (same : ∀ offset, offset < 8 →
      m'.bytes (addr + offset) = m.bytes (addr + offset)) :
    descriptorAt addr m' = descriptorAt addr m := by
  have sameLimit : m'.load16 addr = m.load16 addr :=
    Memory.load16_congr (same 0 (by simp)) (same 1 (by simp))
  have sameBase : m'.load16 (addr + 2) = m.load16 (addr + 2) :=
    Memory.load16_congr (same 2 (by simp)) (same 3 (by simp))
  simp only [descriptorAt, sameLimit, sameBase, Memory.load8,
    same 4 (by simp), same 5 (by simp), same 6 (by simp), same 7 (by simp)]

end X86

end Hlos.Lib
