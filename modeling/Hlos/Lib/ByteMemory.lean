import Mathlib.Algebra.Group.Nat.Defs
import Mathlib.Data.Set.Basic

/-!
# Byte memory

A memory of bytes in which little-endian 32-bit words are loaded and stored at
arbitrary addresses.  Every store is logged, so that the range a program
writes can be told even where it writes the value that was there before.
-/

namespace Hlos.Lib

/-- The bytes, and the address and length of every store, newest first. -/
structure Memory where
  bytes : Nat → BitVec 8
  log : List (Nat × Nat)

namespace Memory

def load8 (addr : Nat) (m : Memory) : BitVec 8 := m.bytes addr

def load32 (addr : Nat) (m : Memory) : BitVec 32 :=
  BitVec.ofNat 32
    ((m.bytes addr).toNat + 256 * (m.bytes (addr + 1)).toNat +
      65536 * (m.bytes (addr + 2)).toNat +
      16777216 * (m.bytes (addr + 3)).toNat)

/-- The byte at the given offset of a word in memory. -/
def byteOf (value : BitVec 32) (offset : Nat) : BitVec 8 :=
  BitVec.ofNat 8 (value.toNat / 256 ^ offset)

def store32 (addr : Nat) (value : BitVec 32) (m : Memory) : Memory where
  bytes position :=
    if addr ≤ position ∧ position < addr + 4 then
      byteOf value (position - addr)
    else m.bytes position
  log := (addr, 4) :: m.log

def store8 (addr : Nat) (value : BitVec 8) (m : Memory) : Memory where
  bytes position := if position = addr then value else m.bytes position
  log := (addr, 1) :: m.log

theorem store32_bytes_of_apart {addr position : Nat} (value : BitVec 32)
    (m : Memory) (apart : position < addr ∨ addr + 4 ≤ position) :
    (store32 addr value m).bytes position = m.bytes position :=
  if_neg (by omega)

theorem store32_bytes_inside {addr offset : Nat} (value : BitVec 32)
    (m : Memory) (inside : offset < 4) :
    (store32 addr value m).bytes (addr + offset) = byteOf value offset := by
  have position : addr ≤ addr + offset ∧ addr + offset < addr + 4 := by omega
  have back : addr + offset - addr = offset := Nat.add_sub_cancel_left _ _
  rw [store32]
  change (if addr ≤ addr + offset ∧ addr + offset < addr + 4 then
    byteOf value (addr + offset - addr) else m.bytes (addr + offset)) = _
  rw [if_pos position, back]

/-- A word depends on its four bytes only. -/
theorem load32_congr {addr : Nat} {m m' : Memory}
    (same : ∀ offset, offset < 4 →
      m'.bytes (addr + offset) = m.bytes (addr + offset)) :
    load32 addr m' = load32 addr m := by
  have zero := same 0 (by decide)
  have one := same 1 (by decide)
  have two := same 2 (by decide)
  have three := same 3 (by decide)
  rw [Nat.add_zero] at zero
  rw [load32, load32, zero, one, two, three]

theorem load32_store32_self (addr : Nat) (value : BitVec 32) (m : Memory) :
    load32 addr (store32 addr value m) = value := by
  have bound := value.isLt
  have zero := @store32_bytes_inside addr 0 value m (by decide)
  rw [Nat.add_zero] at zero
  rw [load32, zero, store32_bytes_inside value m (by decide),
    store32_bytes_inside value m (by decide),
    store32_bytes_inside value m (by decide)]
  apply BitVec.eq_of_toNat_eq
  simp only [byteOf, BitVec.toNat_ofNat]
  omega

theorem load32_store32_of_apart {addr other : Nat} (value : BitVec 32)
    (m : Memory) (apart : addr + 4 ≤ other ∨ other + 4 ≤ addr) :
    load32 other (store32 addr value m) = load32 other m := by
  apply load32_congr
  intro offset inside
  apply store32_bytes_of_apart
  omega

/-- Only bytes of the set were written between the two memories. -/
structure WritesWithin (range : Set Nat) (m m' : Memory) : Prop where
  logged : ∃ stores, m'.log = stores ++ m.log ∧
    ∀ store, store ∈ stores → ∀ position,
      store.1 ≤ position → position < store.1 + store.2 → position ∈ range
  unchanged : ∀ position, position ∉ range →
    m'.bytes position = m.bytes position

namespace WritesWithin

variable {range other : Set Nat} {m m' m'' : Memory}

theorem refl (range : Set Nat) (m : Memory) : WritesWithin range m m :=
  ⟨⟨[], rfl, by simp⟩, fun _ _ => rfl⟩

theorem trans (first : WritesWithin range m m')
    (second : WritesWithin range m' m'') : WritesWithin range m m'' := by
  obtain ⟨early, earlyLog, earlyInside⟩ := first.logged
  obtain ⟨late, lateLog, lateInside⟩ := second.logged
  constructor
  · refine ⟨late ++ early, ?_, ?_⟩
    · rw [lateLog, earlyLog, List.append_assoc]
    · intro store member
      rcases List.mem_append.mp member with isLate | isEarly
      · exact lateInside store isLate
      · exact earlyInside store isEarly
  · intro position outside
    rw [second.unchanged position outside, first.unchanged position outside]

theorem mono (writes : WritesWithin range m m')
    (subset : ∀ position, position ∈ range → position ∈ other) :
    WritesWithin other m m' := by
  obtain ⟨stores, isLog, inside⟩ := writes.logged
  constructor
  · exact ⟨stores, isLog, fun store member position low high =>
      subset position (inside store member position low high)⟩
  · intro position outside
    exact writes.unchanged position fun member =>
      outside (subset position member)

/-- A word outside the range keeps its value. -/
theorem load32_eq (writes : WritesWithin range m m') {addr : Nat}
    (outside : ∀ offset, offset < 4 → addr + offset ∉ range) :
    load32 addr m' = load32 addr m :=
  load32_congr fun offset inside =>
    writes.unchanged (addr + offset) (outside offset inside)

end WritesWithin

theorem store32_writesWithin {addr : Nat} {range : Set Nat}
    (value : BitVec 32) (m : Memory)
    (inside : ∀ offset, offset < 4 → addr + offset ∈ range) :
    WritesWithin range m (store32 addr value m) := by
  have member : ∀ position, addr ≤ position → position < addr + 4 →
      position ∈ range := by
    intro position low high
    have shifted := inside (position - addr) (by omega)
    rwa [Nat.add_sub_cancel' low] at shifted
  constructor
  · refine ⟨[(addr, 4)], rfl, ?_⟩
    intro store isStore
    rw [List.mem_singleton.mp isStore]
    exact member
  · intro position outside
    apply store32_bytes_of_apart
    by_contra covered
    exact outside (member position (by omega) (by omega))

theorem store8_writesWithin {addr : Nat} {range : Set Nat}
    (value : BitVec 8) (m : Memory) (inside : addr ∈ range) :
    WritesWithin range m (store8 addr value m) := by
  constructor
  · refine ⟨[(addr, 1)], rfl, ?_⟩
    intro store isStore position low high
    rw [List.mem_singleton.mp isStore] at low high
    have same : position = addr := Nat.le_antisymm (Nat.le_of_lt_succ high) low
    rw [same]
    exact inside
  · intro position outside
    apply if_neg
    intro same
    rw [same] at outside
    exact outside inside

/-! ## Loops of stores -/

/-- Store one byte `count` times from `addr` upwards. -/
def memset (value : BitVec 8) : (count addr : Nat) → Memory → Memory
  | 0, _, m => m
  | count + 1, addr, m => memset value count (addr + 1) (m.store8 addr value)

theorem memset_writesWithin {value : BitVec 8} {range : Set Nat}
    {count addr : Nat} {m : Memory}
    (inside : ∀ offset, offset < count → addr + offset ∈ range) :
    WritesWithin range m (memset value count addr m) := by
  induction count generalizing addr m with
  | zero => exact WritesWithin.refl range m
  | succ count inductionHypothesis =>
      have first : WritesWithin range m (m.store8 addr value) :=
        store8_writesWithin value m (inside 0 (Nat.succ_pos count))
      apply first.trans
      apply inductionHypothesis
      intro offset bound
      have later := inside (offset + 1) (by omega)
      rwa [Nat.add_comm offset 1, ← Nat.add_assoc] at later

theorem memset_bytes_outside {value : BitVec 8} {count addr position : Nat}
    {m : Memory} (outside : position < addr ∨ addr + count ≤ position) :
    (memset value count addr m).bytes position = m.bytes position := by
  induction count generalizing addr m with
  | zero => rfl
  | succ count inductionHypothesis =>
      rw [memset, inductionHypothesis (by omega)]
      exact if_neg (by omega)

theorem memset_bytes_inside {value : BitVec 8} {count addr position : Nat}
    {m : Memory} (low : addr ≤ position) (high : position < addr + count) :
    (memset value count addr m).bytes position = value := by
  induction count generalizing addr m with
  | zero => omega
  | succ count inductionHypothesis =>
      rw [memset]
      by_cases first : position = addr
      · rw [memset_bytes_outside (by omega)]
        exact if_pos first
      · exact inductionHypothesis (by omega) (by omega)

/-- Store `value i` at `addr i` for `left` indices from `index` upwards. -/
def storeLoop (addr : Nat → Nat) (value : Nat → BitVec 32) :
    (left index : Nat) → Memory → Memory
  | 0, _, m => m
  | left + 1, index, m =>
      storeLoop addr value left (index + 1)
        (m.store32 (addr index) (value index))

section StoreLoop

variable {addr : Nat → Nat} {value : Nat → BitVec 32}

theorem storeLoop_writesWithin {range : Set Nat} {left index : Nat}
    {m : Memory}
    (inside : ∀ i, index ≤ i → i < index + left →
      ∀ offset, offset < 4 → addr i + offset ∈ range) :
    WritesWithin range m (storeLoop addr value left index m) := by
  induction left generalizing index m with
  | zero => exact WritesWithin.refl range m
  | succ left inductionHypothesis =>
      have first : WritesWithin range m
          (m.store32 (addr index) (value index)) :=
        store32_writesWithin _ _ (inside index (Nat.le_refl _) (by omega))
      apply first.trans
      apply inductionHypothesis
      intro i low high
      exact inside i (by omega) (by omega)

/-- A word apart from all cells of the loop keeps its value. -/
theorem storeLoop_load32_of_apart {other left index : Nat} {m : Memory}
    (apart : ∀ i, index ≤ i → i < index + left →
      addr i + 4 ≤ other ∨ other + 4 ≤ addr i) :
    load32 other (storeLoop addr value left index m) = load32 other m := by
  induction left generalizing index m with
  | zero => rfl
  | succ left inductionHypothesis =>
      rw [storeLoop, inductionHypothesis
        (fun i low high => apart i (by omega) (by omega))]
      exact load32_store32_of_apart _ _
        (apart index (Nat.le_refl _) (by omega))

/-- After the loop every cell holds its value. -/
theorem storeLoop_load32 {cell left index : Nat} {m : Memory}
    (apart : ∀ i j, index ≤ i → i < j → j < index + left →
      addr i + 4 ≤ addr j ∨ addr j + 4 ≤ addr i)
    (low : index ≤ cell) (high : cell < index + left) :
    load32 (addr cell) (storeLoop addr value left index m) = value cell := by
  induction left generalizing index m with
  | zero => exact absurd low (Nat.not_le.mpr high)
  | succ left inductionHypothesis =>
      rw [storeLoop]
      by_cases first : cell = index
      · subst cell
        rw [storeLoop_load32_of_apart, load32_store32_self]
        intro i above below
        have separated := apart index i (Nat.le_refl _) (by omega) (by omega)
        omega
      · apply inductionHypothesis _ (by omega) (by omega)
        intro i j above less below
        exact apart i j (by omega) less (by omega)

end StoreLoop

end Memory

end Hlos.Lib
