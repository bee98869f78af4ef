import Hlos.Libs.StringOrder

/-!
# `libs/string.c`: copies

Addresses are compared and moved as words.  The results hold for areas that do
not wrap around the address space.
-/

namespace Hlos.Libs.Strings

open Hlos.Lib Hlos.Include

/-- The loop of `memcpy`. -/
def memcpy (m : Memory) : (tmp s : Word) → (count : Nat) → Memory
  | _, _, 0 => m
  | tmp, s, count + 1 =>
      memcpy (m.store8 tmp.toNat (m.load8 s.toNat)) (tmp + 1) (s + 1) count

/-- The second loop of `memmove`. -/
def memcpyDown (m : Memory) : (tmp s : Word) → (count : Nat) → Memory
  | _, _, 0 => m
  | tmp, s, count + 1 =>
      memcpyDown (m.store8 (tmp - 1).toNat (m.load8 (s - 1).toNat))
        (tmp - 1) (s - 1) count

def memmove (m : Memory) (dest src : Word) (count : Nat) : Memory :=
  if dest ≤ src then memcpy m dest src count
  else
    memcpyDown m (dest + BitVec.ofNat 32 count) (src + BitVec.ofNat 32 count)
      count

/-- Copy a string with its NUL, as `strcpy` and the end of `strcat` do. -/
def strcpyLoop (m : Memory) : (fuel : Nat) → (dest src : Word) → Option Memory
  | 0, _, _ => none
  | fuel + 1, dest, src =>
      let c := m.load8 src.toNat
      let m := m.store8 dest.toNat c
      if c ≠ 0 then strcpyLoop m fuel (dest + 1) (src + 1) else some m

def strcpy (fuel : Nat) (m : Memory) (dest src : Word) : Option Memory :=
  strcpyLoop m fuel dest src

def strncpy (m : Memory) : (tmp src : Word) → (count : Nat) → Memory
  | _, _, 0 => m
  | tmp, src, count + 1 =>
      let c := m.load8 src.toNat
      let m := m.store8 tmp.toNat c
      strncpy m (tmp + 1) (if c ≠ 0 then src + 1 else src) count

/-- The memory and the length of the source. -/
def strlcpy (fuel : Nat) (m : Memory) (dest src size : Word) :
    Option (Memory × Word) := do
  let ret ← strlen fuel m src
  if size ≠ 0 then
    let len := if size ≤ ret then size - 1 else ret
    let m := memcpy m dest src len.toNat
    return (m.store8 (dest + len).toNat 0, ret)
  else return (m, ret)

def strcat (fuel : Nat) (m : Memory) (dest src : Word) : Option Memory := do
  let dest ← strlenLoop m fuel dest
  strcpyLoop m fuel dest src

/-- The second loop of `strncat`. -/
def strncatLoop (m : Memory) : (count : Nat) → (dest src : Word) → Memory
  | 0, _, _ => m
  | count + 1, dest, src =>
      let c := m.load8 src.toNat
      let m := m.store8 dest.toNat c
      if c ≠ 0 then
        if count = 0 then m.store8 (dest + 1).toNat 0
        else strncatLoop m count (dest + 1) (src + 1)
      else m

def strncat (fuel : Nat) (m : Memory) (dest src : Word) (count : Nat) :
    Option Memory :=
  if count ≠ 0 then do
    let dest ← strlenLoop m fuel dest
    return strncatLoop m count dest src
  else some m

/-- The memory and the length of the two strings.  The check that the string
in the buffer is shorter than the buffer is a comment in the source. -/
def strlcat (fuel : Nat) (m : Memory) (dest src count : Word) :
    Option (Memory × Word) := do
  let dsize ← strlen fuel m dest
  let len ← strlen fuel m src
  let res := dsize + len
  let dest := dest + dsize
  let count := count - dsize
  let len := if count ≤ len then count - 1 else len
  let m := memcpy m dest src len.toNat
  return (m.store8 (dest + len).toNat 0, res)

/-! ## Areas -/

section Areas

variable {m : Memory} {dest src : Word} {count : Nat}

theorem address_one {p : Word} (inside : p.toNat + 1 < 2 ^ 32) :
    (p + 1).toNat = p.toNat + 1 :=
  address_toNat (i := 1) inside

theorem memcpy_writesWithin (inside : dest.toNat + count ≤ 2 ^ 32)
    {range : Set Nat}
    (covered : ∀ i, i < count → dest.toNat + i ∈ range) :
    Memory.WritesWithin range m (memcpy m dest src count) := by
  induction count generalizing m dest src with
  | zero => exact Memory.WritesWithin.refl _ _
  | succ count inductionHypothesis =>
      have first : Memory.WritesWithin range m
          (m.store8 dest.toNat (m.load8 src.toNat)) :=
        Memory.store8_writesWithin _ m (covered 0 (by omega))
      apply first.trans
      by_cases more : count = 0
      · subst more
        exact Memory.WritesWithin.refl _ _
      · have isNext : (dest + 1).toNat = dest.toNat + 1 :=
          address_one (by omega)
        apply inductionHypothesis (by rw [isNext]; omega)
        intro i within
        rw [isNext, Nat.add_assoc, Nat.add_comm 1]
        exact covered (i + 1) (by omega)

theorem memcpy_unchanged (inside : dest.toNat + count ≤ 2 ^ 32)
    {position : Nat}
    (outside : position < dest.toNat ∨ dest.toNat + count ≤ position) :
    (memcpy m dest src count).bytes position = m.bytes position := by
  have writes := @memcpy_writesWithin m dest src count inside
    {position | dest.toNat ≤ position ∧ position < dest.toNat + count}
    (fun i within => ⟨by omega, by omega⟩)
  apply writes.unchanged
  intro range
  have above := range.1
  have below := range.2
  omega

theorem mod_succ (i : Nat) {gap : Nat} (positive : 0 < gap) :
    (i + 1) % gap = if i % gap + 1 = gap then 0 else i % gap + 1 := by
  have small := Nat.mod_lt i positive
  rw [← Nat.mod_add_mod]
  split_ifs with wraps
  · rw [wraps, Nat.mod_self]
  · exact Nat.mod_eq_of_lt (by omega)

/-- Copying upwards repeats what lies between the two areas when the
destination begins inside the source. -/
theorem memcpy_bytes (destInside : dest.toNat + count ≤ 2 ^ 32)
    (srcInside : src.toNat + count ≤ 2 ^ 32) {i : Nat} (within : i < count) :
    (memcpy m dest src count).bytes (dest.toNat + i) =
      m.bytes (src.toNat +
        if src < dest then i % (dest.toNat - src.toNat) else i) := by
  induction count generalizing m dest src i with
  | zero => cases within
  | succ count inductionHypothesis =>
      by_cases more : count = 0
      · subst more
        have isFirst : i = 0 := Nat.lt_one_iff.mp within
        subst isFirst
        rw [Nat.zero_mod, ite_self]
        exact if_pos rfl
      · have destNext : (dest + 1).toNat = dest.toNat + 1 :=
          address_one (by omega)
        have srcNext : (src + 1).toNat = src.toNat + 1 :=
          address_one (by omega)
        rw [memcpy]
        cases i with
        | zero =>
            rw [memcpy_unchanged (by rw [destNext]; omega)
              (Or.inl (by rw [destNext]; omega)), Nat.zero_mod, ite_self]
            exact if_pos rfl
        | succ i =>
            have later := inductionHypothesis
              (m := m.store8 dest.toNat (m.load8 src.toNat)) (i := i)
              (by rw [destNext]; omega) (by rw [srcNext]; omega) (by omega)
            have sameTest : src + 1 < dest + 1 ↔ src < dest := by
              rw [BitVec.lt_def, BitVec.lt_def, destNext, srcNext]
              exact Nat.add_lt_add_iff_right
            simp only [sameTest, destNext, srcNext, Nat.add_sub_add_right]
              at later
            rw [← Nat.add_assoc, Nat.add_right_comm, later]
            by_cases below : src < dest
            · have gap := BitVec.lt_def.mp below
              rw [if_pos below, if_pos below, mod_succ i (by omega)]
              split_ifs with wraps
              · have atDest : src.toNat + 1 +
                    i % (dest.toNat - src.toNat) = dest.toNat := by omega
                rw [atDest]
                exact if_pos rfl
              · rw [Nat.add_assoc, Nat.add_comm 1]
                exact if_neg (by omega)
            · have above : ¬ src.toNat < dest.toNat :=
                fun less => below (BitVec.lt_def.mpr less)
              rw [if_neg below, if_neg below, Nat.add_assoc, Nat.add_comm 1]
              exact if_neg (by omega)

theorem memcpyDown_writesWithin (inside : dest.toNat + count ≤ 2 ^ 32) :
    Memory.WritesWithin
      {position | dest.toNat ≤ position ∧ position < dest.toNat + count} m
      (memcpyDown m (dest + BitVec.ofNat 32 count)
        (src + BitVec.ofNat 32 count) count) := by
  induction count generalizing m with
  | zero => exact Memory.WritesWithin.refl _ _
  | succ count inductionHypothesis =>
      have back (p : Word) : p + BitVec.ofNat 32 (count + 1) - 1 =
          p + BitVec.ofNat 32 count := by bv_omega
      rw [memcpyDown, back, back, address_toNat (by omega)]
      have first : Memory.WritesWithin
          {position | dest.toNat ≤ position ∧
            position < dest.toNat + (count + 1)} m
          (m.store8 (dest.toNat + count)
            (m.load8 (src + BitVec.ofNat 32 count).toNat)) :=
        Memory.store8_writesWithin _ m ⟨by omega, by omega⟩
      apply first.trans
      apply (inductionHypothesis (by omega)).mono
      intro position range
      have above := range.1
      have below := range.2
      exact ⟨by omega, by omega⟩

theorem memcpyDown_bytes (inside : dest.toNat + count ≤ 2 ^ 32)
    (above : src.toNat ≤ dest.toNat) {i : Nat} (within : i < count) :
    (memcpyDown m (dest + BitVec.ofNat 32 count)
        (src + BitVec.ofNat 32 count) count).bytes (dest.toNat + i) =
      m.bytes (src.toNat + i) := by
  induction count generalizing m with
  | zero => cases within
  | succ count inductionHypothesis =>
      have back (p : Word) : p + BitVec.ofNat 32 (count + 1) - 1 =
          p + BitVec.ofNat 32 count := by bv_omega
      have destTop : (dest + BitVec.ofNat 32 count).toNat =
          dest.toNat + count := address_toNat (by omega)
      have srcTop : (src + BitVec.ofNat 32 count).toNat =
          src.toNat + count := address_toNat (by omega)
      rw [memcpyDown, back, back, destTop, srcTop]
      by_cases isLast : i = count
      · subst isLast
        have untouched := (@memcpyDown_writesWithin
          (m.store8 (dest.toNat + i) (m.load8 (src.toNat + i))) dest src i
          (by omega)).unchanged (dest.toNat + i) (fun range => by
            have below := range.2
            omega)
        rw [untouched]
        exact if_pos rfl
      · rw [inductionHypothesis (by omega) (by omega)]
        exact if_neg (by omega)

/-- `memmove` copies the source as it was, whatever the overlap.  `memcpy`
does so too unless the destination begins inside the source: then it repeats
the bytes before the destination. -/
theorem copies_overlap (destInside : dest.toNat + count ≤ 2 ^ 32)
    (srcInside : src.toNat + count ≤ 2 ^ 32) :
    (∀ i, i < count → (memmove m dest src count).bytes (dest.toNat + i) =
      m.bytes (src.toNat + i)) ∧
    (∀ i, i < count → (memcpy m dest src count).bytes (dest.toNat + i) =
      m.bytes (src.toNat +
        if src < dest then i % (dest.toNat - src.toNat) else i)) ∧
    (∀ position,
      position < dest.toNat ∨ dest.toNat + count ≤ position →
        (memmove m dest src count).bytes position = m.bytes position ∧
          (memcpy m dest src count).bytes position = m.bytes position) := by
  refine ⟨?_, fun i within => memcpy_bytes destInside srcInside within, ?_⟩
  · intro i within
    rw [memmove]
    split_ifs with below
    · rw [memcpy_bytes destInside srcInside within,
        if_neg (fun less => absurd (BitVec.lt_def.mp less)
          (Nat.not_lt.mpr (BitVec.le_def.mp below)))]
    · have above : src.toNat ≤ dest.toNat :=
        Nat.le_of_not_le fun le => below (BitVec.le_def.mpr le)
      exact memcpyDown_bytes destInside above within
  · intro position outside
    refine ⟨?_, memcpy_unchanged destInside outside⟩
    rw [memmove]
    split_ifs with below
    · exact memcpy_unchanged destInside outside
    · apply (memcpyDown_writesWithin destInside).unchanged
      intro range
      have above := range.1
      have inRange := range.2
      omega

end Areas

/-! ## Strings in buffers -/

section Buffers

variable {m : Memory} {dest src : Word} {bytes text : List (BitVec 8)}
variable {fuel : Nat}

/-- The bytes of an area. -/
def area (start : Word) (size : Nat) : Set Nat :=
  {position | start.toNat ≤ position ∧ position < start.toNat + size}

/-- A string, with its NUL, that lies apart from an area. -/
structure ApartFrom (src : Word) (text : List (BitVec 8)) (dest : Word)
    (size : Nat) : Prop where
  inside : src.toNat + text.length < 2 ^ 32
  apart : src.toNat + text.length < dest.toNat ∨
    dest.toNat + size ≤ src.toNat

theorem memcpy_copies (at_ : BytesAt m src bytes)
    (destInside : dest.toNat + bytes.length ≤ 2 ^ 32)
    (srcInside : src.toNat + bytes.length ≤ 2 ^ 32)
    (apart : src.toNat + bytes.length ≤ dest.toNat ∨
      dest.toNat + bytes.length ≤ src.toNat) :
    BytesAt (memcpy m dest src bytes.length) dest bytes := by
  rw [bytesAt_iff] at at_ ⊢
  intro i within
  have isByte := at_ i within
  rw [address_toNat (by omega)] at isByte ⊢
  rw [← isByte]
  refine (memcpy_bytes destInside srcInside within).trans ?_
  split_ifs with below
  · have gap := BitVec.lt_def.mp below
    rw [Nat.mod_eq_of_lt (by omega)]
    rfl
  · rfl

/-- Bytes that are followed by a stored NUL. -/
theorem textAt_store (at_ : BytesAt m dest bytes) (nonzero : 0 ∉ bytes)
    (inside : dest.toNat + bytes.length < 2 ^ 32) :
    TextAt (m.store8 (dest.toNat + bytes.length) 0) dest bytes := by
  refine ⟨bytesAt_append.mpr ⟨?_, ?_, trivial⟩, nonzero⟩
  · apply at_.congr
    intro i within
    rw [address_toNat (by omega)]
    exact if_neg (by omega)
  · rw [address_toNat inside]
    exact if_pos rfl

/-- Copy the head of a string and end it: the common tail of `strlcpy` and
`strlcat`. -/
theorem copy_head (srcAt : TextAt m src text) {len : Nat}
    (head : len ≤ text.length) {size : Nat} (fits : len < size)
    (inside : dest.toNat + size ≤ 2 ^ 32)
    (apart : ApartFrom src text dest size) :
    TextAt ((memcpy m dest src len).store8 (dest.toNat + len) 0) dest
        (text.take len) ∧
      Memory.WritesWithin (area dest size) m
        ((memcpy m dest src len).store8 (dest.toNat + len) 0) := by
  have isLength := List.length_take_of_le head
  have srcInside := apart.inside
  have apart' := apart.apart
  constructor
  · have copied := memcpy_copies
      (srcAt.front.initial (List.take_prefix len text))
      (show dest.toNat + (text.take len).length ≤ 2 ^ 32 by omega)
      (by omega) (by omega)
    have ended := textAt_store copied
      (fun member => srcAt.nonzero (List.mem_of_mem_take member)) (by omega)
    rwa [isLength] at ended
  · have copied : Memory.WritesWithin (area dest size) m
        (memcpy m dest src len) :=
      memcpy_writesWithin (by omega) fun i within => ⟨by omega, by omega⟩
    exact copied.trans
      (Memory.store8_writesWithin _ _ ⟨by omega, by omega⟩)

/-- `strlcpy` keeps as much of the string as fits with its NUL, writes to the
buffer only and returns the length of the whole string. -/
theorem strlcpy_truncates (srcAt : TextAt m src text) {size : Word}
    (inside : dest.toNat + size.toNat ≤ 2 ^ 32)
    (apart : ApartFrom src text dest size.toNat)
    (enough : text.length < fuel) :
    ∃ m', strlcpy fuel m dest src size =
        some (m', BitVec.ofNat 32 text.length) ∧
      (size ≠ 0 → TextAt m' dest (text.take (size.toNat - 1))) ∧
      Memory.WritesWithin (area dest size.toNat) m m' := by
  have small := srcAt.length_lt
  have isLength : (BitVec.ofNat 32 text.length).toNat = text.length := by
    rw [BitVec.toNat_ofNat, Nat.mod_eq_of_lt small]
  simp only [strlcpy, strlen_spec srcAt enough, Option.bind_eq_bind,
    Option.bind_some, Option.pure_def]
  by_cases isZero : size = 0
  · subst isZero
    rw [if_neg (not_not_intro rfl)]
    exact ⟨m, rfl, fun notZero => absurd rfl notZero,
      Memory.WritesWithin.refl _ _⟩
  · rw [if_pos isZero]
    have positive : 0 < size.toNat := Nat.pos_of_ne_zero fun zero =>
      isZero (BitVec.eq_of_toNat_eq zero)
    have isLen :
        (if size ≤ BitVec.ofNat 32 text.length then size - 1
          else BitVec.ofNat 32 text.length).toNat =
          min (size.toNat - 1) text.length := by
      split_ifs with long
      · rw [BitVec.le_def, isLength] at long
        have lessOne : (size - 1).toNat = size.toNat - 1 :=
          BitVec.toNat_sub_of_le (BitVec.le_def.mpr positive)
        rw [lessOne, min_eq_left (by omega)]
      · rw [BitVec.le_def, isLength] at long
        rw [isLength, min_eq_right (by omega)]
    obtain ⟨isText, writes⟩ := copy_head srcAt
      (show min (size.toNat - 1) text.length ≤ text.length by omega)
      (show min (size.toNat - 1) text.length < size.toNat by omega) inside apart
    refine ⟨_, rfl, ?_, ?_⟩
    · intro _
      rw [BitVec.toNat_add, isLen, Nat.mod_eq_of_lt (by omega)]
      rwa [← List.take_take, List.take_length] at isText
    · rw [BitVec.toNat_add, isLen, Nat.mod_eq_of_lt (by omega)]
      exact writes

theorem ApartFrom.tail {c : BitVec 8} {size : Nat}
    (apart : ApartFrom src (c :: text) dest (size + 1))
    (destInside : dest.toNat + 1 < 2 ^ 32) :
    ApartFrom (src + 1) text (dest + 1) size := by
  have inside := apart.inside
  have either := apart.apart
  rw [List.length_cons] at inside either
  have srcNext : (src + 1).toNat = src.toNat + 1 := address_one (by omega)
  refine ⟨?_, ?_⟩
  · rw [srcNext]
    omega
  · rw [srcNext, address_one destInside]
    omega

/-- A string is not touched by a store to the area it lies apart from. -/
theorem ApartFrom.store {size : Nat} (apart : ApartFrom src text dest size)
    (srcAt : TextAt m src text) (positive : 0 < size) (c : BitVec 8) :
    TextAt (m.store8 dest.toNat c) src text := by
  have inside := apart.inside
  have either := apart.apart
  apply srcAt.congr
  intro i within
  rw [address_toNat (by omega)]
  exact if_neg (by omega)

theorem store_area {size : Nat} (positive : 0 < size) (c : BitVec 8) :
    Memory.WritesWithin (area dest size) m (m.store8 dest.toNat c) :=
  Memory.store8_writesWithin _ _
    ⟨Nat.le_refl _, Nat.lt_add_of_pos_right positive⟩

theorem area_next {size position : Nat} (destInside : dest.toNat + 1 < 2 ^ 32)
    (member : position ∈ area (dest + 1) size) :
    position ∈ area dest (size + 1) := by
  have above := member.1
  have below := member.2
  rw [address_one destInside] at above below
  exact ⟨by omega, by omega⟩

/-- Bytes behind the first one are stored after it. -/
theorem bytesAt_cons {m' : Memory} {c : BitVec 8} {size : Nat}
    (destInside : dest.toNat + 1 < 2 ^ 32)
    (writes : Memory.WritesWithin (area (dest + 1) size)
      (m.store8 dest.toNat c) m')
    (rest : BytesAt m' (dest + 1) bytes) : BytesAt m' dest (c :: bytes) := by
  refine ⟨?_, rest⟩
  refine (writes.unchanged dest.toNat ?_).trans (if_pos rfl)
  intro range
  have above := range.1
  rw [address_one destInside] at above
  omega

/-- `strncpy` fills the buffer: with the head of the string, and with NUL where
the string is shorter. -/
theorem strncpy_spec {count : Nat} (srcAt : TextAt m src text)
    (inside : dest.toNat + count < 2 ^ 32)
    (apart : ApartFrom src text dest count) :
    BytesAt (strncpy m dest src count) dest
        (text.take count ++ List.replicate (count - text.length) 0) ∧
      Memory.WritesWithin (area dest count) m (strncpy m dest src count) := by
  induction count generalizing m dest src text with
  | zero => exact ⟨by simp [BytesAt], Memory.WritesWithin.refl _ _⟩
  | succ count inductionHypothesis =>
      have destNext : (dest + 1).toNat = dest.toNat + 1 :=
        address_one (by omega)
      have destInside : dest.toNat + 1 < 2 ^ 32 := by omega
      rw [strncpy, srcAt.head]
      cases text with
      | nil =>
          have again : ApartFrom src [] (dest + 1) count := by
            have srcInside := apart.inside
            have either := apart.apart
            exact ⟨srcInside, by rw [destNext]; omega⟩
          obtain ⟨filled, writes⟩ := inductionHypothesis
            (apart.store srcAt (Nat.succ_pos count) 0)
            (by rw [destNext]; omega) again
          refine ⟨?_, (store_area (Nat.succ_pos count) 0).trans
            (writes.mono fun position => area_next destInside)⟩
          have zeros : ([] : List (BitVec 8)).take (count + 1) ++
              List.replicate (count + 1 - ([] : List (BitVec 8)).length) 0 =
              0 :: List.replicate count 0 := rfl
          rw [zeros]
          exact bytesAt_cons destInside writes (by simpa using filled)
      | cons c text =>
          obtain ⟨-, notNul, -⟩ := textAt_cons.mp srcAt
          have srcKept := apart.store srcAt (Nat.succ_pos count) c
          obtain ⟨-, -, restAt⟩ := textAt_cons.mp srcKept
          obtain ⟨filled, writes⟩ := inductionHypothesis restAt
            (by rw [destNext]; omega) (apart.tail destInside)
          rw [List.headD_cons, if_pos notNul]
          refine ⟨?_, (store_area (Nat.succ_pos count) c).trans
            (writes.mono fun position => area_next destInside)⟩
          rw [List.take_succ_cons, List.cons_append, List.length_cons,
            Nat.add_sub_add_right]
          exact bytesAt_cons destInside writes filled

/-- The loop of `strncat` copies the head of the string and ends it. -/
theorem strncatLoop_spec {count : Nat} (srcAt : TextAt m src text)
    (inside : dest.toNat + (count + 1) < 2 ^ 32)
    (apart : ApartFrom src text dest (count + 1)) (positive : 0 < count) :
    TextAt (strncatLoop m count dest src) dest (text.take count) ∧
      Memory.WritesWithin (area dest (count + 1)) m
        (strncatLoop m count dest src) := by
  induction count generalizing m dest src text with
  | zero => cases positive
  | succ count inductionHypothesis =>
      have destInside : dest.toNat + 1 < 2 ^ 32 := by omega
      have destNext := address_one destInside
      rw [strncatLoop, srcAt.head]
      cases text with
      | nil =>
          refine ⟨textAt_nil.mpr (if_pos rfl), store_area (by omega) 0⟩
      | cons c text =>
          obtain ⟨-, notNul, -⟩ := textAt_cons.mp srcAt
          rw [List.headD_cons, if_pos notNul]
          by_cases isLast : count = 0
          · subst isLast
            rw [if_pos rfl, destNext]
            refine ⟨?_, (store_area (by omega) c).trans
              (Memory.store8_writesWithin _ _ ⟨by omega, by omega⟩)⟩
            refine textAt_cons.mpr ⟨?_, notNul, textAt_nil.mpr ?_⟩
            · exact (if_neg (by omega)).trans (if_pos rfl)
            · rw [destNext]
              exact if_pos rfl
          · have srcKept := apart.store srcAt (by omega) c
            obtain ⟨-, -, restAt⟩ := textAt_cons.mp srcKept
            obtain ⟨isText, writes⟩ := inductionHypothesis restAt
              (by rw [destNext]; omega) (apart.tail destInside)
              (Nat.pos_of_ne_zero isLast)
            rw [if_neg isLast]
            refine ⟨?_, (store_area (by omega) c).trans
              (writes.mono fun position => area_next destInside)⟩
            rw [List.take_succ_cons]
            refine textAt_cons.mpr ⟨?_, notNul, isText⟩
            have first : BytesAt _ dest [c] :=
              bytesAt_cons destInside writes trivial
            exact first.1

/-- A string stored behind another, over its NUL, makes one string of both. -/
theorem textAt_appended {m' : Memory} {a b : List (BitVec 8)} {size : Nat}
    (destAt : TextAt m dest a) (inside : dest.toNat + a.length < 2 ^ 32)
    (isText : TextAt m' (dest + BitVec.ofNat 32 a.length) b)
    (writes : Memory.WritesWithin
      (area (dest + BitVec.ofNat 32 a.length) size) m m') :
    TextAt m' dest (a ++ b) := by
  have front := destAt.front.congr fun i within =>
    writes.unchanged _ fun range => by
      have above := range.1
      rw [address_toNat inside, address_toNat (by omega)] at above
      omega
  refine ⟨?_, ?_⟩
  · rw [List.append_assoc, bytesAt_append]
    exact ⟨front, isText.bytes⟩
  · intro member
    rcases List.mem_append.mp member with inFirst | inSecond
    · exact destAt.nonzero inFirst
    · exact isText.nonzero inSecond

/-- What lies apart from a buffer lies apart from its end. -/
theorem ApartFrom.later {skip size : Nat}
    (apart : ApartFrom src text dest (skip + size))
    (inside : dest.toNat + skip < 2 ^ 32) :
    ApartFrom src text (dest + BitVec.ofNat 32 skip) size := by
  have srcInside := apart.inside
  have either := apart.apart
  exact ⟨srcInside, by rw [address_toNat inside]; omega⟩

theorem strncat_spec {a b : List (BitVec 8)} {count : Nat}
    (destAt : TextAt m dest a) (srcAt : TextAt m src b)
    (inside : dest.toNat + a.length + (count + 1) < 2 ^ 32)
    (apart : ApartFrom src b dest (a.length + (count + 1)))
    (enough : a.length < fuel) :
    ∃ m', strncat fuel m dest src count = some m' ∧
      TextAt m' dest (a ++ b.take count) ∧
      Memory.WritesWithin
        (area (dest + BitVec.ofNat 32 a.length) (count + 1)) m m' := by
  rw [strncat]
  by_cases isZero : count = 0
  · subst isZero
    rw [if_neg (not_not_intro rfl)]
    exact ⟨m, rfl, by simpa using destAt, Memory.WritesWithin.refl _ _⟩
  · rw [if_pos isZero, strlenLoop_spec destAt enough]
    have isStart : (dest + BitVec.ofNat 32 a.length).toNat =
        dest.toNat + a.length := address_toNat (by omega)
    obtain ⟨isText, writes⟩ := strncatLoop_spec srcAt
      (by rw [isStart]; omega) (apart.later (by omega))
      (Nat.pos_of_ne_zero isZero)
    exact ⟨_, rfl, textAt_appended destAt (by omega) isText writes, writes⟩

/-- Which bytes lie in an area. -/
theorem bytesAt_mem_iff (at_ : BytesAt m dest bytes)
    (inside : dest.toNat + bytes.length < 2 ^ 32) (c : BitVec 8) :
    (∃ i, i < bytes.length ∧ m.bytes (dest.toNat + i) = c) ↔ c ∈ bytes := by
  rw [bytesAt_iff] at at_
  have byte (i : Nat) (within : i < bytes.length) :
      m.bytes (dest.toNat + i) = bytes[i] := by
    rw [← address_toNat (p := dest) (by omega)]
    exact at_ i within
  rw [List.mem_iff_getElem]
  constructor
  · rintro ⟨i, within, isByte⟩
    exact ⟨i, within, (byte i within).symm.trans isByte⟩
  · rintro ⟨i, within, isByte⟩
    exact ⟨i, within, (byte i within).trans isByte⟩

/-- The counted copies.  `strncpy` stores exactly `count` bytes, so the NUL is
missing when the string is not shorter; `strncat` appends at most `count`
characters and always stores a NUL. -/
theorem counted_copies {b : List (BitVec 8)} (srcAt : TextAt m src b)
    (count : Nat) :
    (dest.toNat + count < 2 ^ 32 → ApartFrom src b dest count →
      BytesAt (strncpy m dest src count) dest
          (b.take count ++ List.replicate (count - b.length) 0) ∧
        ((∃ i, i < count ∧
          (strncpy m dest src count).bytes (dest.toNat + i) = 0) ↔
            b.length < count) ∧
        Memory.WritesWithin (area dest count) m (strncpy m dest src count)) ∧
    ∀ a, TextAt m dest a →
      dest.toNat + a.length + (count + 1) < 2 ^ 32 →
      ApartFrom src b dest (a.length + (count + 1)) → a.length < fuel →
      ∃ m', strncat fuel m dest src count = some m' ∧
        TextAt m' dest (a ++ b.take count) ∧
        Memory.WritesWithin
          (area (dest + BitVec.ofNat 32 a.length) (count + 1)) m m' := by
  constructor
  · intro inside apart
    obtain ⟨filled, writes⟩ := strncpy_spec srcAt inside apart
    have length : (b.take count ++
        List.replicate (count - b.length) 0).length = count := by
      rw [List.length_append, List.length_take, List.length_replicate]
      omega
    have nul := bytesAt_mem_iff filled (by rw [length]; exact inside) 0
    rw [length] at nul
    refine ⟨filled, nul.trans ?_, writes⟩
    rw [List.mem_append, List.mem_replicate]
    constructor
    · rintro (inHead | ⟨padded, -⟩)
      · exact absurd (List.mem_of_mem_take inHead) srcAt.nonzero
      · omega
    · exact fun shorter => Or.inr ⟨by omega, rfl⟩
  · intro a destAt inside apart enough
    exact strncat_spec destAt srcAt inside apart enough

/-- The loop of `strcpy` and `strcat` copies a string with its NUL. -/
theorem strcpyLoop_spec (srcAt : TextAt m src text)
    (inside : dest.toNat + (text.length + 1) < 2 ^ 32)
    (apart : ApartFrom src text dest (text.length + 1))
    (enough : text.length < fuel) :
    ∃ m', strcpyLoop m fuel dest src = some m' ∧ TextAt m' dest text ∧
      Memory.WritesWithin (area dest (text.length + 1)) m m' := by
  induction text generalizing m dest src fuel with
  | nil =>
      obtain ⟨fuel, rfl⟩ := Nat.exists_eq_add_one.mpr enough
      refine ⟨m.store8 dest.toNat 0, ?_, textAt_nil.mpr (if_pos rfl),
        store_area (Nat.succ_pos 0) 0⟩
      rw [strcpyLoop, textAt_nil.mp srcAt]
      rfl
  | cons c text inductionHypothesis =>
      obtain ⟨fuel, rfl⟩ := Nat.exists_eq_add_one.mpr (Nat.zero_lt_of_lt enough)
      rw [List.length_cons] at inside apart enough
      have destInside : dest.toNat + 1 < 2 ^ 32 := by omega
      obtain ⟨first, notNul, -⟩ := textAt_cons.mp srcAt
      have srcKept := apart.store srcAt (Nat.succ_pos _) c
      obtain ⟨-, -, restAt⟩ := textAt_cons.mp srcKept
      obtain ⟨m', run, isText, writes⟩ := inductionHypothesis restAt
        (by rw [address_one destInside]; omega) (apart.tail destInside)
        (Nat.lt_of_succ_lt_succ enough)
      refine ⟨m', ?_, textAt_cons.mpr ⟨?_, notNul, isText⟩, ?_⟩
      · rw [strcpyLoop, first, if_pos notNul]
        exact run
      · have stored : BytesAt m' dest [c] :=
          bytesAt_cons destInside writes trivial
        exact stored.1
      · exact (store_area (Nat.succ_pos _) c).trans
          (writes.mono fun position => area_next destInside)

/-- The copies without a count.  `strcpy` leaves the string in the buffer, and
`strcat` leaves it behind the one that is there. -/
theorem whole_copies {b : List (BitVec 8)} (srcAt : TextAt m src b)
    (enough : b.length < fuel) :
    (dest.toNat + (b.length + 1) < 2 ^ 32 →
      ApartFrom src b dest (b.length + 1) →
      ∃ m', strcpy fuel m dest src = some m' ∧ TextAt m' dest b ∧
        Memory.WritesWithin (area dest (b.length + 1)) m m') ∧
    ∀ a, TextAt m dest a →
      dest.toNat + a.length + (b.length + 1) < 2 ^ 32 →
      ApartFrom src b dest (a.length + (b.length + 1)) → a.length < fuel →
      ∃ m', strcat fuel m dest src = some m' ∧ TextAt m' dest (a ++ b) ∧
        Memory.WritesWithin
          (area (dest + BitVec.ofNat 32 a.length) (b.length + 1)) m m' := by
  constructor
  · intro inside apart
    exact strcpyLoop_spec srcAt inside apart enough
  · intro a destAt inside apart destEnough
    have isStart : (dest + BitVec.ofNat 32 a.length).toNat =
        dest.toNat + a.length := address_toNat (by omega)
    obtain ⟨m', run, isText, writes⟩ := strcpyLoop_spec srcAt
      (by rw [isStart]; omega) (apart.later (by omega)) enough
    refine ⟨m', ?_, textAt_appended destAt (by omega) isText writes, writes⟩
    rw [strcat, strlenLoop_spec destAt destEnough]
    exact run

/-- The first byte that a copy stores stays in the log. -/
theorem memcpy_log (m : Memory) (tmp s : Word) (count : Nat) :
    ∃ before, (memcpy m tmp s (count + 1)).log =
      before ++ (tmp.toNat, 1) :: m.log := by
  induction count generalizing m tmp s with
  | zero => exact ⟨[], rfl⟩
  | succ count inductionHypothesis =>
      obtain ⟨before, isLog⟩ := inductionHypothesis
        (m.store8 tmp.toNat (m.load8 s.toNat)) (tmp + 1) (s + 1)
      exact ⟨before ++ [((tmp + 1).toNat, 1)], by
        rw [memcpy, isLog, List.append_assoc]
        rfl⟩

/-- A copy that is ended with NUL stores at its start in any case. -/
theorem ended_log (m : Memory) (tmp s len : Word) :
    ∃ before, ((memcpy m tmp s len.toNat).store8 (tmp + len).toNat 0).log =
      before ++ (tmp.toNat, 1) :: m.log := by
  cases isLen : len.toNat with
  | zero =>
      have isZero : len = 0 := BitVec.eq_of_toNat_eq isLen
      subst isZero
      refine ⟨[], ?_⟩
      rw [show tmp + 0 = tmp from BitVec.add_zero tmp]
      rfl
  | succ count =>
      obtain ⟨before, isLog⟩ := memcpy_log m tmp s count
      refine ⟨((tmp + len).toNat, 1) :: before, ?_⟩
      rw [List.cons_append, ← isLog]
      rfl

theorem not_writesWithin {m' : Memory} {range : Set Nat} {position : Nat}
    {before : List (Nat × Nat)}
    (isLog : m'.log = before ++ (position, 1) :: m.log)
    (outside : position ∉ range) : ¬ Memory.WritesWithin range m m' := by
  intro writes
  obtain ⟨stores, isStores, inside⟩ := writes.logged
  rw [isLog, ← List.singleton_append, ← List.append_assoc] at isStores
  have same := List.append_cancel_right isStores
  exact outside (inside (position, 1) (by simp [← same]) position
    (Nat.le_refl _) (Nat.lt_succ_self _))

/-- What `strlcat` does behind the string in the buffer. -/
theorem strlcat_eq {a b : List (BitVec 8)} {count : Word}
    (destAt : TextAt m dest a) (srcAt : TextAt m src b)
    (enough : a.length < fuel) (srcEnough : b.length < fuel) :
    let dsize := BitVec.ofNat 32 a.length
    let length := BitVec.ofNat 32 b.length
    let len := if count - dsize ≤ length then count - dsize - 1 else length
    strlcat fuel m dest src count =
      some ((memcpy m (dest + dsize) src len.toNat).store8
        (dest + dsize + len).toNat 0, dsize + length) := by
  simp only [strlcat, strlen_spec destAt enough, strlen_spec srcAt srcEnough,
    Option.bind_eq_bind, Option.bind_some, Option.pure_def]

/-- `strlcat` appends as much as fits with its NUL and returns the length of
the two strings, if the string in the buffer is shorter than the buffer.
Otherwise the room wraps around and the buffer is overrun. -/
theorem strlcat_inside_iff {a b : List (BitVec 8)} {count : Word}
    (destAt : TextAt m dest a) (srcAt : TextAt m src b)
    (inside : dest.toNat + count.toNat ≤ 2 ^ 32)
    (destInside : dest.toNat + a.length < 2 ^ 32)
    (apart : ApartFrom src b dest count.toNat)
    (enough : a.length < fuel) (srcEnough : b.length < fuel) :
    ∃ m', strlcat fuel m dest src count =
        some (m', BitVec.ofNat 32 (a.length + b.length)) ∧
      (Memory.WritesWithin (area dest count.toNat) m m' ↔
        a.length < count.toNat) ∧
      (a.length < count.toNat →
        TextAt m' dest ((a ++ b).take (count.toNat - 1))) := by
  have run := @strlcat_eq m dest src fuel a b count destAt srcAt enough
    srcEnough
  simp only at run
  rw [← BitVec.ofNat_add] at run
  have smallSrc := srcAt.length_lt
  have isStart := address_toNat destInside
  refine ⟨_, run, ?_⟩
  by_cases fits : a.length < count.toNat
  · have isRoom : (count - BitVec.ofNat 32 a.length).toNat =
        count.toNat - a.length := by
      rw [BitVec.toNat_sub_of_le (by
        rw [BitVec.le_def, BitVec.toNat_ofNat]
        omega), BitVec.toNat_ofNat, Nat.mod_eq_of_lt (by omega)]
    have isLength : (BitVec.ofNat 32 b.length).toNat = b.length := by
      rw [BitVec.toNat_ofNat, Nat.mod_eq_of_lt smallSrc]
    have isLen :
        (if count - BitVec.ofNat 32 a.length ≤ BitVec.ofNat 32 b.length then
            count - BitVec.ofNat 32 a.length - 1
          else BitVec.ofNat 32 b.length).toNat =
          min (count.toNat - a.length - 1) b.length := by
      split_ifs with long
      · rw [BitVec.le_def, isRoom, isLength] at long
        have lessOne : (count - BitVec.ofNat 32 a.length - 1).toNat =
            count.toNat - a.length - 1 := by
          rw [BitVec.toNat_sub_of_le (by
            rw [BitVec.le_def, isRoom]
            exact Nat.sub_pos_of_lt fits), isRoom]
          rfl
        rw [lessOne, min_eq_left (by omega)]
      · rw [BitVec.le_def, isRoom, isLength] at long
        rw [isLength, min_eq_right (by omega)]
    have apart' : ApartFrom src b (dest + BitVec.ofNat 32 a.length)
        (count.toNat - a.length) := by
      have srcInside := apart.inside
      have either := apart.apart
      exact ⟨srcInside, by rw [isStart]; omega⟩
    obtain ⟨isText, writes⟩ := copy_head srcAt
      (show min (count.toNat - a.length - 1) b.length ≤ b.length by omega)
      (show min (count.toNat - a.length - 1) b.length <
        count.toNat - a.length by omega)
      (show (dest + BitVec.ofNat 32 a.length).toNat +
        (count.toNat - a.length) ≤ 2 ^ 32 by omega) apart'
    have isEnd : (dest + BitVec.ofNat 32 a.length).toNat +
        min (count.toNat - a.length - 1) b.length < 2 ^ 32 := by omega
    rw [BitVec.toNat_add (dest + BitVec.ofNat 32 a.length), isLen,
      Nat.mod_eq_of_lt isEnd]
    refine ⟨iff_of_true (writes.mono ?_) fits, fun _ => ?_⟩
    · intro position range
      have above := range.1
      have below := range.2
      exact ⟨by omega, by omega⟩
    · have cut : (a ++ b).take (count.toNat - 1) =
          a ++ b.take (min (count.toNat - a.length - 1) b.length) := by
        rw [List.take_append, List.take_of_length_le (by omega),
          ← List.take_take, List.take_length]
        congr 2
        omega
      rw [cut]
      exact textAt_appended destAt destInside isText writes
  · refine ⟨iff_of_false ?_ fits, fun inside => absurd inside fits⟩
    obtain ⟨before, isLog⟩ := ended_log m (dest + BitVec.ofNat 32 a.length) src
      (if count - BitVec.ofNat 32 a.length ≤ BitVec.ofNat 32 b.length then
          count - BitVec.ofNat 32 a.length - 1
        else BitVec.ofNat 32 b.length)
    apply not_writesWithin isLog
    intro range
    have below := range.2
    rw [isStart] at below
    omega

end Buffers

/-- `memmove` up and `memcpy` up by two, inside the strings `aB` and `abc`. -/
theorem copies_overlap_example :
    (memmove exampleStrings 0x102 0x100 4).bytes 0x105 = 0x61 ∧
      (memcpy exampleStrings 0x102 0x100 4).bytes 0x105 = 0x42 := by
  obtain ⟨moved, copied, -⟩ :=
    @copies_overlap exampleStrings 0x102 0x100 4 (by decide) (by decide)
  exact ⟨(moved 3 (by simp)).trans (by decide),
    (copied 3 (by simp)).trans (by decide)⟩

/-- The first two characters of `abc` to a free place, and the first one of
`aB` behind `abc`. -/
theorem counted_copies_example :
    (BytesAt (strncpy exampleStrings 0x200 0x103 2) 0x200 [0x61, 0x62] ∧
      ¬ ∃ i, i < 2 ∧
        (strncpy exampleStrings 0x200 0x103 2).bytes (0x200 + i) = 0) ∧
    ∃ m', strncat 4 exampleStrings 0x103 0x100 1 = some m' ∧
      TextAt m' 0x103 [0x61, 0x62, 0x63, 0x61] := by
  obtain ⟨copied, -⟩ :=
    @counted_copies exampleStrings 0x200 0x103 4 _ exampleStrings_second 2
  obtain ⟨filled, nul, -⟩ := copied (by decide) ⟨by decide, by decide⟩
  obtain ⟨-, appended⟩ :=
    @counted_copies exampleStrings 0x103 0x100 4 _ exampleStrings_first 1
  obtain ⟨m', run, isText, -⟩ := appended _ exampleStrings_second (by decide)
    ⟨by decide, by decide⟩ (by decide)
  exact ⟨⟨filled, fun found => absurd (nul.mp found) (by decide)⟩, m', run,
    isText⟩

/-- `abc` to a free place, and `aB` behind `abc`. -/
theorem whole_copies_example :
    (∃ m', strcpy 4 exampleStrings 0x200 0x103 = some m' ∧
      TextAt m' 0x200 [0x61, 0x62, 0x63]) ∧
    ∃ m', strcat 4 exampleStrings 0x103 0x100 = some m' ∧
      TextAt m' 0x103 [0x61, 0x62, 0x63, 0x61, 0x42] := by
  obtain ⟨copied, -⟩ :=
    @whole_copies exampleStrings 0x200 0x103 4 _ exampleStrings_second
      (by decide)
  obtain ⟨m₁, run₁, isText₁, -⟩ := copied (by decide) ⟨by decide, by decide⟩
  obtain ⟨-, appended⟩ :=
    @whole_copies exampleStrings 0x103 0x100 4 _ exampleStrings_first
      (by decide)
  obtain ⟨m₂, run₂, isText₂, -⟩ := appended _ exampleStrings_second (by decide)
    ⟨by decide, by decide⟩ (by decide)
  exact ⟨⟨m₁, run₁, isText₁⟩, m₂, run₂, isText₂⟩

theorem strlcpy_truncates_example :
    ∃ m', strlcpy 4 exampleStrings 0x200 0x103 3 = some (m', 3) ∧
      TextAt m' 0x200 [0x61, 0x62] := by
  obtain ⟨m', run, isText, -⟩ :=
    @strlcpy_truncates exampleStrings 0x200 0x103 _ 4 exampleStrings_second 3
      (by decide) ⟨by decide, by decide⟩ (by decide)
  exact ⟨m', run, isText (by decide)⟩

theorem strlcat_inside_example :
    ∃ m', strlcat 4 exampleStrings 0x100 0x103 2 = some (m', 5) ∧
      ¬ Memory.WritesWithin (area 0x100 2) exampleStrings m' := by
  obtain ⟨m', run, inside, -⟩ :=
    @strlcat_inside_iff exampleStrings 0x100 0x103 4 _ _ 2 exampleStrings_first
      exampleStrings_second (by decide) (by decide) ⟨by decide, by decide⟩
      (by decide) (by decide)
  exact ⟨m', run, fun writes => absurd (inside.mp writes) (by decide)⟩

end Hlos.Libs.Strings
