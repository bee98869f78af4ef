import Hlos.Libs.StringOrder

/-!
# `libs/string.c`: searches

A pointer that may be null is an `Option`; the outer `Option` is for fuel.
-/

namespace Hlos.Libs.Strings

open Hlos.Lib Hlos.Include

def strchr (m : Memory) : (fuel : Nat) → (s : Word) → (c : BitVec 32) →
    Option (Option Word)
  | 0, _, _ => none
  | fuel + 1, s, c =>
      if m.load8 s.toNat ≠ c.setWidth 8 then
        if m.load8 s.toNat = 0 then some none else strchr m fuel (s + 1) c
      else some (some s)

def strnchr (m : Memory) : (s : Word) → (count : Nat) → (c : BitVec 32) →
    Option Word
  | _, 0, _ => none
  | s, count + 1, c =>
      if m.load8 s.toNat ≠ 0 then
        if m.load8 s.toNat = c.setWidth 8 then some s
        else strnchr m (s + 1) count c
      else none

/-- `c` is compared as an `int`. -/
def memscan (m : Memory) : (p : Word) → (c : BitVec 32) → (size : Nat) → Word
  | p, _, 0 => p
  | p, c, size + 1 =>
      if (m.load8 p.toNat).setWidth 32 = c then p
      else memscan m (p + 1) c size

def memchr (m : Memory) : (p : Word) → (c : BitVec 32) → (n : Nat) →
    Option Word
  | _, _, 0 => none
  | p, c, n + 1 =>
      if c.setWidth 8 = m.load8 p.toNat then some p else memchr m (p + 1) c n

/-- The inner loop of `strspn`, `strcspn` and `strpbrk`: whether the character
is met before the NUL. -/
def meets (m : Memory) : (fuel : Nat) → (a : Word) → (c : BitVec 8) →
    Option Bool
  | 0, _, _ => none
  | fuel + 1, a, c =>
      if m.load8 a.toNat ≠ 0 then
        if c = m.load8 a.toNat then some true else meets m fuel (a + 1) c
      else some false

def strpbrk (m : Memory) : (fuel : Nat) → (cs ct : Word) →
    Option (Option Word)
  | 0, _, _ => none
  | fuel + 1, cs, ct =>
      if m.load8 cs.toNat ≠ 0 then do
        let met ← meets m (fuel + 1) ct (m.load8 cs.toNat)
        if met then return some cs else strpbrk m fuel (cs + 1) ct
      else some none

/-- The loop of `strstr` and `strnstr`. -/
def strstrLoop (m : Memory) (s2 l2 : Word) :
    (fuel : Nat) → (l1 s1 : Word) → Option (Option Word)
  | 0, _, _ => none
  | fuel + 1, l1, s1 =>
      if l2 ≤ l1 then
        if memcmp m l2.toNat s1 s2 = 0 then some (some s1)
        else strstrLoop m s2 l2 fuel (l1 - 1) (s1 + 1)
      else some none

def strstr (fuel : Nat) (m : Memory) (s1 s2 : Word) :
    Option (Option Word) := do
  let l2 ← strlen fuel m s2
  if l2 = 0 then return some s1
  let l1 ← strlen fuel m s1
  strstrLoop m s2 l2 fuel l1 s1

def strnstr (fuel : Nat) (m : Memory) (s1 s2 len : Word) :
    Option (Option Word) := do
  let l2 ← strlen fuel m s2
  if l2 = 0 then return some s1
  strstrLoop m s2 l2 fuel len s1

/-! ## The first byte -/

section Bytes

variable {m : Memory} {s : Word} {area text : List (BitVec 8)}

/-- The pointer to a place in an area, if there is one. -/
def pointer (s : Word) (place : Option Nat) : Option Word :=
  place.map fun i => s + BitVec.ofNat 32 i

theorem pointer_succ (s : Word) (place : Option Nat) :
    pointer (s + 1) place = pointer s (place.map (· + 1)) := by
  cases place with
  | none => rfl
  | some i => exact congrArg some (address_succ s i)

theorem pointer_zero (s : Word) : pointer s (some 0) = some s := by
  simp [pointer]

theorem memchr_spec (at_ : BytesAt m s area) (c : BitVec 32) :
    memchr m s c area.length = pointer s (area.idxOf? (c.setWidth 8)) := by
  induction area generalizing s with
  | nil => rfl
  | cons byte area inductionHypothesis =>
      rw [List.length_cons, memchr, at_.1, inductionHypothesis at_.2,
        List.idxOf?_cons]
      by_cases found : c.setWidth 8 = byte
      · rw [if_pos found, if_pos (by simpa using found.symm), pointer_zero]
      · rw [if_neg found, if_neg (by simpa using Ne.symm found), pointer_succ]

/-- `c` is looked for as an `int`: what is not a byte is not found. -/
theorem memscan_spec (at_ : BytesAt m s area) (c : BitVec 32) :
    memscan m s c area.length =
      s + BitVec.ofNat 32 (area.findIdx (fun byte => byte.setWidth 32 = c)) := by
  induction area generalizing s with
  | nil => simp [memscan]
  | cons byte area inductionHypothesis =>
      rw [List.length_cons, memscan, at_.1, inductionHypothesis at_.2,
        List.findIdx_cons]
      by_cases found : byte.setWidth 32 = c
      · simp [found]
      · simp only [found, if_false, decide_false, cond_false, address_succ]

theorem strnchr_spec (at_ : TextAt m s text) (count : Nat) (c : BitVec 32) :
    strnchr m s count c =
      pointer s ((text.take count).idxOf? (c.setWidth 8)) := by
  induction count generalizing s text with
  | zero => rfl
  | succ count inductionHypothesis =>
      cases text with
      | nil =>
          rw [strnchr, textAt_nil.mp at_]
          rfl
      | cons byte text =>
          obtain ⟨first, notNul, later⟩ := textAt_cons.mp at_
          rw [strnchr, first, if_pos notNul, inductionHypothesis later,
            List.take_succ_cons, List.idxOf?_cons]
          by_cases found : byte = c.setWidth 8
          · rw [if_pos found, if_pos (by simpa using found), pointer_zero]
          · rw [if_neg found, if_neg (by simpa using found), pointer_succ]

/-- The NUL is a character of the string here. -/
theorem strchr_spec (at_ : TextAt m s text) (c : BitVec 32) {fuel : Nat}
    (enough : text.length < fuel) :
    strchr m fuel s c =
      some (pointer s ((text ++ [0]).idxOf? (c.setWidth 8))) := by
  induction text generalizing s fuel with
  | nil =>
      obtain ⟨fuel, rfl⟩ := Nat.exists_eq_add_one.mpr enough
      rw [strchr, textAt_nil.mp at_, List.nil_append, List.idxOf?_cons]
      by_cases found : 0 = c.setWidth 8
      · rw [if_neg (not_not_intro found), if_pos (by simpa using found),
          pointer_zero]
      · rw [if_pos found, if_pos rfl, if_neg (by simpa using found)]
        rfl
  | cons byte text inductionHypothesis =>
      obtain ⟨fuel, rfl⟩ := Nat.exists_eq_add_one.mpr (Nat.zero_lt_of_lt enough)
      obtain ⟨first, notNul, later⟩ := textAt_cons.mp at_
      rw [strchr, first, inductionHypothesis later
          (Nat.lt_of_succ_lt_succ enough), if_neg notNul, List.cons_append,
        List.idxOf?_cons]
      by_cases found : byte = c.setWidth 8
      · rw [if_neg (not_not_intro found), if_pos (by simpa using found),
          pointer_zero]
      · rw [if_pos found, if_neg (by simpa using found), pointer_succ]

/-- The searches for a byte find its first place: `memchr` and `memscan` in any
area, where `memscan` points behind the area if there is none, `strchr` in a
string with its NUL and `strnchr` in the head of a string without it. -/
theorem byte_searches (areaAt : BytesAt m s area) (c : BitVec 32) :
    memchr m s c area.length = pointer s (area.idxOf? (c.setWidth 8)) ∧
      memscan m s c area.length = s + BitVec.ofNat 32
        (area.findIdx (fun byte => byte.setWidth 32 = c)) ∧
      (TextAt m s area → ∀ fuel, area.length < fuel →
        strchr m fuel s c =
          some (pointer s ((area ++ [0]).idxOf? (c.setWidth 8)))) ∧
      (TextAt m s area → ∀ count, strnchr m s count c =
        pointer s ((area.take count).idxOf? (c.setWidth 8))) :=
  ⟨memchr_spec areaAt c, memscan_spec areaAt c,
    fun at_ _ enough => strchr_spec at_ c enough,
    fun at_ count => strnchr_spec at_ count c⟩

end Bytes

/-- `B`, and the same with a bit above the byte, in `aB`. -/
theorem byte_searches_example :
    memchr exampleStrings 0x100 0x142 2 = some 0x101 ∧
      memscan exampleStrings 0x100 0x142 2 = 0x102 ∧
      strchr exampleStrings 3 0x100 0x42 = some (some 0x101) ∧
      strnchr exampleStrings 0x100 1 0x42 = none := by
  obtain ⟨found, scanned, -⟩ := byte_searches exampleStrings_first.front 0x142
  obtain ⟨-, -, inString, inHead⟩ :=
    byte_searches exampleStrings_first.front 0x42
  exact ⟨found, scanned, inString exampleStrings_first 3 (by decide),
    inHead exampleStrings_first 1⟩

/-! ## The first occurrence -/

/-- The first place where the needle lies in the text. -/
structure FirstAt (needle text : List (BitVec 8)) (i : Nat) : Prop where
  here : needle <+: text.drop i
  before : ∀ j, j < i → ¬ needle <+: text.drop j

theorem not_infix {needle text : List (BitVec 8)}
    (nowhere : ∀ i, ¬ needle <+: text.drop i) : ¬ needle <:+: text := by
  rintro ⟨before, behind, rfl⟩
  apply nowhere before.length
  rw [List.append_assoc, List.drop_left]
  exact List.prefix_append needle behind

section Search

variable {m : Memory} {s1 s2 : Word} {area needle text : List (BitVec 8)}
variable {fuel : Nat}

theorem memcmp_eq_zero_iff (areaAt : BytesAt m s1 area)
    (needleAt : BytesAt m s2 needle) (fits : needle.length ≤ area.length) :
    memcmp m needle.length s1 s2 = 0 ↔ needle <+: area := by
  have sameLength := List.length_take_of_le fits
  have compared := memcmp_spec
    (areaAt.initial (List.take_prefix needle.length area)) needleAt sameLength
  rw [sameLength] at compared
  rw [← Int.sign_eq_zero_iff_zero, compared, order_eq_zero_iff,
    List.prefix_iff_eq_take]
  exact eq_comm

/-- The loop finds the first occurrence in the area, or none. -/
theorem strstrLoop_spec (areaAt : BytesAt m s1 area)
    (needleAt : BytesAt m s2 needle) (nonempty : needle ≠ [])
    (small : area.length < 2 ^ 32) (needleSmall : needle.length < 2 ^ 32)
    (enough : area.length < fuel) :
    (∃ i, strstrLoop m s2 (BitVec.ofNat 32 needle.length) fuel
        (BitVec.ofNat 32 area.length) s1 =
          some (some (s1 + BitVec.ofNat 32 i)) ∧ FirstAt needle area i) ∨
      (strstrLoop m s2 (BitVec.ofNat 32 needle.length) fuel
        (BitVec.ofNat 32 area.length) s1 = some none ∧
          ∀ i, ¬ needle <+: area.drop i) := by
  have positive : 0 < needle.length := List.length_pos_iff.mpr nonempty
  induction fuel generalizing s1 area with
  | zero => cases enough
  | succ fuel inductionHypothesis =>
      have fits : BitVec.ofNat 32 needle.length ≤ BitVec.ofNat 32 area.length ↔
          needle.length ≤ area.length := by
        rw [BitVec.le_def, BitVec.toNat_ofNat, BitVec.toNat_ofNat,
          Nat.mod_eq_of_lt small, Nat.mod_eq_of_lt needleSmall]
      have isLength : (BitVec.ofNat 32 needle.length).toNat =
          needle.length := by
        rw [BitVec.toNat_ofNat, Nat.mod_eq_of_lt needleSmall]
      rw [strstrLoop, isLength]
      by_cases inside : needle.length ≤ area.length
      · rw [if_pos (fits.mpr inside)]
        have here := memcmp_eq_zero_iff areaAt needleAt inside
        by_cases found : needle <+: area
        · left
          refine ⟨0, ?_, found, fun j before => absurd before (Nat.not_lt_zero j)⟩
          rw [if_pos (here.mpr found)]
          simp
        · rw [if_neg (fun isZero => found (here.mp isZero))]
          cases area with
          | nil => exact absurd inside (by simpa using nonempty)
          | cons c area =>
              have rest : BitVec.ofNat 32 (c :: area).length - 1 =
                  BitVec.ofNat 32 area.length := by
                rw [List.length_cons]
                bv_omega
              rw [rest]
              rw [List.length_cons] at small enough
              have others := inductionHypothesis areaAt.2 (by omega) (by omega)
              rcases others with ⟨i, run, isHere, before⟩ | ⟨run, nowhere⟩
              · left
                refine ⟨i + 1, by rw [run, address_succ], isHere, ?_⟩
                intro j earlier
                cases j with
                | zero => exact found
                | succ j => exact before j (Nat.lt_of_succ_lt_succ earlier)
              · right
                refine ⟨run, ?_⟩
                intro i
                cases i with
                | zero => exact found
                | succ i => exact nowhere i
      · right
        rw [if_neg (fun less => inside (fits.mp less))]
        refine ⟨rfl, ?_⟩
        intro i isPrefix
        have shorter := isPrefix.length_le
        rw [List.length_drop] at shorter
        omega

/-- `strstr` finds the first occurrence of one string in another, and `strnstr`
the first one in any area: a NUL in it does not end the search. -/
theorem strstr_first (areaAt : BytesAt m s1 area) (needleAt : TextAt m s2 needle)
    (small : area.length < 2 ^ 32) (enough : area.length < fuel)
    (needleEnough : needle.length < fuel) :
    ((∃ i, strnstr fuel m s1 s2 (BitVec.ofNat 32 area.length) =
        some (some (s1 + BitVec.ofNat 32 i)) ∧ FirstAt needle area i) ∨
      (strnstr fuel m s1 s2 (BitVec.ofNat 32 area.length) = some none ∧
        ¬ needle <:+: area)) ∧
    (TextAt m s1 area →
      strstr fuel m s1 s2 =
        strnstr fuel m s1 s2 (BitVec.ofNat 32 area.length)) := by
  have needleSmall := needleAt.length_lt
  have isLength := strlen_spec needleAt needleEnough
  constructor
  · simp only [strnstr, isLength, Option.bind_eq_bind, Option.bind_some]
    by_cases isEmpty : needle = []
    · left
      subst isEmpty
      exact ⟨0, by simp, List.nil_prefix,
        fun j before => absurd before (Nat.not_lt_zero j)⟩
    · have notZero : BitVec.ofNat 32 needle.length ≠ 0 := by
        intro isZero
        have zero := congrArg BitVec.toNat isZero
        rw [BitVec.toNat_ofNat, Nat.mod_eq_of_lt needleSmall] at zero
        exact isEmpty (List.length_eq_zero_iff.mp zero)
      rw [if_neg notZero]
      rcases strstrLoop_spec areaAt needleAt.front isEmpty small needleSmall
        enough with found | ⟨run, nowhere⟩
      · exact Or.inl found
      · exact Or.inr ⟨run, not_infix nowhere⟩
  · intro isText
    simp only [strstr, strnstr, isLength, Option.bind_eq_bind,
      Option.bind_some, strlen_spec isText enough]

end Search

/-- The string `bc` lies at the second place of `abc`. -/
theorem strstr_first_example :
    ∃ i, strnstr 4 exampleStrings 0x103 0x104 3 =
        some (some (0x103 + BitVec.ofNat 32 i)) ∧
      FirstAt [0x62, 0x63] [0x61, 0x62, 0x63] i := by
  have needle : TextAt exampleStrings 0x104 [0x62, 0x63] :=
    exampleStrings_second.tail (by simp)
  obtain ⟨found | ⟨-, nowhere⟩, -⟩ :=
    strstr_first exampleStrings_second.front needle
      (by decide) (show 3 < 4 by simp) (show 2 < 4 by simp)
  · exact found
  · exact absurd ⟨[0x61], [], rfl⟩ nowhere

end Hlos.Libs.Strings
