import Hlos.Libs.StringCopies
import Hlos.Libs.StringTokens
import Mathlib.Data.List.DropRight

/-!
# `libs/string.c`: spans, ends and white space

Two functions run backwards and compare their pointer with the start of the
string; a string does not begin at address zero.
-/

set_option linter.style.nameCheck false

namespace Hlos.Libs.Strings

open Hlos.Lib Hlos.Include

/-- The loop of `strrchr`, which runs backwards. -/
def strrchrLoop (m : Memory) (s : Word) : (fuel : Nat) → (p : Word) →
    (c : BitVec 32) → Option (Option Word)
  | 0, _, _ => none
  | fuel + 1, p, c =>
      if m.load8 p.toNat = c.setWidth 8 then some (some p)
      else if s ≤ p - 1 then strrchrLoop m s fuel (p - 1) c
      else some none

def strrchr (fuel : Nat) (m : Memory) (s : Word) (c : BitVec 32) :
    Option (Option Word) := do
  let len ← strlen fuel m s
  strrchrLoop m s fuel (s + len) c

/-- The inline function of `string.h`. -/
def kbasename (fuel : Nat) (m : Memory) (path : Word) : Option Word := do
  match ← strrchr fuel m path 0x2F with
  | some tail => return tail + 1
  | none => return path

/-- The outer loop of `strspn` and, for the other answer, of `strcspn`. -/
def spanLoop (m : Memory) (stopAt : Bool) (set : Word) :
    (fuel : Nat) → (p count : Word) → Option Word
  | 0, _, _ => none
  | fuel + 1, p, count =>
      if m.load8 p.toNat ≠ 0 then do
        let met ← meets m (fuel + 1) set (m.load8 p.toNat)
        if met = stopAt then return count
        else spanLoop m stopAt set fuel (p + 1) (count + 1)
      else some count

def strspn (fuel : Nat) (m : Memory) (s accept : Word) : Option Word :=
  spanLoop m false accept fuel s 0

def strcspn (fuel : Nat) (m : Memory) (s reject : Word) : Option Word :=
  spanLoop m true reject fuel s 0

/-- `isspace`: the bit `_S` of `_ctype`. -/
def isspace (c : BitVec 8) : Bool :=
  (0x09 ≤ c.toNat && c.toNat ≤ 0x0D) || c.toNat == 0x20 || c.toNat == 0xA0

def skipSpaces (m : Memory) : (fuel : Nat) → (str : Word) → Option Word
  | 0, _ => none
  | fuel + 1, str =>
      if isspace (m.load8 str.toNat) then skipSpaces m fuel (str + 1)
      else some str

/-- The loop of `strim`, to the last character that is kept. -/
def strimLoop (m : Memory) (s : Word) : (fuel : Nat) → (last : Word) →
    Option Word
  | 0, _ => none
  | fuel + 1, last =>
      if s ≤ last ∧ isspace (m.load8 last.toNat) then
        strimLoop m s fuel (last - 1)
      else some last

def strim (fuel : Nat) (m : Memory) (s : Word) : Option (Memory × Word) := do
  let size ← strlen fuel m s
  if size = 0 then return (m, s)
  let last ← strimLoop m s fuel (s + size - 1)
  let m := m.store8 (last + 1).toNat 0
  let start ← skipSpaces m fuel s
  return (m, start)

section Scans

variable {m : Memory} {s set : Word} {text chars : List (BitVec 8)}
variable {fuel : Nat}

/-- `strspn` and `strcspn` measure the head of the string that is inside the
set, or outside it. -/
theorem spanLoop_spec (at_ : TextAt m s text) (setAt : TextAt m set chars)
    (stopAt : Bool) (count : Word)
    (enough : text.length + chars.length < fuel) :
    spanLoop m stopAt set fuel s count =
      some (count + BitVec.ofNat 32
        (text.takeWhile (fun c => isStop chars c != stopAt)).length) := by
  induction text generalizing s count fuel with
  | nil =>
      obtain ⟨fuel, rfl⟩ := Nat.exists_eq_add_one.mpr (Nat.zero_lt_of_lt enough)
      simp [spanLoop, textAt_nil.mp at_]
  | cons c text inductionHypothesis =>
      obtain ⟨fuel, rfl⟩ := Nat.exists_eq_add_one.mpr (Nat.zero_lt_of_lt enough)
      obtain ⟨first, notNul, later⟩ := textAt_cons.mp at_
      rw [List.length_cons] at enough
      have others := inductionHypothesis later (count + 1)
        (show text.length + chars.length < fuel by omega)
      rw [spanLoop, first, if_pos notNul,
        meets_spec setAt c (show chars.length < fuel + 1 by omega)]
      simp only [Option.bind_eq_bind, Option.bind_some]
      by_cases stops : decide (c ∈ chars) = stopAt
      · rw [if_pos stops, List.takeWhile_cons_of_neg (by simp [isStop_eq, stops])]
        simp
      · rw [if_neg stops, List.takeWhile_cons_of_pos (by simp [isStop_eq, stops]),
          others, List.length_cons, address_succ]

/-- What the four functions measure: the whole string, as much of it as the
count allows, its head inside a set of characters and its head outside. -/
theorem lengths_measured (at_ : TextAt m s text) (setAt : TextAt m set chars)
    (enough : text.length + chars.length < fuel) :
    strlen fuel m s = some (BitVec.ofNat 32 text.length) ∧
      (∀ count,
        strnlen m s count = BitVec.ofNat 32 (min count text.length)) ∧
      strspn fuel m s set =
        some (BitVec.ofNat 32 (text.takeWhile (· ∈ chars)).length) ∧
      strcspn fuel m s set =
        some (BitVec.ofNat 32 (text.takeWhile (· ∉ chars)).length) := by
  refine ⟨strlen_spec at_ (by omega), strnlen_spec at_, ?_, ?_⟩
  · rw [strspn, spanLoop_spec at_ setAt false 0 enough]
    simp [isStop_eq]
  · rw [strcspn, spanLoop_spec at_ setAt true 0 enough]
    simp [isStop_eq]

/-- The kept end of a string in memory, found backwards. -/
theorem strimLoop_spec (at_ : BytesAt m s text) (positive : 0 < s.toNat)
    (inside : s.toNat + text.length < 2 ^ 32) (enough : text.length < fuel) :
    strimLoop m s fuel (s + BitVec.ofNat 32 text.length - 1) =
      some (s + BitVec.ofNat 32 (text.rdropWhile isspace).length - 1) := by
  induction text using List.reverseRecOn generalizing fuel with
  | nil =>
      obtain ⟨fuel, rfl⟩ := Nat.exists_eq_add_one.mpr enough
      have below : ¬ s ≤ s + BitVec.ofNat 32 0 - 1 := by
        bv_omega
      rw [strimLoop, List.length_nil,
        if_neg (fun goesOn => below goesOn.1)]
      rfl
  | append_singleton text c inductionHypothesis =>
      obtain ⟨fuel, rfl⟩ := Nat.exists_eq_add_one.mpr (Nat.zero_lt_of_lt enough)
      rw [List.length_append, List.length_singleton] at inside enough ⊢
      have isLast : s + BitVec.ofNat 32 (text.length + 1) - 1 =
          s + BitVec.ofNat 32 text.length := by
        bv_omega
      have above : s ≤ s + BitVec.ofNat 32 text.length := by
        rw [BitVec.le_def, address_toNat (by omega)]
        omega
      obtain ⟨frontAt, lastAt, -⟩ := bytesAt_append.mp at_
      rw [strimLoop, isLast, lastAt, List.rdropWhile_concat]
      by_cases space : isspace c = true
      · rw [if_pos ⟨above, space⟩, if_pos space,
          inductionHypothesis frontAt (by omega) (by omega)]
      · rw [if_neg (fun goesOn => space goesOn.2), if_neg space,
          List.length_append, List.length_singleton, isLast]

theorem skipSpaces_spec (at_ : TextAt m s text) (enough : text.length < fuel) :
    let start := s + BitVec.ofNat 32 (text.takeWhile isspace).length
    skipSpaces m fuel s = some start ∧
      TextAt m start (text.dropWhile isspace) := by
  induction text generalizing s fuel with
  | nil =>
      obtain ⟨fuel, rfl⟩ := Nat.exists_eq_add_one.mpr enough
      refine ⟨?_, by simpa using at_⟩
      rw [skipSpaces, textAt_nil.mp at_]
      simp [isspace]
  | cons c text inductionHypothesis =>
      obtain ⟨fuel, rfl⟩ := Nat.exists_eq_add_one.mpr (Nat.zero_lt_of_lt enough)
      obtain ⟨first, -, later⟩ := textAt_cons.mp at_
      rw [skipSpaces, first]
      by_cases space : isspace c = true
      · rw [if_pos space, List.dropWhile_cons_of_pos space,
          List.takeWhile_cons_of_pos space, List.length_cons, ← address_succ]
        exact inductionHypothesis later (Nat.lt_of_succ_lt_succ enough)
      · rw [if_neg space, List.dropWhile_cons_of_neg space,
          List.takeWhile_cons_of_neg space]
        exact ⟨by simp, by simpa using at_⟩

/-- `strim` leaves the string without the white space at its ends, in place:
it writes one NUL, and the string begins where its first other character is. -/
theorem strim_trims (at_ : TextAt m s text) (positive : 0 < s.toNat)
    (inside : s.toNat + text.length < 2 ^ 32) (enough : text.length < fuel) :
    let kept := text.rdropWhile isspace
    let start := s + BitVec.ofNat 32 (kept.takeWhile isspace).length
    ∃ m', strim fuel m s = some (m', start) ∧
      TextAt m' start (kept.dropWhile isspace) ∧
      Memory.WritesWithin
        {position | s.toNat ≤ position ∧ position ≤ s.toNat + text.length}
        m m' := by
  intro kept start
  have keptPrefix := List.rdropWhile_prefix isspace text
  have shorter := keptPrefix.length_le
  simp only [strim, strlen_spec at_ enough, Option.bind_eq_bind,
    Option.bind_some, Option.pure_def]
  by_cases isEmpty : BitVec.ofNat 32 text.length = 0
  · have isNil : text = [] := by
      have zero := congrArg BitVec.toNat isEmpty
      rw [BitVec.toNat_ofNat, Nat.mod_eq_of_lt at_.length_lt] at zero
      exact List.length_eq_zero_iff.mp zero
    subst isNil
    rw [if_pos isEmpty]
    have isStart : start = s := by simp [start, kept]
    rw [isStart]
    exact ⟨m, rfl, at_, Memory.WritesWithin.refl _ _⟩
  · have isEnd : s + BitVec.ofNat 32 (text.rdropWhile isspace).length - 1 + 1 =
        s + BitVec.ofNat 32 (text.rdropWhile isspace).length := by
      bv_omega
    have endAddress :
        (s + BitVec.ofNat 32 (text.rdropWhile isspace).length).toNat =
          s.toNat + (text.rdropWhile isspace).length :=
      address_toNat (by omega)
    have keptAt := textAt_store (at_.front.initial keptPrefix)
      (fun member => at_.nonzero (keptPrefix.subset member)) (by omega)
    obtain ⟨skipped, trimmedAt⟩ := skipSpaces_spec keptAt
      (show (text.rdropWhile isspace).length < fuel by omega)
    refine ⟨m.store8 (s.toNat + (text.rdropWhile isspace).length) 0, ?_,
      trimmedAt, Memory.store8_writesWithin _ _ ⟨by omega, by omega⟩⟩
    rw [if_neg isEmpty, strimLoop_spec at_.front positive inside enough]
    simp only [Option.bind_some, isEnd, endAddress, skipped, start, kept]

/-- The last place of a byte, found backwards. -/
theorem strrchrLoop_spec {bytes : List (BitVec 8)} (at_ : BytesAt m s bytes)
    (positive : 0 < s.toNat) (inside : s.toNat + bytes.length ≤ 2 ^ 32)
    (nonempty : bytes ≠ []) (c : BitVec 32) (enough : bytes.length ≤ fuel) :
    (∃ front back, bytes = front ++ c.setWidth 8 :: back ∧
        c.setWidth 8 ∉ back ∧
        strrchrLoop m s fuel (s + BitVec.ofNat 32 (bytes.length - 1)) c =
          some (some (s + BitVec.ofNat 32 front.length))) ∨
      (c.setWidth 8 ∉ bytes ∧
        strrchrLoop m s fuel (s + BitVec.ofNat 32 (bytes.length - 1)) c =
          some none) := by
  induction bytes using List.reverseRecOn generalizing fuel with
  | nil => exact absurd rfl nonempty
  | append_singleton bytes d inductionHypothesis =>
      rw [List.length_append, List.length_singleton] at inside enough ⊢
      obtain ⟨fuel, rfl⟩ : ∃ more, fuel = more + 1 :=
        Nat.exists_eq_add_one.mpr (by omega)
      obtain ⟨frontAt, lastAt, -⟩ := bytesAt_append.mp at_
      rw [Nat.add_sub_cancel, strrchrLoop, lastAt]
      by_cases found : d = c.setWidth 8
      · left
        exact ⟨bytes, [], by rw [found], by simp, if_pos found⟩
      · rw [if_neg found]
        have different : c.setWidth 8 ≠ d := Ne.symm found
        by_cases isFirst : bytes = []
        · right
          subst isFirst
          have below : ¬ s ≤ s + BitVec.ofNat 32 0 - 1 := by
            bv_omega
          exact ⟨by simpa using different, if_neg below⟩
        · have longer : 0 < bytes.length := List.length_pos_iff.mpr isFirst
          have isBack : s + BitVec.ofNat 32 bytes.length - 1 =
              s + BitVec.ofNat 32 (bytes.length - 1) := by
            bv_omega
          have goesOn : s ≤ s + BitVec.ofNat 32 (bytes.length - 1) := by
            rw [BitVec.le_def, address_toNat (by omega)]
            omega
          rw [isBack, if_pos goesOn]
          rcases inductionHypothesis frontAt (by omega) isFirst
            (show bytes.length ≤ fuel by omega) with
            ⟨front, back, isSplit, notBehind, run⟩ | ⟨nowhere, run⟩
          · left
            refine ⟨front, back ++ [d], ?_, ?_, run⟩
            · rw [isSplit, List.append_assoc, List.cons_append]
            · simp [notBehind, different]
          · right
            exact ⟨by simp [nowhere, different], run⟩

/-- `kbasename` gives the part of a path behind its last slash, or the whole
path when it has none. -/
theorem kbasename_behind_slash (at_ : TextAt m s text) (positive : 0 < s.toNat)
    (inside : s.toNat + text.length < 2 ^ 32) (enough : text.length < fuel) :
    ∃ base name, kbasename fuel m s = some base ∧ TextAt m base name ∧
      0x2F ∉ name ∧
      (text = name ∧ base = s ∨ ∃ dir, text = dir ++ 0x2F :: name ∧
        base = s + BitVec.ofNat 32 (dir.length + 1)) := by
  have searched := strrchrLoop_spec at_.bytes positive
    (by rw [List.length_append]; exact inside) (by simp) 0x2F
    (show (text ++ [0]).length ≤ fuel by
      rw [List.length_append]
      exact enough)
  rw [List.length_append, List.length_singleton, Nat.add_sub_cancel] at searched
  have isSlash : (0x2F : BitVec 32).setWidth 8 = (0x2F : BitVec 8) := rfl
  rw [isSlash] at searched
  simp only [kbasename, strrchr, strlen_spec at_ enough, Option.bind_eq_bind,
    Option.bind_some]
  rcases searched with ⟨front, back, isSplit, notBehind, run⟩ | ⟨nowhere, run⟩
  · obtain ⟨name, rfl⟩ : ∃ name, back = name ++ [0] := by
      rcases List.eq_nil_or_concat back with rfl | ⟨name, last, rfl⟩
      · have sameLast := (List.append_inj' isSplit rfl).2
        exact absurd sameLast (by simp)
      · refine ⟨name, ?_⟩
        rw [List.concat_eq_append, ← List.cons_append,
          ← List.append_assoc] at isSplit
        rw [List.concat_eq_append, ← (List.append_inj' isSplit rfl).2]
    rw [← List.cons_append, ← List.append_assoc] at isSplit
    have isText := (List.append_inj' isSplit rfl).1
    subst isText
    have later := at_.drop (i := front.length + 1) (by simp)
    have sameAddress : s + BitVec.ofNat 32 front.length + 1 =
        s + BitVec.ofNat 32 (front.length + 1) := by
      bv_omega
    refine ⟨s + BitVec.ofNat 32 front.length + 1, name, ?_, ?_, ?_, ?_⟩
    · rw [run]
      rfl
    · rw [sameAddress]
      simpa using later
    · intro member
      exact notBehind (List.mem_append_left _ member)
    · exact Or.inr ⟨front, rfl, sameAddress⟩
  · refine ⟨s, text, ?_, at_, ?_, Or.inl ⟨rfl, rfl⟩⟩
    · rw [run]
      rfl
    · intro member
      exact nowhere (List.mem_append_left _ member)

end Scans

/-- The string ` a b `, at an address of its own. -/
def exampleSpaces : Memory where
  bytes position :=
    [0x20, 0x61, 0x20, 0x62, 0x20, 0].getD (position - 0x100) 0
  log := []

theorem exampleSpaces_text :
    TextAt exampleSpaces 0x100 [0x20, 0x61, 0x20, 0x62, 0x20] :=
  ⟨⟨by decide, by decide, by decide, by decide, by decide, by decide,
    trivial⟩, by simp⟩

theorem strim_trims_spaces :
    ∃ m', strim 6 exampleSpaces 0x100 = some (m', 0x101) ∧
      TextAt m' 0x101 [0x61, 0x20, 0x62] := by
  obtain ⟨m', run, trimmed, -⟩ :=
    strim_trims exampleSpaces_text (by decide) (by decide) (show 5 < 6 by simp)
  exact ⟨m', run, trimmed⟩

/-- The string `aB` against the characters of `abc`. -/
theorem lengths_measured_example :
    strnlen exampleStrings 0x100 1 = 1 ∧
      strspn 6 exampleStrings 0x100 0x103 = some 1 ∧
      strcspn 6 exampleStrings 0x100 0x103 = some 0 := by
  obtain ⟨-, limited, inside, outside⟩ :=
    lengths_measured exampleStrings_first exampleStrings_second
      (show 2 + 3 < 6 by simp)
  exact ⟨limited 1, inside, outside⟩

/-- The path `a/b`. -/
def examplePath : Memory where
  bytes position := [0x61, 0x2F, 0x62, 0].getD (position - 0x100) 0
  log := []

theorem kbasename_behind_slash_example :
    ∃ base name dir, kbasename 4 examplePath 0x100 = some base ∧
      TextAt examplePath base name ∧ 0x2F ∉ name ∧
      [0x61, 0x2F, 0x62] = dir ++ 0x2F :: name ∧
      base = 0x100 + BitVec.ofNat 32 (dir.length + 1) := by
  have path : TextAt examplePath 0x100 [0x61, 0x2F, 0x62] :=
    ⟨⟨by decide, by decide, by decide, by decide, trivial⟩, by simp⟩
  obtain ⟨base, name, run, nameAt, noSlash, ⟨rfl, -⟩ | ⟨dir, isSplit, isBase⟩⟩ :=
    kbasename_behind_slash path (by decide) (by decide) (show 3 < 4 by simp)
  · exact absurd noSlash (by simp)
  · exact ⟨base, name, dir, run, nameAt, noSlash, isSplit, isBase⟩

end Hlos.Libs.Strings
