import Hlos.Lib.ByteMemory
import Mathlib.Data.BitVec
import Mathlib.Data.List.Basic

/-!
# Bytes and strings at an address

`BytesAt` says which bytes lie in memory from an address on, `TextAt` which
string ends there with its NUL.  Addresses are words; they wrap where a loop of
the program would let them wrap.
-/

namespace Hlos.Lib

/-- The bytes lie at the address and behind it. -/
def BytesAt (m : Memory) : BitVec 32 → List (BitVec 8) → Prop
  | _, [] => True
  | p, byte :: rest => m.load8 p.toNat = byte ∧ BytesAt m (p + 1) rest

/-- A string and its NUL. -/
structure TextAt (m : Memory) (p : BitVec 32) (text : List (BitVec 8)) :
    Prop where
  bytes : BytesAt m p (text ++ [0])
  nonzero : 0 ∉ text

section Strings

variable {m m' : Memory} {p : BitVec 32} {bytes text : List (BitVec 8)}

theorem address_succ (p : BitVec 32) (i : Nat) :
    p + 1 + BitVec.ofNat 32 i = p + BitVec.ofNat 32 (i + 1) := by
  apply BitVec.eq_of_toNat_eq
  simp only [BitVec.toNat_add, BitVec.toNat_ofNat, BitVec.reduceToNat]
  omega

theorem address_toNat {i : Nat} (inside : p.toNat + i < 2 ^ 32) :
    (p + BitVec.ofNat 32 i).toNat = p.toNat + i := by
  rw [BitVec.toNat_add, BitVec.toNat_ofNat, Nat.add_mod_mod,
    Nat.mod_eq_of_lt inside]

theorem bytesAt_iff :
    BytesAt m p bytes ↔ ∀ i (inside : i < bytes.length),
      m.load8 (p + BitVec.ofNat 32 i).toNat = bytes[i] := by
  induction bytes generalizing p with
  | nil => simp [BytesAt]
  | cons byte rest inductionHypothesis =>
      rw [BytesAt, inductionHypothesis]
      constructor
      · rintro ⟨first, later⟩ i inside
        cases i with
        | zero => simpa using first
        | succ i =>
            rw [← address_succ, later i (by simpa using inside),
              List.getElem_cons_succ]
      · intro all
        have first : m.load8 (p + 0#32).toNat = byte := all 0 (Nat.succ_pos _)
        rw [BitVec.add_zero] at first
        refine ⟨first, ?_⟩
        intro i inside
        rw [address_succ, all (i + 1) (by simpa using inside),
          List.getElem_cons_succ]

theorem bytesAt_append {more : List (BitVec 8)} :
    BytesAt m p (bytes ++ more) ↔
      BytesAt m p bytes ∧
        BytesAt m (p + BitVec.ofNat 32 bytes.length) more := by
  induction bytes generalizing p with
  | nil => simp [BytesAt]
  | cons byte rest inductionHypothesis =>
      rw [List.cons_append, BytesAt, BytesAt, inductionHypothesis,
        address_succ, List.length_cons, and_assoc]

/-- Bytes that no store has reached. -/
theorem BytesAt.congr (at_ : BytesAt m p bytes)
    (same : ∀ i, i < bytes.length →
      m'.bytes (p + BitVec.ofNat 32 i).toNat =
        m.bytes (p + BitVec.ofNat 32 i).toNat) :
    BytesAt m' p bytes := by
  rw [bytesAt_iff] at at_ ⊢
  intro i inside
  rw [← at_ i inside]
  exact same i inside

theorem BytesAt.initial (at_ : BytesAt m p bytes)
    {front : List (BitVec 8)} (isPrefix : front <+: bytes) :
    BytesAt m p front := by
  obtain ⟨back, rfl⟩ := isPrefix
  exact (bytesAt_append.mp at_).1

theorem BytesAt.drop (at_ : BytesAt m p bytes) {i : Nat}
    (inside : i ≤ bytes.length) :
    BytesAt m (p + BitVec.ofNat 32 i) (bytes.drop i) := by
  rw [← List.take_append_drop i bytes, bytesAt_append,
    List.length_take_of_le inside] at at_
  exact at_.2

theorem textAt_nil : TextAt m p [] ↔ m.load8 p.toNat = 0 := by
  constructor
  · exact fun at_ => at_.bytes.1
  · exact fun isNul => ⟨⟨isNul, trivial⟩, by simp⟩

theorem textAt_cons {c : BitVec 8} :
    TextAt m p (c :: text) ↔
      m.load8 p.toNat = c ∧ c ≠ 0 ∧ TextAt m (p + 1) text := by
  constructor
  · rintro ⟨⟨first, later⟩, nonzero⟩
    simp only [List.mem_cons, not_or] at nonzero
    exact ⟨first, Ne.symm nonzero.1, later, nonzero.2⟩
  · rintro ⟨first, notNul, later, nonzero⟩
    refine ⟨⟨first, later⟩, ?_⟩
    simp only [List.mem_cons, not_or]
    exact ⟨Ne.symm notNul, nonzero⟩

/-- The first byte is the first character or the NUL. -/
theorem TextAt.head (at_ : TextAt m p text) :
    m.load8 p.toNat = text.headD 0 := by
  cases text with
  | nil => exact textAt_nil.mp at_
  | cons c text => exact (textAt_cons.mp at_).1

theorem TextAt.tail (at_ : TextAt m p text) (notEnd : text.headD 0 ≠ 0) :
    TextAt m (p + 1) text.tail := by
  cases text with
  | nil => exact absurd rfl notEnd
  | cons c text => exact (textAt_cons.mp at_).2.2

theorem TextAt.front (at_ : TextAt m p text) : BytesAt m p text :=
  (bytesAt_append.mp at_.bytes).1

/-- The rest of a string is a string. -/
theorem TextAt.drop (at_ : TextAt m p text) {i : Nat}
    (inside : i ≤ text.length) :
    TextAt m (p + BitVec.ofNat 32 i) (text.drop i) where
  bytes := by
    have later := at_.bytes.drop (i := i) (by
      rw [List.length_append]
      omega)
    rwa [List.drop_append_of_le_length inside] at later
  nonzero member := at_.nonzero (List.mem_of_mem_drop member)

theorem TextAt.congr (at_ : TextAt m p text)
    (same : ∀ i, i ≤ text.length →
      m'.bytes (p + BitVec.ofNat 32 i).toNat =
        m.bytes (p + BitVec.ofNat 32 i).toNat) :
    TextAt m' p text where
  bytes := at_.bytes.congr fun i inside => same i (by
    rw [List.length_append] at inside
    exact Nat.le_of_lt_succ inside)
  nonzero := at_.nonzero

theorem TextAt.unique {other : List (BitVec 8)} (at_ : TextAt m p text)
    (otherAt : TextAt m p other) : text = other := by
  induction text generalizing p other with
  | nil =>
      cases other with
      | nil => rfl
      | cons c other =>
          obtain ⟨first, notNul, -⟩ := textAt_cons.mp otherAt
          exact absurd (first.symm.trans (textAt_nil.mp at_)) notNul
  | cons c text inductionHypothesis =>
      obtain ⟨first, notNul, later⟩ := textAt_cons.mp at_
      cases other with
      | nil => exact absurd (first.symm.trans (textAt_nil.mp otherAt)) notNul
      | cons d other =>
          obtain ⟨otherFirst, -, otherLater⟩ := textAt_cons.mp otherAt
          rw [inductionHypothesis later otherLater, ← first, ← otherFirst]

/-- A string cannot reach around the address space. -/
theorem TextAt.length_lt (at_ : TextAt m p text) : text.length < 2 ^ 32 := by
  by_contra long
  have last := (bytesAt_append.mp at_.bytes).2.1
  have inside : text.length - 2 ^ 32 < text.length := by omega
  have earlier := bytesAt_iff.mp at_.front (text.length - 2 ^ 32) inside
  have sameAddress : BitVec.ofNat 32 (text.length - 2 ^ 32) =
      BitVec.ofNat 32 text.length := by
    apply BitVec.eq_of_toNat_eq
    rw [BitVec.toNat_ofNat, BitVec.toNat_ofNat]
    omega
  rw [sameAddress, last] at earlier
  exact at_.nonzero (earlier ▸ List.getElem_mem inside)

end Strings

/-! ## The order of strings -/

/-- The sign of a comparison of two byte strings, by their first difference. -/
def order (a b : List (BitVec 8)) : Int :=
  if a < b then -1 else if a = b then 0 else 1

section Order

variable {a b : List (BitVec 8)} {c d : BitVec 8}

theorem order_self (a : List (BitVec 8)) : order a a = 0 := by
  rw [order, if_neg (List.lt_irrefl a), if_pos rfl]

theorem order_cons_same (c : BitVec 8) (a b : List (BitVec 8)) :
    order (c :: a) (c :: b) = order a b := by
  simp [order]

theorem order_cons_different (different : c ≠ d) (a b : List (BitVec 8)) :
    order (c :: a) (d :: b) = if c < d then -1 else 1 := by
  simp [order, List.cons_lt_cons_iff, different]

theorem order_nil_cons (d : BitVec 8) (b : List (BitVec 8)) :
    order [] (d :: b) = -1 := by
  simp [order]

theorem order_cons_nil (c : BitVec 8) (a : List (BitVec 8)) :
    order (c :: a) [] = 1 := by
  simp [order]

/-- The order of two strings is told by their first bytes, where the end of a
string counts as NUL, or else by the rest. -/
theorem order_step (firstNonzero : 0 ∉ a) (secondNonzero : 0 ∉ b) :
    order a b =
      if a.headD 0 ≠ b.headD 0 then
        (if a.headD 0 < b.headD 0 then -1 else 1)
      else if a.headD 0 = 0 then 0
      else order a.tail b.tail := by
  cases a with
  | nil =>
      cases b with
      | nil => rfl
      | cons d b =>
          have notNul : 0#8 ≠ d := by
            rintro rfl
            exact secondNonzero List.mem_cons_self
          have less : 0#8 < d := by
            rw [BitVec.lt_def]
            exact Nat.pos_of_ne_zero fun zero =>
              notNul (BitVec.eq_of_toNat_eq zero.symm)
          simp [order_nil_cons, notNul, less]
  | cons c a =>
      have notNul : c ≠ 0#8 := by
        rintro rfl
        exact firstNonzero List.mem_cons_self
      cases b with
      | nil => simp [order_cons_nil, notNul]
      | cons d b =>
          by_cases same : c = d
          · subst same
            simp [order_cons_same, notNul]
          · simp [order_cons_different same, same]

theorem order_eq_zero_iff : order a b = 0 ↔ a = b := by
  rw [order]
  split_ifs with less same
  · have different : a ≠ b := fun same => List.lt_irrefl a (same ▸ less)
    simp [different]
  · simp [same]
  · simp [same]

end Order

end Hlos.Lib
