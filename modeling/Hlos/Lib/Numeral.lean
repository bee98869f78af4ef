import Mathlib.Data.Nat.Digits.Lemmas
import Mathlib.Tactic.Ring

/-!
# Numerals

The digits of a number in a base, the lowest first, where zero has the single
digit zero, and division by the base through a reciprocal.
-/

namespace Hlos.Lib

def reversedNumeral (base n : Nat) : List Nat :=
  if n = 0 then [0] else Nat.digits base n

section Numeral

variable {base n : Nat}

theorem reversedNumeral_of_lt (small : n < base) :
    reversedNumeral base n = [n] := by
  unfold reversedNumeral
  by_cases zero : n = 0
  · rw [if_pos zero, zero]
  · rw [if_neg zero]
    exact Nat.digits_of_lt base n zero small

theorem reversedNumeral_step (proper : 1 < base) (large : base ≤ n) :
    reversedNumeral base n = n % base :: reversedNumeral base (n / base) := by
  have positive : 0 < n := by omega
  have quotient : n / base ≠ 0 :=
    (Nat.div_pos large (Nat.zero_lt_of_lt proper)).ne'
  rw [reversedNumeral, if_neg positive.ne', reversedNumeral, if_neg quotient]
  exact Nat.digits_def' proper positive

theorem reversedNumeral_length_pos (base n : Nat) :
    0 < (reversedNumeral base n).length := by
  unfold reversedNumeral
  split
  · exact Nat.zero_lt_one
  · next nonzero =>
      exact List.length_pos_iff.mpr (Nat.digits_ne_nil_iff_ne_zero.mpr nonzero)

/-- A number below a power of the base has no more digits than the exponent. -/
theorem reversedNumeral_length_le (proper : 1 < base) {count : Nat}
    (positive : 0 < count) (bound : n < base ^ count) :
    (reversedNumeral base n).length ≤ count := by
  unfold reversedNumeral
  split
  · exact positive
  · exact (Nat.digits_length_le_iff proper n).mpr bound

theorem ofDigits_reversedNumeral (base n : Nat) :
    Nat.ofDigits base (reversedNumeral base n) = n := by
  unfold reversedNumeral
  split
  · next zero => rw [zero, Nat.ofDigits_singleton]
  · exact Nat.ofDigits_digits base n

theorem reversedNumeral_lt (proper : 1 < base) {digit : Nat}
    (member : digit ∈ reversedNumeral base n) : digit < base := by
  unfold reversedNumeral at member
  split at member
  · rw [List.mem_singleton.mp member]
    exact Nat.zero_lt_of_lt proper
  · exact Nat.digits_lt_base proper member

/-- The highest digit of a number is not zero. -/
theorem reversedNumeral_last_ne_zero (nonzero : n ≠ 0) {digit : Nat}
    (last : (reversedNumeral base n).getLast? = some digit) : digit ≠ 0 := by
  rw [reversedNumeral, if_neg nonzero] at last
  rw [List.getLast?_eq_some_getLast
    (Nat.digits_ne_nil_iff_ne_zero.mpr nonzero)] at last
  rw [← Option.some.inj last]
  exact Nat.getLast_digit_ne_zero base nonzero

end Numeral

/-! ## Reading a numeral -/

section Reading

universe u

variable {α : Type u} {digitOf : α → Option Nat} {base : Nat}

/-- The value of a numeral, the highest digit first, behind the digits of
`value`. -/
def readNumeral (digitOf : α → Option Nat) (base : Nat) :
    (value : Nat) → List α → Option Nat
  | value, [] => some value
  | value, c :: rest =>
      (digitOf c).bind fun digit =>
        if digit < base then
          readNumeral digitOf base (value * base + digit) rest
        else none

theorem readNumeral_append (value : Nat) (front rest : List α) :
    readNumeral digitOf base value (front ++ rest) =
      (readNumeral digitOf base value front).bind fun value =>
        readNumeral digitOf base value rest := by
  induction front generalizing value with
  | nil => rfl
  | cons c front inductionFront =>
      rw [List.cons_append, readNumeral, readNumeral]
      cases digitOf c with
      | none => rfl
      | some digit =>
          simp only [Option.bind_some]
          split
          · exact inductionFront _
          · rfl

/-- Digits that are written with the lowest last are read back. -/
theorem readNumeral_reverse {charOf : Nat → α} (digits : List Nat)
    (value : Nat)
    (readable : ∀ digit, digit ∈ digits →
      digit < base ∧ digitOf (charOf digit) = some digit) :
    readNumeral digitOf base value (digits.map charOf).reverse =
      some (value * base ^ digits.length + Nat.ofDigits base digits) := by
  induction digits with
  | nil => simp [readNumeral]
  | cons digit rest inductionRest =>
      obtain ⟨small, isDigit⟩ := readable digit List.mem_cons_self
      have restRead := inductionRest fun other member =>
        readable other (List.mem_cons_of_mem digit member)
      rw [List.map_cons, List.reverse_cons, readNumeral_append, restRead,
        Option.bind_some, readNumeral, isDigit, Option.bind_some,
        if_pos small, readNumeral, List.length_cons, Nat.ofDigits_cons]
      congr 1
      ring

end Reading

/-- Multiplying by `m` and dividing by `d` divides by `base`, as long as the
error of the reciprocal does not add up to a unit. -/
theorem mul_div_reciprocal {n base m d error : Nat}
    (reciprocal : base * m = d + error)
    (small : error * (n / base) + m * (n % base) < d) :
    n * m / d = n / base := by
  have positive : 0 < d := Nat.zero_lt_of_lt small
  have split : n * m =
      d * (n / base) + (error * (n / base) + m * (n % base)) :=
    calc
      n * m = (base * (n / base) + n % base) * m := by rw [Nat.div_add_mod]
      _ = base * m * (n / base) + m * (n % base) := by ring
      _ = d * (n / base) + (error * (n / base) + m * (n % base)) := by
          rw [reciprocal]
          ring
  rw [split, Nat.mul_add_div positive, Nat.div_eq_of_lt small, Nat.add_zero]

end Hlos.Lib
