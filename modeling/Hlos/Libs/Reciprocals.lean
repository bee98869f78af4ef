import Hlos.Lib.Noted
import Hlos.Libs.Digits

/-!
# Digits without division

The arithmetic of `put_dec_trunc8` as it is carried out: which words are
multiplied, and which quotients the reciprocals give.  For a number below a
hundred million no product overflows, every quotient is exact, and the
characters are the decimal digits of the number.
-/

namespace Hlos.Libs

open Hlos.Lib Hlos.Lib.Noted Hlos.Include

/-- A multiplication of two words, or a value together with the quotient that
its reciprocal multiplication gives. -/
inductive Arithmetic where
  | product {width : Nat} (left right : BitVec width)
  | tenth (value quotient : Word)

/-- The product does not overflow, the quotient is that of a division by
ten. -/
def Arithmetic.Exact : Arithmetic → Prop
  | @product width left right => left.toNat * right.toNat < 2 ^ width
  | tenth value quotient => quotient.toNat = value.toNat / 10

/-! ## `put_dec_trunc8` with its arithmetic -/

def multiply {width : Nat} (left right : BitVec width) :
    Noted Arithmetic (BitVec width) := do
  note (.product left right)
  return left * right

/-- `(r * factor) >> shift`. -/
def reciprocal (r factor : Word) (shift : Nat) : Noted Arithmetic Word := do
  let product ← multiply r factor
  let quotient := product >>> shift
  note (.tenth r quotient)
  return quotient

/-- `truncLoop`, where the arithmetic is noted. -/
def truncLoopNoted : (fuel : Nat) → (tmp : List Byte) → (r : Word) →
    Noted Arithmetic (List Byte × Word)
  | 0, _, _ => liftM (none : Option (List Byte × Word))
  | fuel + 1, tmp, r =>
      if 10000 ≤ r.toNat then do
        let q := r + (ch '0').setWidth 32
        let product ← multiply (r.setWidth 64) (0x1999999A : BitVec 64)
        let quotient : Word := (product >>> 20 >>> 12).setWidth 32
        note (.tenth r quotient)
        let tens ← multiply 10 quotient
        let tmp ← push tmp ((q - tens).setWidth 8)
        truncLoopNoted fuel tmp quotient
      else
        return (tmp, r)

/-- `putDecTrunc8`, where the arithmetic is noted. -/
def putDecTrunc8Noted (tmp : List Byte) (r : Word) :
    Noted Arithmetic (List Byte) := do
  let zero : Word := (ch '0').setWidth 32
  let (tmp, r) ← truncLoopNoted 16 tmp r
  let q ← reciprocal r 0x199A 16
  let tens ← multiply 10 q
  let tmp ← push tmp ((r - tens + zero).setWidth 8)
  if q = 0 then
    return tmp
  else do
    let r ← reciprocal q 0xCD 11
    let tens ← multiply 10 r
    let tmp ← push tmp ((q - tens + zero).setWidth 8)
    if r = 0 then
      return tmp
    else do
      let q ← reciprocal r 0xCD 11
      let tens ← multiply 10 q
      let tmp ← push tmp ((r - tens + zero).setWidth 8)
      if q = 0 then
        return tmp
      else
        push tmp ((q + zero).setWidth 8)

@[simp]
theorem result_multiply {width : Nat} (left right : BitVec width) :
    result (multiply left right) = some (left * right) := by
  simp [multiply]

@[simp]
theorem result_reciprocal (r factor : Word) (shift : Nat) :
    result (reciprocal r factor shift) = some ((r * factor) >>> shift) := by
  simp [reciprocal]

theorem truncLoopNoted_result (fuel : Nat) (tmp : List Byte) (r : Word) :
    result (truncLoopNoted fuel tmp r) = truncLoop fuel tmp r := by
  induction fuel generalizing tmp r with
  | zero => rfl
  | succ fuel inductionHypothesis =>
      by_cases more : 10000 ≤ r.toNat
      · simp [truncLoopNoted, truncLoop, more, inductionHypothesis]
      · simp [truncLoopNoted, truncLoop, more]

/-- Without the notes it is `put_dec_trunc8`. -/
theorem putDecTrunc8Noted_result (tmp : List Byte) (r : Word) :
    result (putDecTrunc8Noted tmp r) = putDecTrunc8 tmp r := by
  simp [putDecTrunc8Noted, putDecTrunc8, truncLoopNoted_result]

/-! ## Exactness -/

section Exact

variable {α : Type}

theorem exact_multiply {width : Nat} {left right : BitVec width}
    {f : BitVec width → Noted Arithmetic α}
    (fits : left.toNat * right.toNat < 2 ^ width)
    (rest : NotesOnly Arithmetic.Exact (f (left * right))) :
    NotesOnly Arithmetic.Exact (multiply left right >>= f) := by
  refine NotesOnly.bind ?_ fun _ returned => ?_
  · exact NotesOnly.note_bind fits (NotesOnly.pure _)
  · rw [result_multiply] at returned
    rwa [← Option.some.inj returned]

theorem exact_reciprocal {r factor : Word} {shift : Nat}
    {f : Word → Noted Arithmetic α}
    (fits : r.toNat * factor.toNat < 2 ^ 32)
    (quotient : ((r * factor) >>> shift).toNat = r.toNat / 10)
    (rest : NotesOnly Arithmetic.Exact (f ((r * factor) >>> shift))) :
    NotesOnly Arithmetic.Exact (reciprocal r factor shift >>= f) := by
  refine NotesOnly.bind ?_ fun _ returned => ?_
  · exact exact_multiply fits (NotesOnly.note_bind quotient (NotesOnly.pure _))
  · rw [result_reciprocal] at returned
    rwa [← Option.some.inj returned]

/-- The product of the loop does not overflow for any word. -/
theorem wide_fits (r : Word) :
    (r.setWidth 64).toNat * (0x1999999A : BitVec 64).toNat < 2 ^ 64 := by
  have bound := r.isLt
  have factor : (0x1999999A : BitVec 64).toNat = 429496730 := rfl
  rw [BitVec.toNat_setWidth, factor]
  omega

/-- Ten times a quotient by ten does not overflow. -/
theorem tens_fit {r q : Word} (quotient : q.toNat = r.toNat / 10) :
    (10 : Word).toNat * q.toNat < 2 ^ 32 := by
  have bound := r.isLt
  have ten : (10 : Word).toNat = 10 := rfl
  rw [ten, quotient]
  omega

theorem truncLoopNoted_exact {fuel : Nat} {tmp : List Byte} {r : Word}
    (bound : r.toNat < 100000000) :
    NotesOnly Arithmetic.Exact (truncLoopNoted fuel tmp r) := by
  induction fuel generalizing tmp r with
  | zero => exact NotesOnly.lift _
  | succ fuel inductionHypothesis =>
      rw [truncLoopNoted]
      split
      · have quotient := reciprocal_first bound
        refine exact_multiply (wide_fits r) (NotesOnly.note_bind quotient ?_)
        refine exact_multiply (tens_fit quotient) (NotesOnly.lift_bind ?_)
        exact fun _ => inductionHypothesis (by omega)
      · exact NotesOnly.pure _

/-- The loop ends with a number of at most four digits. -/
theorem truncLoop_small {fuel : Nat} {tmp tmp' : List Byte} {r r' : Word}
    (run : truncLoop fuel tmp r = some (tmp', r')) : r'.toNat < 10000 := by
  induction fuel generalizing tmp r with
  | zero => cases run
  | succ fuel inductionHypothesis =>
      rw [truncLoop] at run
      split at run
      · obtain ⟨_, _, rest⟩ := Option.bind_eq_some_iff.mp run
        exact inductionHypothesis rest
      · next done =>
          cases run
          exact Nat.not_le.mp done

/-- The products of the unrolled divisions. -/
theorem tail_fits {r factor : Word} (small : r.toNat < 10000)
    (short : factor.toNat ≤ 6554) : r.toNat * factor.toNat < 2 ^ 32 :=
  calc
    r.toNat * factor.toNat ≤ 10000 * 6554 := Nat.mul_le_mul small.le short
    _ < 2 ^ 32 := by decide

/-- A digit of the unrolled divisions: its arithmetic is exact, and the rest
goes on with the quotient by ten. -/
theorem exact_digit {r factor : Word} {shift : Nat} {tmp : List Byte}
    {f : Word → List Byte → Noted Arithmetic α}
    (small : r.toNat < 10000) (short : factor.toNat ≤ 6554)
    (quotient : ((r * factor) >>> shift).toNat = r.toNat / 10)
    (rest : ∀ q : Word, q.toNat = r.toNat / 10 → ∀ tmp,
      NotesOnly Arithmetic.Exact (f q tmp)) :
    NotesOnly Arithmetic.Exact (do
      let q ← reciprocal r factor shift
      let tens ← multiply 10 q
      let tmp ← push tmp ((r - tens + (ch '0').setWidth 32).setWidth 8)
      f q tmp) :=
  exact_reciprocal (tail_fits small short) quotient <|
    exact_multiply (tens_fit quotient) <|
      NotesOnly.lift_bind (rest _ quotient)

theorem putDecTrunc8Noted_exact {tmp : List Byte} {r : Word}
    (bound : r.toNat < 100000000) :
    NotesOnly Arithmetic.Exact (putDecTrunc8Noted tmp r) := by
  refine NotesOnly.bind (truncLoopNoted_exact bound) ?_
  rintro ⟨tmp, a⟩ returned
  rw [truncLoopNoted_result] at returned
  have small := truncLoop_small returned
  refine exact_digit small (by decide) (reciprocal_second small) ?_
  intro b isB tmp
  refine NotesOnly.ite (NotesOnly.pure _) fun _ => ?_
  refine exact_digit (by omega) (by decide) (reciprocal_third (by omega)) ?_
  intro c isC tmp
  refine NotesOnly.ite (NotesOnly.pure _) fun _ => ?_
  refine exact_digit (by omega) (by decide) (reciprocal_third (by omega)) ?_
  intro d isD tmp
  exact NotesOnly.ite (NotesOnly.pure _) fun _ => NotesOnly.lift _

end Exact

/-! ## The digits -/

def digitValue (c : Byte) : Nat := c.toNat - 0x30

/-- The digits of a number below a hundred million, the lowest first. -/
structure IsReversedDecimal (n : Nat) (chars : List Byte) : Prop where
  few : chars.length ≤ 8
  digits : ∀ c ∈ chars, isdigit c = true
  value : n = ((chars.map digitValue).mapIdx fun i digit => digit * 10 ^ i).sum
  last : n ≠ 0 → ∃ c, chars.getLast? = some c ∧ isdigit c = true ∧
    digitValue c ≠ 0
  zero : n = 0 → chars = [ch '0']

theorem isdigit_digitByte {digit : Nat} (small : digit < 10) :
    isdigit (digitByte digit) = true ∧ digitValue (digitByte digit) = digit := by
  have table : ∀ digit : Fin 10, isdigit (digitByte digit.val) = true ∧
      digitValue (digitByte digit.val) = digit.val := by
    decide
  exact table ⟨digit, small⟩

theorem map_digitValue (n : Nat) :
    (decimalChars n).map digitValue = reversedNumeral 10 n := by
  rw [decimalChars, List.map_map]
  refine (List.map_congr_left fun digit member => ?_).trans (List.map_id _)
  exact (isdigit_digitByte (reversedNumeral_lt (by decide) member)).2

theorem decimalChars_isReversedDecimal {n : Nat} (bound : n < 100000000) :
    IsReversedDecimal n (decimalChars n) := by
  have isDigit : ∀ c ∈ decimalChars n, isdigit c = true := by
    intro c member
    obtain ⟨digit, isDigit, rfl⟩ := List.mem_map.mp member
    exact (isdigit_digitByte (reversedNumeral_lt (by decide) isDigit)).1
  constructor
  · exact decimalChars_length_le (by decide) bound
  · exact isDigit
  · rw [map_digitValue, ← Nat.ofDigits_eq_sum_mapIdx, ofDigits_reversedNumeral]
  · intro nonzero
    have nonempty := List.ne_nil_of_length_pos (decimalChars_length_pos n)
    have last := List.getLast?_eq_some_getLast nonempty
    have digit : (reversedNumeral 10 n).getLast? =
        some (digitValue ((decimalChars n).getLast nonempty)) := by
      rw [← map_digitValue, List.getLast?_map, last]
      rfl
    exact ⟨_, last, isDigit _ (List.getLast_mem nonempty),
      reversedNumeral_last_ne_zero nonzero digit⟩
  · rintro rfl
    rfl

/-- `put_dec_trunc8` for every number below a hundred million, with room for
eight characters.  The noted run is the same run, and all its products and
quotients are exact. -/
theorem division_free_digits {tmp : List Byte} {r : Word}
    (bound : r.toNat < 100000000) (room : tmp.length + 8 ≤ 66) :
    ∃ chars events,
      putDecTrunc8 tmp r = some (tmp ++ chars) ∧
      IsReversedDecimal r.toNat chars ∧
      (putDecTrunc8Noted tmp r).run = some (tmp ++ chars, events) ∧
      ∀ event ∈ events, event.Exact := by
  have written := putDecTrunc8_eq bound (by omega : tmp.length ≤ 58)
  obtain ⟨events, run⟩ :=
    exists_run ((putDecTrunc8Noted_result tmp r).trans written)
  exact ⟨decimalChars r.toNat, events, written,
    decimalChars_isReversedDecimal bound, run,
    putDecTrunc8Noted_exact bound _ events run⟩

theorem division_free_digits_12345678 :
    ∃ chars events,
      putDecTrunc8 [] 12345678 = some ([] ++ chars) ∧
      IsReversedDecimal 12345678 chars ∧
      (putDecTrunc8Noted [] 12345678).run = some ([] ++ chars, events) ∧
      ∀ event ∈ events, event.Exact :=
  @division_free_digits [] 12345678 (by decide) (by decide)

end Hlos.Libs
