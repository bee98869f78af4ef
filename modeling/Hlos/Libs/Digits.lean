import Hlos.Lib.Numeral
import Hlos.Libs.Conversions

/-!
# Digit generation

`put_dec_trunc8` divides by ten with reciprocals.  Below a hundred million the
products do not overflow, the quotients are exact, and the characters written
are the decimal digits, the lowest first.  For the bases eight and sixteen the
digits are cut off by a mask and a shift.
-/

namespace Hlos.Libs

open Hlos.Lib Hlos.Include

def digitByte (digit : Nat) : Byte := BitVec.ofNat 8 (0x30 + digit)

/-- The decimal digits of a number as characters, the lowest first. -/
def decimalChars (n : Nat) : List Byte := (reversedNumeral 10 n).map digitByte

theorem push_eq {tmp : List Byte} (room : tmp.length < 66) (c : Byte) :
    push tmp c = some (tmp ++ [c]) :=
  if_pos room

/-! ## Reciprocals -/

theorem reciprocal_first {r : Word} (bound : r.toNat < 100000000) :
    (((r.setWidth 64 * (0x1999999A : BitVec 64)) >>> 20 >>> 12).setWidth 32 :
      Word).toNat = r.toNat / 10 := by
  have factor : (0x1999999A : BitVec 64).toNat = 429496730 := rfl
  have quotient : r.toNat * 429496730 / (2 ^ 20 * 2 ^ 12) = r.toNat / 10 :=
    @mul_div_reciprocal _ 10 429496730 (2 ^ 20 * 2 ^ 12) 4 (by decide)
      (by omega)
  have widened : r.toNat % 2 ^ 64 = r.toNat := by omega
  have product : r.toNat * 429496730 % 2 ^ 64 = r.toNat * 429496730 := by omega
  have narrowed : r.toNat / 10 % 2 ^ 32 = r.toNat / 10 := by omega
  rw [BitVec.toNat_setWidth, BitVec.toNat_ushiftRight,
    BitVec.toNat_ushiftRight, BitVec.toNat_mul, BitVec.toNat_setWidth, factor,
    Nat.shiftRight_eq_div_pow, Nat.shiftRight_eq_div_pow, widened, product,
    Nat.div_div_eq_div_mul, quotient, narrowed]

theorem reciprocal_second {r : Word} (bound : r.toNat < 10000) :
    ((r * 0x199A) >>> 16).toNat = r.toNat / 10 := by
  have factor : (0x199A : Word).toNat = 6554 := rfl
  rw [BitVec.toNat_ushiftRight, BitVec.toNat_mul, factor,
    Nat.shiftRight_eq_div_pow, Nat.mod_eq_of_lt (by omega)]
  exact @mul_div_reciprocal _ 10 6554 (2 ^ 16) 4 (by decide) (by omega)

theorem reciprocal_third {r : Word} (bound : r.toNat < 1000) :
    ((r * 0xCD) >>> 11).toNat = r.toNat / 10 := by
  have factor : (0xCD : Word).toNat = 205 := rfl
  rw [BitVec.toNat_ushiftRight, BitVec.toNat_mul, factor,
    Nat.shiftRight_eq_div_pow, Nat.mod_eq_of_lt (by omega)]
  exact @mul_div_reciprocal _ 10 205 (2 ^ 11) 2 (by decide) (by omega)

/-- The character of the lowest digit. -/
theorem lowDigit {r q : Word} (quotient : q.toNat = r.toNat / 10) :
    (r - 10 * q + (ch '0').setWidth 32).setWidth 8 =
      digitByte (r.toNat % 10) := by
  have bound := r.isLt
  have zero : ((ch '0').setWidth 32 : Word).toNat = 48 := rfl
  have ten : (10 : Word).toNat = 10 := rfl
  apply BitVec.eq_of_toNat_eq
  rw [digitByte, BitVec.toNat_setWidth, BitVec.toNat_add, BitVec.toNat_sub,
    BitVec.toNat_mul, BitVec.toNat_ofNat, zero, ten, quotient]
  omega

/-- The character of a single digit. -/
theorem singleDigit {r : Word} (small : r.toNat < 10) :
    (r + (ch '0').setWidth 32).setWidth 8 = digitByte (r.toNat % 10) := by
  have zero : ((ch '0').setWidth 32 : Word).toNat = 48 := rfl
  apply BitVec.eq_of_toNat_eq
  rw [digitByte, BitVec.toNat_setWidth, BitVec.toNat_add, BitVec.toNat_ofNat,
    zero]
  omega

theorem quotient_eq_zero_iff {r q : Word} (quotient : q.toNat = r.toNat / 10) :
    q = 0 ↔ r.toNat / 10 = 0 := by
  rw [← quotient]
  exact BitVec.toNat_eq

theorem decimalChars_of_lt {n : Nat} (small : n < 10) :
    decimalChars n = [digitByte n] := by
  rw [decimalChars, reversedNumeral_of_lt small]
  rfl

theorem decimalChars_step {n : Nat} (large : 10 ≤ n) :
    decimalChars n = digitByte (n % 10) :: decimalChars (n / 10) := by
  rw [decimalChars, reversedNumeral_step (by decide) large]
  rfl

theorem decimalChars_length_pos (n : Nat) : 0 < (decimalChars n).length := by
  rw [decimalChars, List.length_map]
  exact reversedNumeral_length_pos 10 n

theorem decimalChars_length_le {n count : Nat} (positive : 0 < count)
    (bound : n < 10 ^ count) : (decimalChars n).length ≤ count := by
  rw [decimalChars, List.length_map]
  exact reversedNumeral_length_le (by decide) positive bound

/-! ## Decimal digits -/

/-- The loop leaves a number of at most four digits, and writes the lower
ones. -/
theorem truncLoop_spec {turns fuel : Nat} {tmp : List Byte} {r : Word}
    (bound : r.toNat < 100000000) (digits : r.toNat < 10 ^ (4 + turns))
    (enough : turns < fuel) (room : tmp.length + turns ≤ 62) :
    ∃ tmp' r', truncLoop fuel tmp r = some (tmp', r') ∧ r'.toNat < 10000 ∧
      tmp'.length ≤ 62 ∧
      tmp' ++ decimalChars r'.toNat = tmp ++ decimalChars r.toNat := by
  induction turns generalizing fuel tmp r with
  | zero =>
      cases fuel with
      | zero => cases enough
      | succ fuel =>
          refine ⟨tmp, r, ?_, digits, room, rfl⟩
          exact if_neg (Nat.not_le.mpr digits)
  | succ turns inductionHypothesis =>
      cases fuel with
      | zero => cases enough
      | succ fuel =>
          by_cases more : 10000 ≤ r.toNat
          · let q : Word :=
              ((r.setWidth 64 * (0x1999999A : BitVec 64)) >>> 20 >>>
                12).setWidth 32
            have quotient : q.toNat = r.toNat / 10 := reciprocal_first bound
            have char : (r + (ch '0').setWidth 32 - 10 * q).setWidth 8 =
                digitByte (r.toNat % 10) := by
              rw [BitVec.sub_eq_add_neg, BitVec.add_assoc,
                BitVec.add_comm _ (-(10 * q)), ← BitVec.add_assoc,
                ← BitVec.sub_eq_add_neg]
              exact lowDigit quotient
            have power : 10 ^ (4 + (turns + 1)) = 10 * 10 ^ (4 + turns) := by
              rw [← Nat.add_assoc, Nat.pow_succ, Nat.mul_comm]
            rw [power] at digits
            have written : (tmp ++ [digitByte (r.toNat % 10)]).length + turns ≤
                62 := by
              rw [List.length_append, List.length_singleton]
              omega
            obtain ⟨tmp', r', run, small, short, same⟩ :=
              @inductionHypothesis fuel (tmp ++ [digitByte (r.toNat % 10)]) q
                (by omega) (by omega) (Nat.lt_of_succ_lt_succ enough) written
            refine ⟨tmp', r', ?_, small, short, ?_⟩
            · rw [truncLoop, if_pos more]
              change (push tmp ((r + (ch '0').setWidth 32 - 10 * q).setWidth
                8)).bind _ = _
              rw [char, push_eq (by omega)]
              exact run
            · rw [same, quotient, decimalChars_step (n := r.toNat) (by omega),
                List.append_assoc]
              rfl
          · refine ⟨tmp, r, if_neg more, Nat.not_le.mp more, by omega, rfl⟩

/-- A digit is the last one, or the next division goes on. -/
theorem decimalChars_last {n : Nat} (last : n / 10 = 0) :
    decimalChars n = [digitByte (n % 10)] := by
  have small : n < 10 := by omega
  rw [decimalChars_of_lt small, Nat.mod_eq_of_lt small]

theorem decimalChars_next {n : Nat} (more : n / 10 ≠ 0) :
    decimalChars n = digitByte (n % 10) :: decimalChars (n / 10) :=
  decimalChars_step (by omega)

/-- One of the unrolled divisions: the code behind it sees the quotient, if
that is not zero. -/
theorem unrolledDigit {tmp : List Byte} {r q : Word}
    {more : List Byte → Option (List Byte)}
    (quotient : q.toNat = r.toNat / 10) (room : tmp.length < 66)
    (rest : ∀ tmp', tmp'.length = tmp.length + 1 → q.toNat ≠ 0 →
      more tmp' = some (tmp' ++ decimalChars q.toNat)) :
    ((push tmp ((r - 10 * q + (ch '0').setWidth 32).setWidth 8)).bind
        fun tmp' => if q = 0 then some tmp' else more tmp') =
      some (tmp ++ decimalChars r.toNat) := by
  have zero := quotient_eq_zero_iff quotient
  rw [lowDigit quotient, push_eq room, Option.bind_some]
  by_cases last : r.toNat / 10 = 0
  · rw [if_pos (zero.mpr last), decimalChars_last last]
  · have written := rest (tmp ++ [digitByte (r.toNat % 10)])
      List.length_append (by rw [quotient]; exact last)
    rw [if_neg (mt zero.mp last), written, quotient, decimalChars_next last,
      List.append_assoc]
    rfl

/-- The unrolled divisions write the rest. -/
theorem putDecTrunc8_eq {tmp : List Byte} {r : Word}
    (bound : r.toNat < 100000000) (room : tmp.length ≤ 58) :
    putDecTrunc8 tmp r = some (tmp ++ decimalChars r.toNat) := by
  obtain ⟨tmp', a, run, small, short, same⟩ :=
    @truncLoop_spec 4 16 tmp r bound bound (by decide) (by omega)
  rw [← same, putDecTrunc8, run]
  have quotientA := reciprocal_second small
  refine unrolledDigit quotientA (by omega) fun tmpB longB _ => ?_
  have quotientB := @reciprocal_third ((a * 0x199A) >>> 16) (by omega)
  refine unrolledDigit quotientB (by omega) fun tmpC longC _ => ?_
  have quotientC :=
    @reciprocal_third (((a * 0x199A) >>> 16 * 0xCD) >>> 11) (by omega)
  refine unrolledDigit quotientC (by omega) fun tmpD longD _ => ?_
  rw [singleDigit (by omega), push_eq (by omega), decimalChars_last (by omega)]

/-- `put_dec` is the null pointer for large values. -/
theorem putDec_eq_none {tmp : List Byte} {n : BitVec 64}
    (large : 100000000 ≤ n.toNat) : putDec tmp n = none :=
  if_neg (Nat.not_lt.mpr large)

theorem putDec_eq {n : BitVec 64} (bound : n.toNat < 100000000) :
    putDec [] n = some (decimalChars n.toNat) := by
  have narrowed : (n.setWidth 32 : Word).toNat = n.toNat := by
    rw [BitVec.toNat_setWidth]
    omega
  have written := @putDecTrunc8_eq [] (n.setWidth 32)
    (by rw [narrowed]; exact bound) (by decide)
  rw [narrowed, List.nil_append] at written
  rw [putDec, if_pos bound]
  exact written

/-! ## Octal and hexadecimal digits -/

/-- The character of a digit, with the case bit. -/
def caseByte (locase : Byte) (digit : Nat) : Byte :=
  digits.getD digit 0 ||| locase

def baseChars (locase : Byte) (base n : Nat) : List Byte :=
  (reversedNumeral base n).map (caseByte locase)

theorem digits_getElem? {digit : Nat} (small : digit < 16) :
    digits[digit]? = some (digits.getD digit 0) := by
  have bound : digit < digits.length := small
  rw [List.getD_eq_getElem?_getD, List.getElem?_eq_getElem bound]
  rfl

theorem baseChars_of_lt {n base : Nat} (locase : Byte) (small : n < base) :
    baseChars locase base n = [caseByte locase n] := by
  rw [baseChars, reversedNumeral_of_lt small]
  rfl

theorem baseChars_step {n base : Nat} (locase : Byte) (proper : 1 < base)
    (large : base ≤ n) :
    baseChars locase base n =
      caseByte locase (n % base) :: baseChars locase base (n / base) := by
  rw [baseChars, reversedNumeral_step proper large]
  rfl

theorem baseChars_length_le {n base count : Nat} (locase : Byte)
    (proper : 1 < base) (positive : 0 < count) (bound : n < base ^ count) :
    (baseChars locase base n).length ≤ count := by
  rw [baseChars, List.length_map]
  exact reversedNumeral_length_le proper positive bound

section DigitLoop

variable {mask : Byte} {shift : Nat} {locase : Byte}

theorem masked_digit (num : BitVec 64) (isMask : mask.toNat = 2 ^ shift - 1)
    (small : shift ≤ 4) :
    (num.setWidth 8 &&& mask).toNat = num.toNat % 2 ^ shift := by
  rw [BitVec.toNat_and, BitVec.toNat_setWidth, isMask,
    Nat.and_two_pow_sub_one_eq_mod]
  exact Nat.mod_mod_of_dvd _ (Nat.pow_dvd_pow 2 (by omega))

theorem shifted_toNat (num : BitVec 64) (shift : Nat) :
    (num >>> shift).toNat = num.toNat / 2 ^ shift := by
  rw [BitVec.toNat_ushiftRight, Nat.shiftRight_eq_div_pow]

theorem digitLoop_turn {fuel : Nat} {tmp : List Byte} (num : BitVec 64)
    (isMask : mask.toNat = 2 ^ shift - 1) (small : shift ≤ 4)
    (room : tmp.length < 66) :
    digitLoop mask shift locase (fuel + 1) tmp num =
      if num.toNat < 2 ^ shift then some (tmp ++ [caseByte locase num.toNat])
      else digitLoop mask shift locase fuel
        (tmp ++ [caseByte locase (num.toNat % 2 ^ shift)]) (num >>> shift) := by
  have positive : 0 < 2 ^ shift := Nat.two_pow_pos shift
  have digit : num.toNat % 2 ^ shift < 16 :=
    calc
      num.toNat % 2 ^ shift < 2 ^ shift := Nat.mod_lt _ positive
      _ ≤ 2 ^ 4 := Nat.pow_le_pow_right (by decide) small
  have ends : num >>> shift = 0 ↔ num.toNat < 2 ^ shift := by
    rw [BitVec.toNat_eq, shifted_toNat]
    exact Nat.div_eq_zero_iff_lt positive
  rw [digitLoop, masked_digit num isMask small, digits_getElem? digit]
  change (push tmp (caseByte locase _)).bind _ = _
  rw [push_eq room]
  change (if num >>> shift = 0 then _ else _) = _
  by_cases last : num.toNat < 2 ^ shift
  · rw [if_pos (ends.mpr last), if_pos last, Nat.mod_eq_of_lt last]
    rfl
  · rw [if_neg (mt ends.mp last), if_neg last]

/-- Mask and shift cut off the digits of the number. -/
theorem digitLoop_eq {turns fuel : Nat} {tmp : List Byte} {num : BitVec 64}
    (isMask : mask.toNat = 2 ^ shift - 1) (positive : 0 < shift)
    (small : shift ≤ 4) (bound : num.toNat < 2 ^ (shift * (turns + 1)))
    (enough : turns < fuel) (room : tmp.length + turns < 66) :
    digitLoop mask shift locase fuel tmp num =
      some (tmp ++ baseChars locase (2 ^ shift) num.toNat) := by
  induction turns generalizing fuel tmp num with
  | zero =>
      cases fuel with
      | zero => cases enough
      | succ fuel =>
          rw [Nat.mul_one] at bound
          rw [digitLoop_turn num isMask small room, if_pos bound,
            baseChars_of_lt locase bound]
  | succ turns inductionHypothesis =>
      cases fuel with
      | zero => cases enough
      | succ fuel =>
          rw [digitLoop_turn num isMask small (by omega)]
          by_cases last : num.toNat < 2 ^ shift
          · rw [if_pos last, baseChars_of_lt locase last]
          · have proper : 1 < 2 ^ shift := Nat.one_lt_two_pow (by omega)
            have shifted : (num >>> shift).toNat < 2 ^ (shift * (turns + 1)) := by
              rw [shifted_toNat, Nat.div_lt_iff_lt_mul (Nat.two_pow_pos shift),
                ← Nat.pow_add]
              exact bound
            rw [if_neg last, inductionHypothesis shifted
              (Nat.lt_of_succ_lt_succ enough), shifted_toNat,
              baseChars_step locase proper (Nat.not_lt.mp last),
              List.append_assoc]
            · rfl
            · rw [List.length_append, List.length_singleton]
              omega

end DigitLoop

/-! ## The characters of a number -/

theorem numberDigits_of_lt {num : BitVec 64} {base : Byte} (locase : Byte)
    (small : num.toNat < base.toNat) (known : base.toNat ≤ 16) :
    numberDigits num base locase = some [caseByte locase num.toNat] := by
  rw [numberDigits, if_pos small, digits_getElem? (by omega)]
  rfl

theorem numberDigits_loop {num : BitVec 64} {base : Byte} (locase : Byte)
    (large : base.toNat ≤ num.toNat) (other : base ≠ 10) :
    numberDigits num base locase =
      digitLoop (base - 1) (if base = 16 then 4 else 3) locase 64 [] num := by
  rw [numberDigits, if_neg (Nat.not_lt.mpr large), if_pos other]

theorem numberDigits_putDec {num : BitVec 64} (locase : Byte)
    (large : (10 : Byte).toNat ≤ num.toNat) :
    numberDigits num 10 locase = putDec [] num := by
  rw [numberDigits, if_neg (Nat.not_lt.mpr large),
    if_neg (fun differs => differs rfl)]

theorem numberDigits_octal (num : BitVec 64) (locase : Byte) :
    numberDigits num 8 locase = some (baseChars locase 8 num.toNat) := by
  have wide := num.isLt
  by_cases small : num.toNat < 8
  · rw [numberDigits_of_lt locase small (by decide),
      baseChars_of_lt locase small]
  · rw [numberDigits_loop locase (Nat.not_lt.mp small) (by decide)]
    exact @digitLoop_eq 7 3 locase 21 64 [] num rfl (by decide) (by decide)
      (by omega) (by decide) (by decide)

theorem numberDigits_hex (num : BitVec 64) (locase : Byte) :
    numberDigits num 16 locase = some (baseChars locase 16 num.toNat) := by
  have wide := num.isLt
  by_cases small : num.toNat < 16
  · rw [numberDigits_of_lt locase small (by decide),
      baseChars_of_lt locase small]
  · rw [numberDigits_loop locase (Nat.not_lt.mp small) (by decide)]
    exact @digitLoop_eq 15 4 locase 15 64 [] num rfl (by decide) (by decide)
      (by omega) (by decide) (by decide)

/-- The case bit does not change a decimal digit. -/
theorem caseByte_decimal {digit : Nat} (small : digit < 10) :
    caseByte 0 digit = digitByte digit := by
  have all : ∀ digit : Fin 10, caseByte 0 digit.val = digitByte digit.val := by
    decide +kernel
  exact all ⟨digit, small⟩

theorem numberDigits_decimal {num : BitVec 64}
    (bound : num.toNat < 100000000) :
    numberDigits num 10 0 = some (decimalChars num.toNat) := by
  by_cases small : num.toNat < 10
  · rw [numberDigits_of_lt 0 small (by decide), caseByte_decimal small,
      decimalChars_of_lt small]
  · rw [numberDigits_putDec 0 (Nat.not_lt.mp small)]
    exact putDec_eq bound

/-- A large decimal number has no result. -/
theorem numberDigits_eq_none {num : BitVec 64} (locase : Byte)
    (large : 100000000 ≤ num.toNat) : numberDigits num 10 locase = none := by
  rw [numberDigits_putDec locase (Nat.le_trans (by decide) large)]
  exact putDec_eq_none large

/-- The bases that `format_decode` selects, where a decimal number has at most
eight digits. -/
structure Printable (num : BitVec 64) (base : Byte) : Prop where
  known : base = 8 ∨ base = 10 ∨ base = 16
  decimal : base = 10 → num.toNat < 100000000

/-- The characters of a printable number are a few, and they fit. -/
theorem numberDigits_fit {num : BitVec 64} {base : Byte} (locase : Byte)
    (printable : Printable num base) :
    ∃ tmp, numberDigits num base locase = some tmp ∧ tmp.length ≤ 22 := by
  have wide := num.isLt
  rcases printable.known with rfl | rfl | rfl
  · refine ⟨_, numberDigits_octal num locase, ?_⟩
    exact baseChars_length_le locase (by decide) (by decide) (by omega)
  · have bound := printable.decimal rfl
    by_cases small : num.toNat < 10
    · exact ⟨_, numberDigits_of_lt locase small (by decide),
        Nat.le_of_ble_eq_true rfl⟩
    · have few := @decimalChars_length_le num.toNat 8 (by decide) bound
      refine ⟨decimalChars num.toNat, ?_, by omega⟩
      rw [numberDigits_putDec locase (Nat.not_lt.mp small)]
      exact putDec_eq bound
  · refine ⟨_, numberDigits_hex num locase, ?_⟩
    exact baseChars_length_le locase (by decide) (by decide) (by omega)

end Hlos.Libs
