import Hlos.Libs.NumberOutput

/-!
# Hexadecimal and octal output

What `number` prints in the bases eight and sixteen: spaces, the prefix, zeros,
the numeral and spaces, as long as the width and the precision want it.
-/

namespace Hlos.Libs

open Hlos.Lib Hlos.Lib.Output Hlos.Include

/-! ## The text -/

/-- The value of a digit, where the letters are of the given case. -/
def digitOf (small : Bool) (c : Byte) : Option Nat :=
  let first := if small then ch 'a' else ch 'A'
  if isdigit c then some (c.toNat - 0x30)
  else if first.toNat ≤ c.toNat ∧ c.toNat < first.toNat + 6 then
    some (c.toNat - first.toNat + 10)
  else none

/-- The numeral reads as the number, and no shorter one does. -/
structure IsNumeral (small : Bool) (base n : Nat) (chars : List Byte) :
    Prop where
  nonempty : chars ≠ []
  value : readNumeral (digitOf small) base 0 chars = some n
  minimal : chars.head? = some (ch '0') → chars = [ch '0']

/-- `0x` or `0X` in front of every hexadecimal number, `0` in front of an octal
number that is not zero. -/
def radixPrefix (small : Bool) (base n : Nat) : List Byte :=
  if base = 16 then [ch '0', if small then ch 'x' else ch 'X']
  else if n = 0 then []
  else [ch '0']

def PrintfSpec.small (spec : PrintfSpec) : Bool := spec.flags &&& SMALL ≠ 0

/-- The prefix that the flags ask for. -/
def PrintfSpec.radixPrefix (spec : PrintfSpec) (n : Nat) : List Byte :=
  if spec.flags &&& SPECIAL ≠ 0 then
    Libs.radixPrefix spec.small spec.base.toNat n
  else []

/-- The text of a number in base eight or sixteen. -/
structure RadixText (n : Nat) (spec : PrintfSpec) (text : List Byte) :
    Prop where
  parts : ∃ lead zeros trail numeral,
    text = List.replicate lead (ch ' ') ++ (spec.radixPrefix n ++
      (List.replicate zeros (ch '0') ++
        (numeral ++ List.replicate trail (ch ' ')))) ∧
    IsNumeral spec.small spec.base.toNat n numeral ∧
    (lead = 0 ∨ trail = 0) ∧
    (text.length : Int) =
      max spec.fieldWidth.toInt
        ((spec.radixPrefix n).length +
          max spec.precision.toInt numeral.length)

/-! ## Digits -/

/-- The bit of `SMALL` is the bit that makes a letter small. -/
theorem small_bits (spec : PrintfSpec) :
    spec.flags &&& SMALL = if spec.small then SMALL else 0 := by
  have table : ∀ flags : Byte, flags &&& SMALL =
      if flags &&& SMALL ≠ 0 then SMALL else 0 := by
    decide +kernel
  simpa [PrintfSpec.small] using table spec.flags

theorem digitOf_caseByte (small : Bool) {digit : Nat} (bound : digit < 16) :
    digitOf small (caseByte (if small then SMALL else 0) digit) =
      some digit := by
  have table : ∀ (small : Bool) (digit : Fin 16),
      digitOf small (caseByte (if small then SMALL else 0) digit.val) =
        some digit.val := by
    decide +kernel
  exact table small ⟨digit, bound⟩

/-- The characters of `tmp` in reverse order are the numeral. -/
theorem baseChars_isNumeral (small : Bool) {base : Nat} (proper : 1 < base)
    (known : base ≤ 16) (n : Nat) :
    IsNumeral small base n
      (baseChars (if small then SMALL else 0) base n).reverse := by
  have readable : ∀ digit, digit ∈ reversedNumeral base n →
      digit < base ∧
        digitOf small (caseByte (if small then SMALL else 0) digit) =
          some digit := by
    intro digit member
    have bound := reversedNumeral_lt proper member
    exact ⟨bound, digitOf_caseByte small (by omega)⟩
  have zeroChar : digitOf small (ch '0') = some 0 := by
    cases small <;> rfl
  constructor
  · intro empty
    have positive := reversedNumeral_length_pos base n
    have none_ := congrArg List.length empty
    rw [List.length_reverse, baseChars, List.length_map] at none_
    rw [none_] at positive
    exact absurd positive (by decide)
  · rw [baseChars, readNumeral_reverse _ 0 readable, Nat.zero_mul,
      Nat.zero_add, ofDigits_reversedNumeral]
  · intro leading
    rw [List.head?_reverse, baseChars, List.getLast?_map] at leading
    obtain ⟨digit, last, isZero⟩ := Option.map_eq_some_iff.mp leading
    have member := List.mem_of_getLast? last
    have value := (readable digit member).2
    rw [isZero, zeroChar] at value
    have zero : n = 0 := by
      by_contra nonzero
      exact reversedNumeral_last_ne_zero nonzero last
        (Option.some.inj value).symm
    rw [zero, baseChars_of_lt _ (Nat.zero_lt_of_lt proper)]
    cases small <;> rfl

/-! ## The call of `number` -/

/-- What `format_decode` leaves for `o`, `x` and `X`, with a width and a
precision of at most 32000. -/
structure RadixSpec (spec : PrintfSpec) : Prop where
  base : spec.base = 8 ∨ spec.base = 16
  unsigned : spec.flags &&& SIGN = 0
  width : -1 ≤ spec.fieldWidth.toInt ∧ spec.fieldWidth.toInt ≤ 32000
  precision : -1 ≤ spec.precision.toInt ∧ spec.precision.toInt ≤ 32000

section Number

variable {num : BitVec 64} {spec : PrintfSpec}

theorem numberSign_unsigned (unsigned : spec.flags &&& SIGN = 0) :
    numberSign num spec = ⟨[], num, spec.fieldWidth⟩ :=
  if_neg (not_not.mpr unsigned)

theorem RadixSpec.digits (radix : RadixSpec spec) :
    numberDigits num spec.base (spec.flags &&& SMALL) =
        some (baseChars (if spec.small then SMALL else 0) spec.base.toNat
          num.toNat) ∧
      (baseChars (if spec.small then SMALL else 0) spec.base.toNat
        num.toNat).length ≤ 22 := by
  have wide := num.isLt
  rw [small_bits]
  cases radix.base with
  | inl octal =>
      rw [octal]
      exact ⟨numberDigits_octal num _,
        baseChars_length_le _ (by decide) (by decide) (by
          change num.toNat < 8 ^ 22
          omega)⟩
  | inr hex =>
      rw [hex]
      exact ⟨numberDigits_hex num _,
        baseChars_length_le _ (by decide) (by decide) (by
          change num.toNat < 16 ^ 22
          omega)⟩

theorem RadixSpec.needPfx (radix : RadixSpec spec) :
    Libs.needPfx spec = decide (spec.flags &&& SPECIAL ≠ 0) := by
  have notDecimal : spec.base ≠ 10 := by
    cases radix.base with
    | inl octal =>
        rw [octal]
        decide
    | inr hex =>
        rw [hex]
        decide
  exact decide_eq_decide.mpr
    ⟨And.left, fun special => ⟨special, notDecimal⟩⟩

theorem RadixSpec.prefixText_eq (radix : RadixSpec spec) (num : BitVec 64) :
    prefixText num spec = spec.radixPrefix num.toNat := by
  have zero : num.toNat = 0 ↔ num = 0 := by
    rw [BitVec.toNat_eq]
    rfl
  have letter : ch 'X' ||| (if spec.small then SMALL else 0) =
      if spec.small then ch 'x' else ch 'X' := by
    cases spec.small <;> rfl
  rw [prefixText, radix.needPfx, PrintfSpec.radixPrefix, small_bits, letter]
  by_cases special : spec.flags &&& SPECIAL ≠ 0
  · rw [if_pos (decide_eq_true special), if_pos special]
    cases radix.base with
    | inl octal =>
        have notHex : (8 : Byte) ≠ 16 := by decide
        rw [octal, if_neg notHex, List.append_nil]
        by_cases isZero : num = 0
        · have noDigit : ¬ ((8 : Byte) = 16 ∨ num ≠ 0) :=
            fun either => either.elim notHex fun nonzero => nonzero isZero
          rw [if_neg noDigit, Libs.radixPrefix, if_neg (by decide),
            if_pos (zero.mpr isZero)]
        · rw [if_pos (Or.inr isZero), Libs.radixPrefix, if_neg (by decide),
            if_neg (mt zero.mp isZero)]
    | inr hex =>
        rw [hex, if_pos (Or.inl rfl), if_pos rfl]
        rfl
  · rw [if_neg (by simpa using special), if_neg special]

theorem radixPrefix_length_le (spec : PrintfSpec) (n : Nat) :
    (spec.radixPrefix n).length ≤ 2 := by
  unfold PrintfSpec.radixPrefix Libs.radixPrefix
  repeat' split
  all_goals decide

/-- The prefix takes its length off the width. -/
theorem RadixSpec.prefixWidth_toInt (radix : RadixSpec spec)
    (num : BitVec 64) :
    (prefixWidth num spec spec.fieldWidth).toInt =
      spec.fieldWidth.toInt - (spec.radixPrefix num.toNat).length := by
  have low := radix.width.1
  have isLength : prefixWidth num spec spec.fieldWidth =
      spec.fieldWidth -
        BitVec.ofNat 16 (spec.radixPrefix num.toNat).length := by
    rw [← radix.prefixText_eq, prefixWidth, prefixText, radix.needPfx]
    have unchanged : spec.fieldWidth - BitVec.ofNat 16 0 =
        spec.fieldWidth := BitVec.sub_zero _
    by_cases special : spec.flags &&& SPECIAL ≠ 0
    · rw [if_pos (decide_eq_true special), if_pos (decide_eq_true special)]
      by_cases hex : spec.base = 16
      · rw [if_pos hex, if_pos (Or.inl hex), if_pos hex]
        rfl
      · by_cases isZero : num = 0
        · have noDigit : ¬ (spec.base = 16 ∨ num ≠ 0) :=
            fun either => either.elim hex fun nonzero => nonzero isZero
          rw [if_neg hex, if_neg (not_not.mpr isZero), if_neg noDigit,
            if_neg hex]
          exact unchanged.symm
        · rw [if_neg hex, if_pos isZero, if_pos (Or.inr isZero), if_neg hex]
          rfl
    · rw [if_neg (by simpa using special), if_neg (by simpa using special)]
      exact unchanged.symm
  have short := radixPrefix_length_le spec num.toNat
  rw [isLength, toInt_sub_ofNat (by omega)]

/-- The parts fill up the width, or go past it by themselves. -/
theorem length_of_radixParts {lead fill zeros trail pfx digits : Nat}
    {width precision raised padding : Int}
    (isRaised : raised = max (digits : Int) precision)
    (isPadding : padding = width - pfx - raised)
    (filled : digits + zeros = raised.toNat)
    (padded : lead + fill + trail = padding.toNat) :
    ((lead + (pfx + (fill + zeros + (digits + trail))) : Nat) : Int) =
      max width (pfx + max precision digits) := by
  omega

/-- `number` in the bases eight and sixteen, for every number and all flags
without `SIGN`. -/
theorem radix_output (num : BitVec 64) (radix : RadixSpec spec) :
    ∃ text, RadixText num.toNat spec text ∧
      ∀ limit o, number limit num spec o = some (emitAll limit text o) ∧
        (o.cursor.toNat + text.length ≤ limit.toNat →
          ∀ (i : Nat) (inside : i < text.length),
            (emitAll limit text o).memory.bytes (o.cursor.toNat + i) =
              text[i]) := by
  obtain ⟨digits, few⟩ := @RadixSpec.digits num spec radix
  have proper : 1 < spec.base.toNat ∧ spec.base.toNat ≤ 16 := by
    cases radix.base with
    | inl octal =>
        rw [octal]
        decide
    | inr hex =>
        rw [hex]
        decide
  have numeral :=
    baseChars_isNumeral spec.small proper.1 proper.2 num.toNat
  generalize baseChars (if spec.small then SMALL else 0) spec.base.toNat
    num.toNat = tmp at digits few numeral
  have sign := @numberSign_unsigned num spec radix.unsigned
  have raised := @raisedPrecision_toInt tmp.length (by omega) spec.precision
  have short := radixPrefix_length_le spec num.toNat
  have width := radix.width
  have precision := radix.precision
  have left := radix.prefixWidth_toInt num
  have padding : (paddingWidth num spec tmp.length).toInt =
      spec.fieldWidth.toInt - (spec.radixPrefix num.toNat).length -
        (raisedPrecision tmp.length spec.precision).toInt := by
    have difference : paddingWidth num spec tmp.length =
        prefixWidth num spec spec.fieldWidth -
          raisedPrecision tmp.length spec.precision := by
      rw [paddingWidth, sign]
    rw [difference, toInt_sub_16, left]
    · omega
    · omega
  have signedDigits : numberDigits (numberSign num spec).num spec.base
      (spec.flags &&& SMALL) = some tmp := by
    rw [sign]
    exact digits
  obtain ⟨lead, fill, zeros, trail, run, filled, padded, fillZero, oneSide⟩ :=
    exists_numberRun_of_width (by omega) signedDigits (by omega)
  have filling := replicate_fill fillZero zeros
  have shape : numberText num spec tmp lead fill zeros trail =
      List.replicate lead (ch ' ') ++ (spec.radixPrefix num.toNat ++
        (List.replicate (fill + zeros) (ch '0') ++
          (tmp.reverse ++ List.replicate trail (ch ' ')))) := by
    rw [numberText, sign, radix.prefixText_eq, ← filling]
    simp only [List.nil_append, List.append_assoc]
  refine ⟨numberText num spec tmp lead fill zeros trail,
    ⟨lead, fill + zeros, trail, tmp.reverse, shape, numeral, oneSide, ?_⟩, ?_⟩
  · rw [shape]
    simpa only [List.length_append, List.length_replicate, List.length_reverse]
      using length_of_radixParts raised padding filled padded
  · intro limit o
    exact ⟨run.number_eq limit o, fun fits i inside =>
      emitAll_stored fits inside⟩

end Number

/-- `%#10x` of 48879. -/
theorem radix_output_beef :
    ∃ text, RadixText 48879
        ⟨.uint, SMALL ||| SPECIAL, 16, 0xFF, 10, -1⟩ text ∧
      ∀ limit o, number limit 48879
          ⟨.uint, SMALL ||| SPECIAL, 16, 0xFF, 10, -1⟩ o =
            some (emitAll limit text o) ∧
        (o.cursor.toNat + text.length ≤ limit.toNat →
          ∀ (i : Nat) (inside : i < text.length),
            (emitAll limit text o).memory.bytes (o.cursor.toNat + i) =
              text[i]) :=
  radix_output 48879
    ⟨Or.inr rfl, by decide, ⟨by decide, by decide⟩, ⟨by decide, by decide⟩⟩

end Hlos.Libs
