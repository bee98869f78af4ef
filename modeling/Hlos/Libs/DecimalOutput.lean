import Hlos.Libs.NumberOutput
import Hlos.Libs.Qualifiers

/-!
# Decimal output

What an unqualified `%d`, `%i` or `%u` should print, and for which arguments
`number` prints it.  `put_dec` has no result for magnitudes from a hundred
million on.  A `*` precision is stored in 16 bits, so that a negative one may
become positive.
-/

namespace Hlos.Libs

open Hlos.Lib Hlos.Lib.Output Hlos.Include

/-! ## The directive -/

/-- The sign that is printed in front of the numeral. -/
def signText (signed : Bool) (flags : List Flag) (value : Word) : List Byte :=
  if signed then
    if value.toInt < 0 then [ch '-']
    else if .plus ∈ flags then [ch '+']
    else if .space ∈ flags then [ch ' ']
    else []
  else []

def magnitude (signed : Bool) (value : Word) : Nat :=
  if signed then value.toInt.natAbs else value.toNat

def numeralText (n : Nat) : List Byte := (decimalChars n).reverse

/-- The conversions to the base ten. -/
def IntConversion.Decimal (conversion : IntConversion) : Prop :=
  conversion = .d ∨ conversion = .i ∨ conversion = .u

/-- In the state `s` stands a decimal directive whose width and precision are
at most 32000. -/
structure AtDecimal (args : Arguments) (s : PrintState) (head : DirectiveHead)
    (conversion : IntConversion) (rest : List Byte) : Prop where
  fmt : s.fmt = head.text ++ conversion.char :: rest
  notPending : NotPending s.spec
  decimal : conversion.Decimal
  width : head.width.value args s.ap ≤ 32000
  precision : head.precision.value args (s.ap + head.width.stars) ≤ 32000

/-- The argument behind those of the `*`s. -/
def DirectiveHead.argument (head : DirectiveHead) (args : Arguments)
    (ap : Nat) : Word :=
  args.words (ap + head.stars)

/-- The sign and the numeral of the argument. -/
def DirectiveHead.sign (head : DirectiveHead) (conversion : IntConversion)
    (args : Arguments) (ap : Nat) : List Byte :=
  signText conversion.signed head.flags (head.argument args ap)

def DirectiveHead.numeral (head : DirectiveHead) (conversion : IntConversion)
    (args : Arguments) (ap : Nat) : List Byte :=
  numeralText (magnitude conversion.signed (head.argument args ap))

/-- Spaces, the sign, zeros, the numeral and spaces, as long as the width and
the precision want it. -/
structure DecimalText (args : Arguments) (ap : Nat) (head : DirectiveHead)
    (conversion : IntConversion) (text : List Byte) : Prop where
  shape : ∃ lead zeros trail, text =
    List.replicate lead (ch ' ') ++ (head.sign conversion args ap ++
      (List.replicate zeros (ch '0') ++ (head.numeral conversion args ap ++
        List.replicate trail (ch ' '))))
  length : text.length =
    max (head.width.value args ap)
      ((head.sign conversion args ap).length +
        max (head.precision.value args (ap + head.width.stars))
          (head.numeral conversion args ap).length)

/-- The loop reads the directive and its arguments, and prints the text. -/
structure PrintsDecimal (args : Arguments) (buf limit : Word) (s : PrintState)
    (head : DirectiveHead) (conversion : IntConversion) (rest : List Byte)
    (s' : PrintState) (text : List Byte) : Prop where
  turns : vsnTurns args buf limit (head.stars + 1) s = some s'
  fmt : s'.fmt = rest
  ap : s'.ap = s.ap + head.stars + 1
  out : s'.out = emitAll limit text s.out
  text : DecimalText args s.ap head conversion text

/-- The precision as it is stored exceeds the one of the directive only where
the digits or the width hide it. -/
def PrecisionKept (args : Arguments) (ap : Nat) (head : DirectiveHead)
    (conversion : IntConversion) : Prop :=
  (head.precision.field args (ap + head.width.stars)).toInt ≤
    max (head.precision.value args (ap + head.width.stars) : Int)
      (max ((head.numeral conversion args ap).length : Int)
        ((head.width.value args ap : Int) -
          (head.sign conversion args ap).length))

/-! ## Fields of 16 bits -/

theorem toInt_setWidth_16 {x : Word} (low : -32768 ≤ x.toInt)
    (high : x.toInt < 32768) : (x.setWidth 16).toInt = x.toInt := by
  have bound := x.isLt
  rw [BitVec.toInt_eq_toNat_cond] at low high ⊢
  rw [BitVec.toInt_eq_toNat_cond, BitVec.toNat_setWidth]
  split at low
  · split
    · omega
    · omega
  · split
    · omega
    · omega

theorem toInt_neg_16 {x : BitVec 16} (low : -32768 < x.toInt) :
    (-x).toInt = -x.toInt := by
  have lower := @BitVec.toInt_lt 16 x
  rw [BitVec.toInt_neg]
  apply Int.bmod_eq_of_le
  · change (-32768 : Int) ≤ -x.toInt
    omega
  · change -x.toInt < (32768 : Int)
    omega

/-- A decimal count that is small enough is stored unchanged. -/
theorem toInt_decimalCount {n : Nat} (small : n ≤ 32000) :
    ((BitVec.ofNat 32 n).setWidth 16).toInt = n := by
  have value : ((BitVec.ofNat 32 n).setWidth 16).toNat = n := by
    rw [BitVec.toNat_setWidth, BitVec.toNat_ofNat]
    omega
  have half : 2 * ((BitVec.ofNat 32 n).setWidth 16).toNat < 2 ^ 16 := by
    omega
  rw [BitVec.toInt_eq_toNat_of_lt half, value]

/-- The width as it is stored. -/
theorem WidthText.field_toInt {args : Arguments} {ap : Nat} {width : WidthText}
    (small : width.value args ap ≤ 32000) :
    (width.field args ap).toInt = width.value args ap ∨
      ((width.field args ap).toInt = -1 ∧ width.value args ap = 0) := by
  cases width with
  | absent => exact Or.inr ⟨rfl, rfl⟩
  | decimal first more significant =>
      exact Or.inl (toInt_decimalCount small)
  | star =>
      change (args.words ap).toInt.natAbs ≤ 32000 at small
      have stored : ((args.words ap).setWidth 16).toInt =
          (args.words ap).toInt :=
        toInt_setWidth_16 (by omega) (by omega)
      left
      change (if ((args.words ap).setWidth 16 : BitVec 16).toInt < 0 then
        -((args.words ap).setWidth 16) else (args.words ap).setWidth 16).toInt =
          ((args.words ap).toInt.natAbs : Int)
      by_cases negative : ((args.words ap).setWidth 16 : BitVec 16).toInt < 0
      · rw [if_pos negative, toInt_neg_16 (by omega), stored]
        omega
      · rw [if_neg negative, stored]
        omega

theorem clampPrecision_toInt (precision : BitVec 16) :
    (clampPrecision precision).toInt = max 0 precision.toInt := by
  unfold clampPrecision
  split
  · next negative => exact (max_eq_left (Int.le_of_lt negative)).symm
  · next positive => exact (max_eq_right (Int.not_lt.mp positive)).symm

/-- The precision as it is stored is not smaller. -/
theorem PrecisionText.field_toInt {args : Arguments} {ap : Nat}
    {precision : PrecisionText} (small : precision.value args ap ≤ 32000) :
    -1 ≤ (precision.field args ap).toInt ∧
      (precision.value args ap : Int) ≤
        max 0 (precision.field args ap).toInt := by
  have none : -1 ≤ (-1 : BitVec 16).toInt ∧
      ((0 : Nat) : Int) ≤ max 0 (-1 : BitVec 16).toInt := by
    decide
  cases precision with
  | absent => exact none
  | decimal digits =>
      cases digits with
      | nil => exact none
      | cons first more =>
          change decimalValue (first :: more) ≤ 32000 at small
          have stored := toInt_decimalCount small
          rw [PrecisionText.field, clampPrecision_toInt, stored]
          change -1 ≤ max 0 (decimalValue (first :: more) : Int) ∧
            (decimalValue (first :: more) : Int) ≤ _
          omega
  | star =>
      change (args.words ap).toInt.toNat ≤ 32000 at small
      rw [PrecisionText.field, clampPrecision_toInt]
      change -1 ≤ max 0 ((args.words ap).setWidth 16 : BitVec 16).toInt ∧
        ((args.words ap).toInt.toNat : Int) ≤ _
      by_cases negative : (args.words ap).toInt < 0
      · omega
      · rw [toInt_setWidth_16 (by omega) (by omega)]
        omega

/-! ## Signs -/

theorem flag_bit_or (flag other : Flag) (bits : Byte) :
    (bits ||| other.bit) &&& flag.bit ≠ 0 ↔
      bits &&& flag.bit ≠ 0 ∨ flag = other := by
  by_cases same : flag = other
  · rw [← same]
    have isFlag : flag.bit ≠ 0 := by
      cases flag <;> decide
    exact iff_of_true (or_and_self_ne_zero isFlag bits) (Or.inr rfl)
  · have apart : other.bit &&& flag.bit = 0 := by
      cases flag <;> cases other <;> first | rfl | exact absurd rfl same
    rw [or_and_of_apart apart, or_iff_left same]

/-- A flag is set if it was given. -/
theorem flagBits_iff (flag : Flag) (flags : List Flag) :
    flagBits flags &&& flag.bit ≠ 0 ↔ flag ∈ flags := by
  have folded : ∀ bits : Byte,
      flags.foldl (fun bits flag => bits ||| flag.bit) bits &&& flag.bit ≠ 0 ↔
        bits &&& flag.bit ≠ 0 ∨ flag ∈ flags := by
    induction flags with
    | nil => simp
    | cons other flags inductionRest =>
        intro bits
        rw [List.foldl_cons, inductionRest, flag_bit_or, List.mem_cons, or_assoc]
  have start : ¬ ((0 : Byte) &&& flag.bit ≠ 0) := by
    cases flag <;> decide
  rw [flagBits, folded]
  exact or_iff_right start

/-- The flags that `format_decode` leaves, apart from the one for the
alignment. -/
theorem headFlags_iff {flag : Flag} (notLeft : flag ≠ .left)
    (head : DirectiveHead) (args : Arguments) (ap : Nat) (spec : PrintfSpec) :
    (head.spec args ap spec).flags &&& flag.bit ≠ 0 ↔ flag ∈ head.flags := by
  change head.width.flags args ap (flagBits head.flags) &&& flag.bit ≠ 0 ↔ _
  cases head.width with
  | absent => exact flagBits_iff flag head.flags
  | decimal first more significant => exact flagBits_iff flag head.flags
  | star =>
      change (if _ < _ then flagBits head.flags ||| Flag.left.bit
        else flagBits head.flags) &&& flag.bit ≠ 0 ↔ _
      split
      · rw [flag_bit_or, flagBits_iff]
        exact or_iff_left notLeft
      · exact flagBits_iff flag head.flags

theorem IntConversion.spec_flag (conversion : IntConversion) (flag : Flag)
    (spec : PrintfSpec) :
    (conversion.spec spec).flags &&& flag.bit = spec.flags &&& flag.bit := by
  have signed : SIGN &&& flag.bit = 0 := by
    cases flag <;> rfl
  have small : SMALL &&& flag.bit = 0 := by
    cases flag <;> rfl
  cases conversion with
  | d | i => exact or_and_of_apart signed
  | x => exact or_and_of_apart small
  | u | o | X => rfl

/-- The argument as `number` receives it. -/
def argumentBits (signed : Bool) (value : Word) : BitVec 64 :=
  if signed then value.signExtend 64 else value.setWidth 64

/-- The fields of an unqualified conversion. -/
def DirectiveHead.fields (head : DirectiveHead) (conversion : IntConversion)
    (args : Arguments) (ap : Nat) (spec : PrintfSpec) : PrintfSpec :=
  conversion.spec { head.spec args ap spec with qualifier := 0xFF }

section Sign

variable {head : DirectiveHead} {conversion : IntConversion}
  {args : Arguments} {ap : Nat} {spec : PrintfSpec} {value : Word}

theorem fields_signed :
    (head.fields conversion args ap spec).flags &&& SIGN ≠ 0 ↔
      conversion.signed = true :=
  IntConversion.spec_signed (headFlags_unsigned head args ap spec) conversion

theorem fields_flag {flag : Flag} (notLeft : flag ≠ .left) :
    (head.fields conversion args ap spec).flags &&& flag.bit ≠ 0 ↔
      flag ∈ head.flags := by
  rw [DirectiveHead.fields, IntConversion.spec_flag]
  exact headFlags_iff notLeft head args ap spec

theorem toInt_signed (value : Word) :
    (argumentBits true value).toInt = value.toInt :=
  BitVec.toInt_signExtend_of_le (by decide)

theorem numberMagnitude_fields :
    numberMagnitude (argumentBits conversion.signed value)
        (head.fields conversion args ap spec) =
      magnitude conversion.signed value := by
  have isSigned := @fields_signed head conversion args ap spec
  unfold numberMagnitude magnitude
  rw [if_congr isSigned rfl rfl]
  cases conversion.signed with
  | true =>
      rw [if_pos rfl, if_pos rfl, toInt_signed]
  | false =>
      have bound := value.isLt
      change (value.setWidth 64).toNat = value.toNat
      rw [BitVec.toNat_setWidth]
      omega

/-- The sign is split off as the directive says. -/
theorem numberSign_fields :
    (numberSign (argumentBits conversion.signed value)
        (head.fields conversion args ap spec)).sign =
      signText conversion.signed head.flags value ∧
    (numberSign (argumentBits conversion.signed value)
        (head.fields conversion args ap spec)).fieldWidth =
      head.width.field args ap - BitVec.ofNat 16
        (signText conversion.signed head.flags value).length := by
  have width : (head.fields conversion args ap spec).fieldWidth =
      head.width.field args ap := rfl
  have isSigned := @fields_signed head conversion args ap spec
  have plus := @fields_flag head conversion args ap spec .plus (by decide)
  have space := @fields_flag head conversion args ap spec .space (by decide)
  change _ &&& PLUS ≠ 0 ↔ _ at plus
  change _ &&& SPACE ≠ 0 ↔ _ at space
  have unchanged : head.width.field args ap - BitVec.ofNat 16 0 =
      head.width.field args ap := BitVec.sub_zero _
  unfold numberSign signText
  rw [width]
  cases signed : conversion.signed with
  | false =>
      rw [signed] at isSigned
      have unset := mt isSigned.mp Bool.false_ne_true
      rw [if_neg unset, if_neg Bool.false_ne_true]
      exact ⟨rfl, unchanged.symm⟩
  | true =>
      rw [signed] at isSigned
      rw [if_pos (isSigned.mpr rfl), if_pos rfl, toInt_signed]
      by_cases negative : value.toInt < 0
      · rw [if_pos negative, if_pos negative]
        exact ⟨rfl, rfl⟩
      rw [if_neg negative, if_neg negative]
      by_cases isPlus : Flag.plus ∈ head.flags
      · rw [if_pos (plus.mpr isPlus), if_pos isPlus]
        exact ⟨rfl, rfl⟩
      rw [if_neg (mt plus.mp isPlus), if_neg isPlus]
      by_cases isSpace : Flag.space ∈ head.flags
      · rw [if_pos (space.mpr isSpace), if_pos isSpace]
        exact ⟨rfl, rfl⟩
      rw [if_neg (mt space.mp isSpace), if_neg isSpace]
      exact ⟨rfl, unchanged.symm⟩

end Sign

/-! ## The call of `number` -/

section Number

variable {args : Arguments} {ap : Nat} {spec : PrintfSpec}
  {head : DirectiveHead} {conversion : IntConversion} {limit : Word}

theorem fields_decimal (decimal : conversion.Decimal) :
    (head.fields conversion args ap spec).base = 10 ∧
      (head.fields conversion args ap spec).flags &&& SMALL = 0 := by
  have apart : ∀ flag : Flag, flag.bit &&& SMALL = 0 := by
    intro flag
    cases flag <;> decide
  have unset := headFlags_apart apart head args ap spec
  rcases decimal with rfl | rfl | rfl
  · exact ⟨rfl, (or_and_of_apart (by decide)).trans unset⟩
  · exact ⟨rfl, (or_and_of_apart (by decide)).trans unset⟩
  · exact ⟨rfl, unset⟩

theorem needPfx_fields (decimal : conversion.Decimal) :
    needPfx (head.fields conversion args ap spec) = false := by
  apply decide_eq_false
  exact fun both => both.2 (fields_decimal decimal).1

/-- The argument as `number` receives it. -/
def DirectiveHead.num (head : DirectiveHead) (conversion : IntConversion)
    (args : Arguments) (ap : Nat) : BitVec 64 :=
  argumentBits conversion.signed (head.argument args ap)

theorem paddingWidth_fields (decimal : conversion.Decimal) (count : Nat) :
    paddingWidth (head.num conversion args ap)
        (head.fields conversion args ap spec) count =
      head.width.field args ap -
        BitVec.ofNat 16 (head.sign conversion args ap).length -
        raisedPrecision count
          (head.precision.field args (ap + head.width.stars)) := by
  have sign := @numberSign_fields head conversion args ap spec
    (head.argument args ap)
  rw [paddingWidth, prefixWidth, needPfx_fields decimal,
    if_neg Bool.false_ne_true, DirectiveHead.num, sign.2]
  rfl

theorem numberText_fields (decimal : conversion.Decimal) (tmp : List Byte)
    (lead fill zeros trail : Nat) :
    numberText (head.num conversion args ap)
        (head.fields conversion args ap spec) tmp lead fill zeros trail =
      List.replicate lead (ch ' ') ++ (head.sign conversion args ap ++
        (List.replicate fill
            (fillChar (head.fields conversion args ap spec)) ++
          (List.replicate zeros (ch '0') ++
            (tmp.reverse ++ List.replicate trail (ch ' '))))) := by
  have sign := @numberSign_fields head conversion args ap spec
    (head.argument args ap)
  rw [numberText, prefixText, needPfx_fields decimal,
    if_neg Bool.false_ne_true, DirectiveHead.num, sign.1, List.nil_append]
  rfl

theorem digits_fields (decimal : conversion.Decimal)
    (small : magnitude conversion.signed (head.argument args ap) <
      100000000) :
    numberDigits
        (numberSign (head.num conversion args ap)
          (head.fields conversion args ap spec)).num
        (head.fields conversion args ap spec).base
        ((head.fields conversion args ap spec).flags &&& SMALL) =
      some (head.numeral conversion args ap).reverse := by
  have known := @fields_decimal args ap spec head conversion decimal
  have isMagnitude := (numberSign_num _ _).trans
    (@numberMagnitude_fields head conversion args ap spec
      (head.argument args ap))
  rw [DirectiveHead.numeral, numeralText, List.reverse_reverse, known.1,
    known.2, ← isMagnitude]
  rw [← isMagnitude] at small
  exact numberDigits_decimal small

/-- From a hundred million on there is no result. -/
theorem number_fields_eq_none (decimal : conversion.Decimal)
    (large : 100000000 ≤
      magnitude conversion.signed (head.argument args ap)) (o : Output) :
    number limit (head.num conversion args ap)
      (head.fields conversion args ap spec) o = none := by
  have known := @fields_decimal args ap spec head conversion decimal
  have isMagnitude := (numberSign_num _ _).trans
    (@numberMagnitude_fields head conversion args ap spec
      (head.argument args ap))
  apply number_eq_none
  rw [known.1, known.2]
  rw [← isMagnitude] at large
  exact numberDigits_eq_none 0 large

theorem sign_length_le :
    (head.sign conversion args ap).length ≤ 1 := by
  unfold DirectiveHead.sign signText
  repeat' split
  all_goals decide

theorem numeral_length
    (small : magnitude conversion.signed (head.argument args ap) <
      100000000) :
    0 < (head.numeral conversion args ap).length ∧
      (head.numeral conversion args ap).length ≤ 8 := by
  rw [DirectiveHead.numeral, numeralText, List.length_reverse]
  exact ⟨decimalChars_length_pos _, decimalChars_length_le (by decide) small⟩

/-- The width that is left for padding, as a number. -/
theorem paddingWidth_toInt {count : Nat} (decimal : conversion.Decimal)
    (few : count < 32768) (width : head.width.value args ap ≤ 32000)
    (precision : (raisedPrecision count (head.precision.field args
      (ap + head.width.stars))).toInt ≤ 32000) :
    (paddingWidth (head.num conversion args ap)
        (head.fields conversion args ap spec) count).toInt =
      (head.width.field args ap).toInt -
        (head.sign conversion args ap).length -
        (raisedPrecision count (head.precision.field args
          (ap + head.width.stars))).toInt := by
  have stored := WidthText.field_toInt width
  have sign := @sign_length_le args ap head conversion
  have raised := raisedPrecision_toInt few
    (head.precision.field args (ap + head.width.stars))
  have signed : (head.width.field args ap -
      BitVec.ofNat 16 (head.sign conversion args ap).length).toInt =
        (head.width.field args ap).toInt -
          (head.sign conversion args ap).length :=
    toInt_sub_ofNat (by omega)
  rw [paddingWidth_fields decimal, toInt_sub_16, signed]
  · omega
  · omega

/-- The parts fill up the width, or go past it by themselves. -/
theorem length_of_parts {lead fill zeros trail sign digits width wanted : Nat}
    {field raised : Int} (stored : field = width ∨ (field = -1 ∧ width = 0))
    (filled : ((digits + zeros : Nat) : Int) = raised)
    (padded : ((lead + fill + trail : Nat) : Int) =
      max 0 (field - sign - raised))
    (enough : max (wanted : Int) digits ≤ raised)
    (kept : raised ≤ max (max wanted digits : Int) (width - sign)) :
    lead + (sign + (fill + (zeros + (digits + trail)))) =
      max width (sign + max wanted digits) := by
  have total : ((lead + (sign + (fill + (zeros + (digits + trail)))) : Nat) :
      Int) = sign + raised + max 0 (field - sign - raised) := by
    rw [← padded, ← filled]
    omega
  by_cases narrow : (width : Int) ≤ sign + raised
  · omega
  · omega

/-- Below a hundred million `number` prints what the directive says. -/
theorem number_fields (decimal : conversion.Decimal)
    (width : head.width.value args ap ≤ 32000)
    (precision : head.precision.value args (ap + head.width.stars) ≤ 32000)
    (kept : PrecisionKept args ap head conversion)
    (small : magnitude conversion.signed (head.argument args ap) <
      100000000) :
    ∃ text, DecimalText args ap head conversion text ∧
      ∀ o, number limit (head.num conversion args ap)
        (head.fields conversion args ap spec) o =
          some (emitAll limit text o) := by
  have stored := WidthText.field_toInt width
  have storedPrecision := PrecisionText.field_toInt precision
  have sign := @sign_length_le args ap head conversion
  have count := numeral_length small
  have digits := @digits_fields args ap spec head conversion decimal small
  unfold PrecisionKept at kept
  have raised := @raisedPrecision_toInt
    (head.numeral conversion args ap).reverse.length
    (by rw [List.length_reverse]; omega)
    (head.precision.field args (ap + head.width.stars))
  rw [List.length_reverse] at raised
  have enough : max (head.precision.value args (ap + head.width.stars) : Int)
      (head.numeral conversion args ap).length ≤
        (raisedPrecision (head.numeral conversion args ap).length
          (head.precision.field args (ap + head.width.stars))).toInt := by
    rw [raised]
    omega
  have limited : (raisedPrecision (head.numeral conversion args ap).length
      (head.precision.field args (ap + head.width.stars))).toInt ≤
        max (max (head.precision.value args (ap + head.width.stars) : Int)
          (head.numeral conversion args ap).length)
          ((head.width.value args ap : Int) -
            (head.sign conversion args ap).length) := by
    rw [raised]
    exact max_le (le_max_of_le_left (le_max_right _ _))
      (kept.trans_eq (max_assoc _ _ _).symm)
  have left := @paddingWidth_toInt args ap spec head conversion
    (head.numeral conversion args ap).length decimal (by omega) width
    (by omega)
  obtain ⟨lead, fill, zeros, trail, run, filled, padded, fillZero, _⟩ :=
    exists_numberRun_of_width (by rw [List.length_reverse]; omega) digits
      (by rw [List.length_reverse]; omega)
  rw [List.length_reverse] at filled padded
  change _ = (raisedPrecision _ (head.precision.field args
    (ap + head.width.stars))).toInt.toNat at filled
  have filling := replicate_fill fillZero zeros
  have isFilled : (((head.numeral conversion args ap).length + zeros : Nat) :
      Int) = (raisedPrecision (head.numeral conversion args ap).length
        (head.precision.field args (ap + head.width.stars))).toInt := by
    rw [filled]
    refine Int.toNat_of_nonneg ?_
    rw [raised]
    exact le_max_of_le_left (Int.natCast_nonneg _)
  have isPadded : ((lead + fill + trail : Nat) : Int) =
      max 0 ((head.width.field args ap).toInt -
        (head.sign conversion args ap).length -
        (raisedPrecision (head.numeral conversion args ap).length
          (head.precision.field args (ap + head.width.stars))).toInt) := by
    rw [padded, left, Int.ofNat_toNat, max_comm]
  have length := @length_of_parts _ _ _ _ _ _ _
    (head.precision.value args (ap + head.width.stars)) _ _ stored isFilled
    isPadded enough limited
  refine ⟨_, ⟨⟨lead, fill + zeros, trail, ?_⟩, ?_⟩, run.number_eq limit⟩
  · rw [numberText_fields decimal, ← filling, List.reverse_reverse]
    simp only [List.append_assoc]
  · rw [numberText_fields decimal, List.reverse_reverse]
    simpa only [List.length_append, List.length_replicate] using length

end Number

/-! ## The turns of the loop -/

section Turns

variable {args : Arguments} {buf limit : Word} {s : PrintState}
  {head : DirectiveHead} {conversion : IntConversion} {rest : List Byte}

/-- The turn of an integer conversion. -/
theorem vsnTurn_integer {fmt : List Byte} {spec : PrintfSpec}
    (decoded : formatDecode s.fmt s.spec = some (fmt, spec))
    (integer : spec.type.isInteger = true) :
    vsnTurn args buf limit s =
      (number limit (fetch args spec.type s.num s.ap).1 spec s.out).map
        fun out => { s with
          fmt := fmt, spec := spec, out := out
          num := (fetch args spec.type s.num s.ap).1
          ap := (fetch args spec.type s.num s.ap).2 } := by
  rw [vsnTurn, decoded]
  cases spec with
  | mk type =>
      cases type <;> cases integer <;> exact Option.map_eq_bind.symm

theorem decodeQualifier_unqualified (conversion : IntConversion)
    (rest : List Byte) (spec : PrintfSpec) :
    decodeQualifier (conversion.char :: rest) spec =
      some (rest, conversion.spec { spec with qualifier := 0xFF }) := by
  cases conversion <;> rfl

theorem fields_type {ap : Nat} {spec : PrintfSpec} :
    (head.fields conversion args ap spec).type =
      if conversion.signed then .int else .uint := by
  have isSigned := @fields_signed head conversion args ap spec
  have selected : (head.fields conversion args ap spec).type =
      integerType 0xFF (head.fields conversion args ap spec).flags :=
    IntConversion.spec_type conversion _
  have plain : ∀ flags, integerType 0xFF flags =
      if flags &&& SIGN ≠ 0 then .int else .uint := fun _ => rfl
  rw [selected, plain]
  exact if_congr isSigned rfl rfl

theorem fetch_fields {type : FormatType}
    (plain : type = if conversion.signed then .int else .uint)
    (num : BitVec 64) (position : Nat) :
    type.isInteger = true ∧ fetch args type num position =
      (argumentBits conversion.signed (args.words position),
        position + 1) := by
  rw [plain]
  cases conversion.signed with
  | true => exact ⟨rfl, rfl⟩
  | false => exact ⟨rfl, rfl⟩

/-- The loop reads the directive and calls `number`. -/
theorem AtDecimal.turns (directive : AtDecimal args s head conversion rest) :
    vsnTurns args buf limit (head.stars + 1) s =
      (number limit (head.num conversion args s.ap)
        (head.fields conversion args s.ap s.spec) s.out).map fun out =>
          { s with
            fmt := rest, ap := s.ap + head.stars + 1, out := out
            spec := head.fields conversion args s.ap s.spec
            num := head.num conversion args s.ap } := by
  have ends : EndsHead conversion.char := by
    cases conversion <;> exact endsHead_of_letter (by decide)
  obtain ⟨s', turns, onlyRead, decoded⟩ :=
    @head_read args buf limit s directive.notPending head conversion.char ends
      rest directive.fmt
  have read := (formatDecode_qualifier decoded).trans
    (decodeQualifier_unqualified conversion rest _)
  have fetched := @fetch_fields args conversion _
    (@fields_type args head conversion s.ap s.spec) s'.num s'.ap
  have turn := @vsnTurn_integer args buf limit s' rest _ read fetched.1
  have argument : fetch args (head.fields conversion args s.ap s.spec).type
      s'.num s'.ap =
        (head.num conversion args s.ap, s.ap + head.stars + 1) := by
    rw [fetched.2, onlyRead.ap]
    rfl
  rw [vsnTurns_add turns, vsnTurns, turn]
  change (Option.map (fun out => PrintState.mk rest
    (fetch args (head.fields conversion args s.ap s.spec).type s'.num
      s'.ap).2 (head.fields conversion args s.ap s.spec)
    (fetch args (head.fields conversion args s.ap s.spec).type s'.num
      s'.ap).1 out s'.counts)
    (number limit (fetch args (head.fields conversion args s.ap s.spec).type
      s'.num s'.ap).1 (head.fields conversion args s.ap s.spec) s'.out)).bind
    some = _
  rw [Option.bind_fun_some, argument, onlyRead.out, onlyRead.counts]

/-- A stored precision that exceeds the digits shows in the length. -/
theorem long_text (directive : AtDecimal args s head conversion rest)
    (small : magnitude conversion.signed (head.argument args s.ap) <
      100000000) :
    ∃ text, (∀ o, number limit (head.num conversion args s.ap)
        (head.fields conversion args s.ap s.spec) o =
          some (emitAll limit text o)) ∧
      (head.sign conversion args s.ap).length +
          max ((head.numeral conversion args s.ap).length : Int)
            (head.precision.field args (s.ap + head.width.stars)).toInt ≤
        text.length ∧ text.length < 2 ^ 32 := by
  have sign := @sign_length_le args s.ap head conversion
  have count := numeral_length small
  have digits := @digits_fields args s.ap s.spec head conversion
    directive.decimal small
  obtain ⟨lead, fill, zeros, trail, run, filled, shortLead, shortFill,
    shortZeros, shortTrail⟩ :=
    exists_numberRun (by rw [List.length_reverse]; omega) digits
  have raised := @raisedPrecision_toInt
    (head.numeral conversion args s.ap).reverse.length
    (by rw [List.length_reverse]; omega)
    (head.precision.field args (s.ap + head.width.stars))
  change _ = (raisedPrecision _ (head.precision.field args
    (s.ap + head.width.stars))).toInt.toNat at filled
  rw [List.length_reverse] at raised filled
  refine ⟨_, run.number_eq limit, ?_, ?_⟩
  · rw [numberText_fields directive.decimal, List.reverse_reverse]
    simp only [List.length_append, List.length_replicate]
    omega
  · rw [numberText_fields directive.decimal, List.reverse_reverse]
    simp only [List.length_append, List.length_replicate]
    omega

/-- For every argument, a decimal directive prints what it should exactly if
the magnitude of the argument is below a hundred million, and the precision is
kept. -/
theorem decimal_output_iff
    (directive : AtDecimal args s head conversion rest) :
    (∃ s' text,
        PrintsDecimal args buf limit s head conversion rest s' text) ↔
      magnitude conversion.signed (head.argument args s.ap) < 100000000 ∧
        PrecisionKept args s.ap head conversion := by
  have turns := @AtDecimal.turns args buf limit s head conversion rest directive
  constructor
  · rintro ⟨s', text, prints⟩
    have result := prints.turns.symm.trans turns
    by_cases large :
        100000000 ≤ magnitude conversion.signed (head.argument args s.ap)
    · rw [number_fields_eq_none directive.decimal large] at result
      cases result
    have small := Nat.not_le.mp large
    refine ⟨small, ?_⟩
    obtain ⟨longText, printed, long, short⟩ :=
      @long_text args limit s head conversion rest directive small
    rw [printed] at result
    have out := congrArg PrintState.out (Option.some.inj result)
    rw [prints.out] at out
    have length := prints.text.length
    have width := directive.width
    have precision := directive.precision
    have sign := @sign_length_le args s.ap head conversion
    have count := numeral_length small
    have same := emitAll_length out (by omega) short
    unfold PrecisionKept
    omega
  · rintro ⟨small, kept⟩
    obtain ⟨text, isText, printed⟩ :=
      @number_fields args s.ap s.spec head conversion limit directive.decimal
        directive.width directive.precision kept small
    rw [printed] at turns
    exact ⟨_, text, turns, rfl, rfl, rfl, isText⟩

end Turns

/-! ## Two directives -/

theorem decimal_output_seven :
    ∃ s' text, PrintsDecimal ⟨fun _ => 7, fun _ => 0⟩ 0 0
      (plainCall [ch 'd']) plainHead .d [0] s' text := by
  have kept : PrecisionKept ⟨fun _ => 7, fun _ => 0⟩ 0 plainHead .d :=
    le_max_of_le_left (by decide)
  exact (decimal_output_iff ⟨rfl, ⟨by decide, by decide⟩, Or.inl rfl,
    by decide, by decide⟩).mpr ⟨by decide, kept⟩

/-- `%u` of a hundred million. -/
theorem decimal_output_hundred_million :
    AtDecimal ⟨fun _ => 100000000, fun _ => 0⟩ (plainCall [ch 'u']) plainHead .u
        [0] ∧
      ¬ ∃ s' text, PrintsDecimal ⟨fun _ => 100000000, fun _ => 0⟩ 0 0
        (plainCall [ch 'u']) plainHead .u [0] s' text := by
  have directive : AtDecimal ⟨fun _ => 100000000, fun _ => 0⟩
      (plainCall [ch 'u']) plainHead .u [0] :=
    ⟨rfl, ⟨by decide, by decide⟩, Or.inr (Or.inr rfl), by decide, by decide⟩
  refine ⟨directive, ?_⟩
  rintro ⟨s', text, prints⟩
  have turns := prints.turns
  rw [directive.turns, number_fields_eq_none (Or.inr (Or.inr rfl)) (by decide)]
    at turns
  cases turns

end Hlos.Libs
