import Hlos.Libs.Directives

/-!
# Length qualifiers

What a qualifier selects, and for which qualifiers `format_decode` reads a
directive to its end.  Behind a single `l` or `h` it skips a character, and of
a doubled one it takes the second letter for the conversion.
-/

namespace Hlos.Libs

open Hlos.Lib Hlos.Include

inductive IntQualifier where
  | h
  | hh
  | l
  | ll
  | z
  | Z
deriving DecidableEq, Repr

inductive IntConversion where
  | d
  | i
  | u
  | o
  | x
  | X
deriving DecidableEq, Repr

def IntQualifier.text : IntQualifier → List Byte
  | h => [ch 'h']
  | hh => [ch 'h', ch 'h']
  | l => [ch 'l']
  | ll => [ch 'l', ch 'l']
  | z => [ch 'z']
  | Z => [ch 'Z']

def IntConversion.char : IntConversion → Byte
  | d => ch 'd'
  | i => ch 'i'
  | u => ch 'u'
  | o => ch 'o'
  | x => ch 'x'
  | X => ch 'X'

def IntConversion.signed : IntConversion → Bool
  | d => true
  | i => true
  | _ => false

/-- The type that the qualifier and the signedness select. -/
def IntQualifier.type (signed : Bool) : IntQualifier → FormatType
  | h => if signed then .short else .ushort
  | hh => if signed then .byte else .ubyte
  | l => if signed then .long else .ulong
  | ll => .longLong
  | z => .sizeT
  | Z => .sizeT

/-- Widening of a signed or unsigned integer to 64 bits. -/
def widen {w : Nat} (signed : Bool) (value : BitVec w) : BitVec 64 :=
  if signed then value.signExtend 64 else value.setWidth 64

/-- The words of an argument of that type. -/
def IntQualifier.words : IntQualifier → Nat
  | ll => 2
  | _ => 1

/-- The argument of that type, as the words from `ap` on represent it. -/
def IntQualifier.value (args : Arguments) (ap : Nat) (signed : Bool) :
    IntQualifier → BitVec 64
  | h => widen signed ((args.words ap).setWidth 16)
  | hh => widen signed ((args.words ap).setWidth 8)
  | l => widen signed (args.words ap)
  | ll => args.words (ap + 1) ++ args.words ap
  | z => widen signed (args.words ap)
  | Z => widen signed (args.words ap)

/-- In the state `s` stands a directive with a qualifier, and `rest` behind
it. -/
structure AtDirective (s : PrintState) (head : DirectiveHead)
    (qualifier : IntQualifier) (conversion : IntConversion)
    (rest : List Byte) : Prop where
  fmt : s.fmt =
    head.text ++ (qualifier.text ++ conversion.char :: rest)
  notPending : NotPending s.spec

/-- After the turns for the `*` arguments, `format_decode` consumes the
directive and nothing behind it, selects the documented type, and the argument
of this type is fetched with its value. -/
structure ParsesAsDocumented (args : Arguments) (buf limit : Word)
    (s : PrintState) (head : DirectiveHead) (qualifier : IntQualifier)
    (conversion : IntConversion) (rest : List Byte) (s' : PrintState)
    (spec : PrintfSpec) : Prop where
  stars : vsnTurns args buf limit head.stars s = some s'
  silent : s'.out = s.out
  decoded : formatDecode s'.fmt s'.spec = some (rest, spec)
  type : spec.type = qualifier.type conversion.signed
  signed : spec.flags &&& SIGN ≠ 0 ↔ conversion.signed = true
  fetched : fetch args spec.type s'.num s'.ap =
    (qualifier.value args (s.ap + head.stars) conversion.signed,
      s.ap + head.stars + qualifier.words)

/-! ## Conversions -/

def FormatType.isInteger : FormatType → Bool
  | longLong | ulong | long | ubyte | byte | ushort | short | uint | int
  | sizeT | ptrdiff => true
  | _ => false

/-- The types that `decodeConversion` selects for the other characters. -/
def FormatType.isOther : FormatType → Bool
  | char | str | ptr | nrchars | percentChar | invalid => true
  | _ => false

/-- What `decodeConversion` does with a character: an integer conversion and
some of the others consume it. -/
inductive Converted (c : Byte) (rest : List Byte) (spec : PrintfSpec) :
    Option (List Byte × PrintfSpec) → Prop where
  | integer {flags base : Byte} : c ≠ 0 → base = 8 ∨ base = 10 ∨ base = 16 →
      Converted c rest spec (some (rest, { spec with
        type := integerType spec.qualifier flags, flags := flags
        base := base }))
  | other {type : FormatType} : c ≠ 0 → type.isOther = true →
      Converted c rest spec (some (rest, { spec with
        type := type, base := 10 }))
  | stays {type : FormatType} : type.isOther = true →
      Converted c rest spec (some (c :: rest, { spec with
        type := type, base := 10 }))

theorem decodeConversion_converted (c : Byte) (rest : List Byte)
    (spec : PrintfSpec) :
    Converted c rest spec (decodeConversion (c :: rest) spec) := by
  have nonzero : ∀ letter : Byte, letter ≠ 0 → c = letter → c ≠ 0 :=
    fun letter known same zero => known (same.symm.trans zero)
  refine iteInduction (motive := Converted c rest spec)
    (fun isChar => .other (nonzero _ (by decide) isChar) rfl) fun _ => ?_
  refine iteInduction (motive := Converted c rest spec)
    (fun isStr => .other (nonzero _ (by decide) isStr) rfl) fun _ => ?_
  refine iteInduction (motive := Converted c rest spec)
    (fun _ => .stays rfl) fun _ => ?_
  refine iteInduction (motive := Converted c rest spec)
    (fun isCount => .other (nonzero _ (by decide) isCount) rfl) fun _ => ?_
  refine iteInduction (motive := Converted c rest spec)
    (fun isPercent => .other (nonzero _ (by decide) isPercent) rfl)
    fun _ => ?_
  refine iteInduction (motive := Converted c rest spec)
    (fun isOctal => .integer (nonzero _ (by decide) isOctal) (Or.inl rfl))
    fun _ => ?_
  refine iteInduction (motive := Converted c rest spec)
    (fun isHex => .integer (nonzero _ (by decide) isHex)
      (Or.inr (Or.inr rfl))) fun _ => ?_
  refine iteInduction (motive := Converted c rest spec)
    (fun isHex => .integer (nonzero _ (by decide) isHex)
      (Or.inr (Or.inr rfl))) fun _ => ?_
  refine iteInduction (motive := Converted c rest spec)
    (fun isSigned => .integer
      (isSigned.elim (nonzero _ (by decide)) (nonzero _ (by decide)))
      (Or.inr (Or.inl rfl))) fun _ => ?_
  exact iteInduction (motive := Converted c rest spec)
    (fun isUnsigned => .integer (nonzero _ (by decide) isUnsigned)
      (Or.inr (Or.inl rfl))) fun _ => .stays rfl

theorem integerType_isInteger (qualifier flags : Byte) :
    (integerType qualifier flags).isInteger = true := by
  unfold integerType
  dsimp only
  repeat' split
  all_goals rfl

theorem FormatType.not_isInteger_of_isOther {type : FormatType}
    (other : type.isOther = true) : ¬ type.isInteger = true := by
  intro integer
  cases type <;> first
    | exact Bool.false_ne_true other
    | exact Bool.false_ne_true integer

/-- Whatever follows, an integer type is the one of the qualifier. -/
theorem decodeConversion_type {fmt fmt' : List Byte} {spec spec' : PrintfSpec}
    (decoded : decodeConversion fmt spec = some (fmt', spec'))
    (integer : spec'.type.isInteger = true) :
    spec'.type = integerType spec.qualifier spec'.flags := by
  cases fmt with
  | nil => cases decoded
  | cons c rest =>
      have converted := decodeConversion_converted c rest spec
      rw [decoded] at converted
      cases converted with
      | integer => rfl
      | other _ other | stays other =>
          exact absurd integer (FormatType.not_isInteger_of_isOther other)

theorem integerType_L (flags : Byte) : integerType (ch 'L') flags = .longLong :=
  rfl

theorem integerType_H (flags : Byte) :
    integerType (ch 'H') flags =
      if flags &&& SIGN ≠ 0 then .byte else .ubyte :=
  rfl

theorem IntQualifier.type_isInteger (qualifier : IntQualifier)
    (signed : Bool) : (qualifier.type signed).isInteger = true := by
  cases qualifier <;> cases signed <;> rfl

/-- The type of a qualifier comes from the qualifier that is stored. -/
theorem IntQualifier.type_eq_of_decoded {fmt fmt' : List Byte}
    {spec spec' : PrintfSpec} {qualifier : IntQualifier} {signed : Bool}
    (decoded : decodeConversion fmt spec = some (fmt', spec'))
    (same : spec'.type = qualifier.type signed) :
    qualifier.type signed = integerType spec.qualifier spec'.flags := by
  have integer := qualifier.type_isInteger signed
  rw [← same] at integer ⊢
  exact decodeConversion_type decoded integer

/-- A conversion behind the letter `L` is never a `long`. -/
theorem not_long_of_L {fmt fmt' : List Byte} {spec spec' : PrintfSpec}
    (isLong : spec.qualifier = ch 'L')
    (decoded : decodeConversion fmt spec = some (fmt', spec'))
    (signed : Bool) : spec'.type ≠ IntQualifier.l.type signed := by
  intro same
  have isLongLong := IntQualifier.type_eq_of_decoded decoded same
  rw [isLong, integerType_L] at isLongLong
  cases signed <;> cases isLongLong

/-- A conversion behind the letter `H` is never a `short`. -/
theorem not_short_of_H {fmt fmt' : List Byte} {spec spec' : PrintfSpec}
    (isShort : spec.qualifier = ch 'H')
    (decoded : decodeConversion fmt spec = some (fmt', spec'))
    (signed : Bool) : spec'.type ≠ IntQualifier.h.type signed := by
  intro same
  have isByte := IntQualifier.type_eq_of_decoded decoded same
  rw [isShort, integerType_H] at isByte
  split at isByte
  · cases signed <;> cases isByte
  · cases signed <;> cases isByte

/-- The new `*spec` of an integer conversion. -/
def IntConversion.spec (spec : PrintfSpec) (conversion : IntConversion) :
    PrintfSpec :=
  let flags :=
    match conversion with
    | d | i => spec.flags ||| SIGN
    | x => spec.flags ||| SMALL
    | _ => spec.flags
  { spec with
    base :=
      match conversion with
      | o => 8
      | x | X => 16
      | _ => 10
    flags := flags
    type := integerType spec.qualifier flags }

theorem IntConversion.spec_type (conversion : IntConversion)
    (spec : PrintfSpec) :
    (conversion.spec spec).type =
      integerType spec.qualifier (conversion.spec spec).flags :=
  rfl

/-- Setting a flag leaves the bits apart from it. -/
theorem or_and_of_apart {bits flag bit : Byte} (apart : flag &&& bit = 0) :
    (bits ||| flag) &&& bit = bits &&& bit := by
  rw [BitVec.and_or_distrib_right, apart]
  exact BitVec.or_zero

theorem or_and_self_ne_zero {flag : Byte} (isFlag : flag ≠ 0) (bits : Byte) :
    (bits ||| flag) &&& flag ≠ 0 := by
  rw [BitVec.and_or_distrib_right, BitVec.and_self]
  exact fun zero => isFlag (BitVec.or_eq_zero_iff.mp zero).2

theorem IntConversion.spec_signed {spec : PrintfSpec}
    (unsigned : spec.flags &&& SIGN = 0) (conversion : IntConversion) :
    (conversion.spec spec).flags &&& SIGN ≠ 0 ↔ conversion.signed = true := by
  have set : (spec.flags ||| SIGN) &&& SIGN ≠ 0 :=
    or_and_self_ne_zero (by decide) spec.flags
  cases conversion with
  | d => exact ⟨fun _ => rfl, fun _ => set⟩
  | i => exact ⟨fun _ => rfl, fun _ => set⟩
  | x =>
      have still : (spec.flags ||| SMALL) &&& SIGN = 0 :=
        (or_and_of_apart (by decide)).trans unsigned
      exact ⟨fun nonzero => absurd still nonzero, fun signed => by cases signed⟩
  | u | o | X =>
      exact ⟨fun nonzero => absurd unsigned nonzero,
        fun signed => by cases signed⟩

/-- The flags of a head are those that can be given. -/
theorem headFlags_apart {bit : Byte}
    (apart : ∀ flag, Flag.bit flag &&& bit = 0) (head : DirectiveHead)
    (args : Arguments) (ap : Nat) (spec : PrintfSpec) :
    (head.spec args ap spec).flags &&& bit = 0 := by
  have folded : ∀ (flags : List Flag) (bits : Byte), bits &&& bit = 0 →
      (flags.foldl (fun bits flag => bits ||| flag.bit) bits) &&& bit = 0 := by
    intro flags
    induction flags with
    | nil => exact fun _ start => start
    | cons flag flags inductionRest =>
        exact fun bits start => inductionRest _
          ((or_and_of_apart (apart flag)).trans start)
  have flags := folded head.flags 0 BitVec.zero_and
  change head.width.flags args ap (flagBits head.flags) &&& bit = 0
  cases head.width with
  | absent => exact flags
  | decimal first more significant => exact flags
  | star =>
      change (if _ < _ then _ else _) &&& bit = 0
      split
      · exact (or_and_of_apart (apart .left)).trans flags
      · exact flags

theorem headFlags_unsigned (head : DirectiveHead) (args : Arguments)
    (ap : Nat) (spec : PrintfSpec) :
    (head.spec args ap spec).flags &&& SIGN = 0 :=
  headFlags_apart (fun flag => by cases flag <;> decide) head args ap spec

/-! ## Qualifiers -/

theorem decodeQualifier_h (conversion : IntConversion) (rest : List Byte)
    (spec : PrintfSpec) :
    decodeQualifier (ch 'h' :: conversion.char :: rest) spec =
      decodeConversion rest { spec with qualifier := ch 'H' } := by
  cases conversion <;> rfl

theorem decodeQualifier_l (conversion : IntConversion) (rest : List Byte)
    (spec : PrintfSpec) :
    decodeQualifier (ch 'l' :: conversion.char :: rest) spec =
      decodeConversion rest { spec with qualifier := ch 'L' } := by
  cases conversion <;> rfl

/-- The second letter of a doubled qualifier is not a conversion. -/
theorem decodeQualifier_hh (rest : List Byte) (spec : PrintfSpec) :
    decodeQualifier (ch 'h' :: ch 'h' :: rest) spec =
      some (ch 'h' :: rest, { spec with
        type := .invalid, base := 10, qualifier := ch 'h' }) :=
  rfl

theorem decodeQualifier_ll (rest : List Byte) (spec : PrintfSpec) :
    decodeQualifier (ch 'l' :: ch 'l' :: rest) spec =
      some (ch 'l' :: rest, { spec with
        type := .invalid, base := 10, qualifier := ch 'l' }) :=
  rfl

theorem decodeQualifier_z (conversion : IntConversion) (rest : List Byte)
    (spec : PrintfSpec) :
    decodeQualifier (ch 'z' :: conversion.char :: rest) spec =
      some (rest, conversion.spec { spec with qualifier := ch 'z' }) := by
  cases conversion <;> rfl

theorem decodeQualifier_Z (conversion : IntConversion) (rest : List Byte)
    (spec : PrintfSpec) :
    decodeQualifier (ch 'Z' :: conversion.char :: rest) spec =
      some (rest, conversion.spec { spec with qualifier := ch 'Z' }) := by
  cases conversion <;> rfl

theorem IntQualifier.endsHead (qualifier : IntQualifier) :
    ∃ c tail, qualifier.text = c :: tail ∧ EndsHead c := by
  cases qualifier <;> exact ⟨_, _, rfl, endsHead_of_letter (by decide)⟩

section Directive

variable {args : Arguments} {buf limit : Word} {s : PrintState}
  {head : DirectiveHead} {qualifier : IntQualifier}
  {conversion : IntConversion} {rest : List Byte}

/-- The turns for the `*` arguments lead before the qualifier. -/
theorem AtDirective.read (at_ : AtDirective s head qualifier conversion rest) :
    ∃ s', vsnTurns args buf limit head.stars s = some s' ∧
      OnlyRead s s' head.stars ∧
      formatDecode s'.fmt s'.spec =
        decodeQualifier (qualifier.text ++ conversion.char :: rest)
          (head.spec args s.ap s.spec) := by
  obtain ⟨c, tail, isText, ends⟩ := qualifier.endsHead
  have position := at_.fmt
  rw [isText] at position ⊢
  obtain ⟨s', turns, onlyRead, decoded⟩ :=
    @head_read args buf limit s at_.notPending head c ends _ position
  exact ⟨s', turns, onlyRead, formatDecode_qualifier decoded⟩

/-- Behind the other qualifiers another type is selected. -/
theorem AtDirective.not_parses
    (directive : AtDirective s head qualifier conversion rest)
    (notz : qualifier ≠ .z) (notZ : qualifier ≠ .Z) {s' : PrintState}
    {spec : PrintfSpec} :
    ¬ ParsesAsDocumented args buf limit s head qualifier conversion rest s'
      spec := by
  intro parses
  obtain ⟨other, turns, _, position⟩ :=
    @AtDirective.read args buf limit s head qualifier conversion rest directive
  rw [parses.stars] at turns
  rw [← Option.some.inj turns, parses.decoded] at position
  have type := parses.type
  cases qualifier with
  | z => exact notz rfl
  | Z => exact notZ rfl
  | h =>
      have decoded := position.trans (decodeQualifier_h conversion rest _)
      exact not_short_of_H rfl decoded.symm _ type
  | l =>
      have decoded := position.trans (decodeQualifier_l conversion rest _)
      exact not_long_of_L rfl decoded.symm _ type
  | hh =>
      have decoded := position.trans (decodeQualifier_hh _ _)
      have integer := IntQualifier.hh.type_isInteger conversion.signed
      rw [← type, (Prod.mk.inj (Option.some.inj decoded)).2] at integer
      cases integer
  | ll =>
      have decoded := position.trans (decodeQualifier_ll _ _)
      have integer := IntQualifier.ll.type_isInteger conversion.signed
      rw [← type, (Prod.mk.inj (Option.some.inj decoded)).2] at integer
      cases integer

/-- Zero extension is sign extension exactly of what is not negative. -/
theorem setWidth_eq_signExtend_iff {value : Word} :
    value.setWidth 64 = value.signExtend 64 ↔ 0 ≤ value.toInt := by
  have extended : (value.signExtend 64).toInt = value.toInt :=
    BitVec.toInt_signExtend_of_le (by decide)
  have small := value.isLt
  have unsigned : (value.setWidth 64).toInt = value.toNat := by
    rw [BitVec.toInt_eq_toNat_of_lt] <;> rw [BitVec.toNat_setWidth] <;> omega
  rw [← BitVec.toInt_inj, extended, unsigned]
  have signed := BitVec.toInt_eq_toNat_cond value
  split at signed <;> omega

/-- The argument of a `z` directive is fetched with its value exactly when it
is not a negative one. -/
theorem fetch_sizeT_iff {ap : Nat} (num : BitVec 64) (signed : Bool) :
    fetch args .sizeT num ap = (widen signed (args.words ap), ap + 1) ↔
      (signed = true → 0 ≤ (args.words ap).toInt) := by
  change ((args.words ap).setWidth 64, ap + 1) = _ ↔ _
  rw [Prod.mk.injEq, and_iff_left rfl]
  cases signed with
  | false => exact ⟨fun _ claimed => absurd claimed (by decide), fun _ => rfl⟩
  | true =>
      rw [widen, if_pos rfl, setWidth_eq_signExtend_iff]
      exact ⟨fun nonneg _ => nonneg, fun nonneg => nonneg rfl⟩

/-- `-7` comes out as 4294967289. -/
example : fetch ⟨fun _ => -7, fun _ => 0⟩ .sizeT 0 0 = (4294967289, 1) := by
  decide

/-- A letter that `decodeQualifier` takes for `z` is parsed as documented
unless a negative argument is fetched as a `ssize_t`. -/
theorem AtDirective.parses_of_z_iff
    (directive : AtDirective s head qualifier conversion rest) {letter : Byte}
    (isText : qualifier.text = [letter]) (words : qualifier.words = 1)
    (value : ∀ ap signed,
      qualifier.value args ap signed = widen signed (args.words ap))
    (type : qualifier.type conversion.signed = .sizeT)
    (decoded : ∀ spec,
      decodeQualifier (letter :: conversion.char :: rest) spec =
        some (rest, conversion.spec { spec with qualifier := letter }))
    (sizeT : ∀ flags, integerType letter flags = .sizeT) :
    (∃ s' spec, ParsesAsDocumented args buf limit s head qualifier conversion
      rest s' spec) ↔
      (conversion.signed = true →
        0 ≤ (args.words (s.ap + head.stars)).toInt) := by
  obtain ⟨s', turns, onlyRead, position⟩ :=
    @AtDirective.read args buf limit s head qualifier conversion rest directive
  rw [isText] at position
  have selected : ∀ spec : PrintfSpec,
      (conversion.spec { spec with qualifier := letter }).type = .sizeT :=
    fun spec => sizeT _
  rw [← fetch_sizeT_iff s'.num]
  constructor
  · rintro ⟨other, spec, parses⟩
    obtain rfl := Option.some.inj (turns.symm.trans parses.stars)
    have fetched := parses.fetched
    rw [parses.type, type, value, words, onlyRead.ap] at fetched
    exact fetched
  · intro fetched
    refine ⟨s', _, turns, onlyRead.out, position.trans (decoded _), ?_, ?_, ?_⟩
    · rw [selected, type]
    · apply IntConversion.spec_signed
      exact headFlags_unsigned head args s.ap s.spec
    · rw [selected, words, value, onlyRead.ap]
      exact fetched

/-- A directive with a qualifier is parsed as documented exactly if the
qualifier is `z` or `Z` and no negative argument is printed with it, whatever
its flags, width, precision and conversion are, and whatever follows it. -/
theorem qualified_directive_iff
    (directive : AtDirective s head qualifier conversion rest) :
    (∃ s' spec, ParsesAsDocumented args buf limit s head qualifier conversion
        rest s' spec) ↔
      (qualifier = .z ∨ qualifier = .Z) ∧
        (conversion.signed = true →
          0 ≤ (args.words (s.ap + head.stars)).toInt) := by
  cases qualifier with
  | z =>
      rw [directive.parses_of_z_iff rfl rfl (fun _ _ => rfl) rfl
        (fun spec => decodeQualifier_z conversion rest spec) fun _ => rfl,
        and_iff_right (Or.inl rfl)]
  | Z =>
      rw [directive.parses_of_z_iff rfl rfl (fun _ _ => rfl) rfl
        (fun spec => decodeQualifier_Z conversion rest spec) fun _ => rfl,
        and_iff_right (Or.inr rfl)]
  | h | l | hh | ll =>
      refine iff_of_false ?_ fun good => by simp at good
      rintro ⟨s', spec, parses⟩
      exact directive.not_parses (by decide) (by decide) parses

end Directive

/-! ## Two directives -/

/-- A call with the format `%`, the letters, and the end of the string. -/
def plainCall (letters : List Byte) : PrintState where
  fmt := ch '%' :: letters ++ [0]
  ap := 0
  spec := .zero
  num := 0
  out := ⟨0, ⟨fun _ => 0, []⟩⟩
  counts := []

def plainHead : DirectiveHead := ⟨[], .absent, .absent⟩

theorem qualified_directive_zd :
    ∃ s' spec, ParsesAsDocumented ⟨fun _ => 7, fun _ => 0⟩ 0 0
      (plainCall [ch 'z', ch 'd']) plainHead .z .d [0] s' spec :=
  (qualified_directive_iff ⟨rfl, by decide, by decide⟩).mpr
    ⟨Or.inl rfl, fun _ => by decide⟩

/-- Of `%ld` nothing is read but the end of the string. -/
theorem qualified_directive_ld :
    AtDirective (plainCall [ch 'l', ch 'd']) plainHead .l .d [0] ∧
      ¬ ∃ s' spec, ParsesAsDocumented ⟨fun _ => 7, fun _ => 0⟩ 0 0
        (plainCall [ch 'l', ch 'd']) plainHead .l .d [0] s' spec := by
  refine ⟨⟨rfl, by decide, by decide⟩, ?_⟩
  rintro ⟨s', spec, parses⟩
  have invalid : formatDecode (plainCall [ch 'l', ch 'd']).fmt .zero =
      some ([0], { PrintfSpec.zero with
        type := .invalid, base := 10, qualifier := ch 'L', fieldWidth := -1,
        precision := -1 }) := by
    decide +kernel
  have start : plainCall [ch 'l', ch 'd'] = s' := Option.some.inj parses.stars
  have decoded := parses.decoded
  rw [← start] at decoded
  have type := parses.type
  rw [← (Prod.mk.inj (Option.some.inj (invalid.symm.trans decoded))).2] at type
  cases type

end Hlos.Libs
