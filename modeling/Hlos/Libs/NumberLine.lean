import Hlos.Libs.FormatBounds
import Hlos.Libs.FormatMeaning
import Hlos.Libs.RadixOutput

/-!
# Numbers in messages

The kernel's messages print one `%d` or `%x` between literal texts.  Up to a
hundred million a decimal one says what one expects; from there on `vsnprintf`
does not return.
-/

namespace Hlos.Libs

open Hlos.Lib Hlos.Lib.Output Hlos.Include

/-- A directive without flags, width and precision prints the number alone. -/
theorem DecimalText.plain {args : Arguments} {ap : Nat}
    {conversion : IntConversion} {text : List Byte}
    (isText : DecimalText args ap plainHead conversion text) :
    text = plainHead.sign conversion args ap ++
      plainHead.numeral conversion args ap := by
  obtain ⟨lead, zeros, trail, rfl⟩ := isText.shape
  have length := isText.length
  simp only [List.length_append, List.length_replicate, plainHead,
    WidthText.value, PrecisionText.value] at length
  obtain ⟨rfl, rfl, rfl⟩ : lead = 0 ∧ zeros = 0 ∧ trail = 0 := by omega
  simp only [List.replicate_zero, List.nil_append, List.append_nil]

theorem numeralText_noZero (n : Nat) : (0 : Byte) ∉ numeralText n := by
  intro member
  rw [numeralText, List.mem_reverse, decimalChars] at member
  obtain ⟨digit, isDigit, zero⟩ := List.mem_map.mp member
  have small := reversedNumeral_lt (by decide) isDigit
  have value := congrArg BitVec.toNat zero
  rw [digitByte, BitVec.toNat_ofNat] at value
  change _ = 0 at value
  omega

theorem numeralText_length_le {n : Nat} (small : n < 100000000) :
    (numeralText n).length ≤ 8 := by
  rw [numeralText, List.length_reverse]
  exact decimalChars_length_le (by decide) small

/-- The arguments of a call with one number. -/
def oneArgument (value : Word) (m : Memory) : Arguments :=
  ⟨fun _ => value, m.bytes⟩

/-- A `%d` between two texts. -/
def numberLine (before behind : List Byte) : Format :=
  ⟨[⟨before, ⟨plainHead, .int .d⟩⟩], behind⟩

section Line

variable {before behind : List Byte} {args : Arguments}

theorem numberLine_supported (isBefore : Literal before)
    (isBehind : Literal behind)
    (small : (args.words 0).toInt.natAbs < 100000000) :
    (numberLine before behind).Supported args := by
  have kept : PrecisionKept args 0 plainHead .d :=
    le_max_of_le_left (show (-1 : BitVec 16).toInt ≤ ((0 : Nat) : Int) by decide)
  refine ⟨.cons isBefore ⟨Nat.zero_le _, Nat.zero_le _, ?_, ?_⟩ (.nil _),
    isBehind⟩
  · intro conversion isInt _
    cases isInt
    exact ⟨small, kept⟩
  · intro isStr
    cases isStr

/-- The text of a number that is not negative. -/
theorem numberLine_renders (small : (args.words 0).toNat < 100000000)
    {text : List Byte} (renders : (numberLine before behind).Renders args text) :
    text = before ++ (numeralText (args.words 0).toNat ++ behind) := by
  have isInt : (args.words 0).toInt = (args.words 0).toNat :=
    BitVec.toInt_eq_toNat_of_lt (by omega)
  obtain ⟨segments, rendersSegments, rfl⟩ := renders
  cases rendersSegments with
  | cons directive none =>
      cases none
      have plain := (directive.1 (Or.inl rfl)).plain
      have sign : plainHead.sign .d args 0 = [] := by
        have positive : ¬ (args.words 0).toInt < 0 := by omega
        simp [DirectiveHead.sign, signText, IntConversion.signed, plainHead,
          DirectiveHead.argument, DirectiveHead.stars, WidthText.stars,
          PrecisionText.stars, positive]
      have numeral : plainHead.numeral .d args 0 =
          numeralText (args.words 0).toNat := by
        change numeralText (args.words 0).toInt.natAbs = _
        rw [isInt]
        rfl
      rw [plain, sign, numeral]
      simp [numberLine]

end Line

/-! ## Hexadecimal numbers -/

/-- The numeral that `%x` prints. -/
def hexText (n : Nat) : List Byte := (baseChars SMALL 16 n).reverse

/-- Without a width and a precision nothing is put around the digits. -/
theorem number_hex (num : BitVec 64) {spec : PrintfSpec}
    (base : spec.base = 16) (flags : spec.flags = SMALL)
    (width : spec.fieldWidth = -1) (precision : spec.precision = -1) :
    Prints (fun limit => number limit num spec) (hexText num.toNat) := by
  have radix : RadixSpec spec := by
    refine ⟨Or.inr base, ?_, ?_, ?_⟩
    · rw [flags]
      decide
    · rw [width]
      decide
    · rw [precision]
      decide
  have sign := @numberSign_unsigned num spec radix.unsigned
  have isSmall : spec.small = true := by
    rw [PrintfSpec.small, flags]
    decide
  have noPfx : needPfx spec = false := by
    rw [radix.needPfx, flags]
    decide
  obtain ⟨digits, few⟩ := @RadixSpec.digits num spec radix
  rw [isSmall, if_pos rfl, base] at digits few
  change numberDigits num 16 _ = some (baseChars SMALL 16 num.toNat) at digits
  change (baseChars SMALL 16 num.toNat).length ≤ 22 at few
  have raised := @raisedPrecision_toInt (baseChars SMALL 16 num.toNat).length
    (by omega) spec.precision
  have none : (-1 : BitVec 16).toInt = -1 := by decide
  rw [precision, none] at raised
  have padding : (paddingWidth num spec
      (baseChars SMALL 16 num.toNat).length).toInt =
        -1 - ((baseChars SMALL 16 num.toNat).length : Int) := by
    rw [paddingWidth, sign, prefixWidth, noPfx, if_neg (by decide), precision,
      toInt_sub_16, raised, width, none]
    · omega
    · rw [raised, width, none]
      omega
    · rw [raised, width, none]
      omega
  obtain ⟨lead, fill, zeros, trail, run, filled, padded, _, _⟩ :=
    @exists_numberRun_of_width num spec (baseChars SMALL 16 num.toNat)
      (by omega) (by rw [sign, base]; exact digits) (by omega)
  rw [precision, raised] at filled
  obtain ⟨rfl, rfl, rfl, rfl⟩ :
      lead = 0 ∧ fill = 0 ∧ zeros = 0 ∧ trail = 0 := by omega
  have text : numberText num spec (baseChars SMALL 16 num.toNat) 0 0 0 0 =
      hexText num.toNat := by
    simp [numberText, sign, prefixText, noPfx, hexText]
  intro limit o
  rw [← text]
  exact run.number_eq limit o

section Plain

variable {args : Arguments} {ap : Nat} {text : List Byte}

theorem plainHex_supported :
    Directive.Supported args ap ⟨plainHead, .int .x⟩ := by
  refine ⟨Nat.zero_le _, Nat.zero_le _, ?_, ?_⟩
  · intro conversion isInt decimal
    cases isInt
    rcases decimal with d | i | u
    · cases d
    · cases i
    · cases u
  · intro isStr
    cases isStr

theorem hexText_length_le (value : Word) : (hexText value.toNat).length ≤ 8 := by
  rw [hexText, List.length_reverse]
  exact baseChars_length_le _ (by decide) (by decide) value.isLt

theorem hexText_noZero (n : Nat) : (0 : Byte) ∉ hexText n := by
  have nonzero : ∀ digit : Fin 16, caseByte SMALL digit ≠ 0 := by decide
  intro member
  rw [hexText, List.mem_reverse, baseChars] at member
  obtain ⟨digit, isDigit, zero⟩ := List.mem_map.mp member
  exact nonzero ⟨digit, reversedNumeral_lt (by decide) isDigit⟩ zero

theorem plainHex_renders
    (renders : Directive.Renders args ap ⟨plainHead, .int .x⟩ text) :
    text = hexText (args.words ap).toNat := by
  obtain ⟨_, prints, short⟩ := renders
  have value : (plainHead.num .x args ap).toNat = (args.words ap).toNat := by
    change ((args.words ap).setWidth 64).toNat = _
    have bound := (args.words ap).isLt
    rw [BitVec.toNat_setWidth]
    omega
  have flags : (plainHead.fields .x args ap .zero).flags = SMALL := by
    change (0 : Byte) ||| SMALL = SMALL
    decide
  have isHex := @number_hex (plainHead.num .x args ap)
    (plainHead.fields .x args ap .zero) rfl flags rfl rfl
  rw [value] at isHex
  have few := hexText_length_le (args.words ap)
  rw [← prints.printed_eq short]
  exact isHex.printed_eq (by omega)

variable {chars : List Byte}

theorem plainStr_supported (short : chars.length < 2 ^ 31)
    (isString : IsString (stringSource args.bytes (args.words ap)) chars) :
    Directive.Supported args ap ⟨plainHead, .str⟩ := by
  refine ⟨Nat.zero_le _, Nat.zero_le _, ?_, fun _ => ⟨trivial, chars, short,
    isString⟩⟩
  intro conversion isInt
  cases isInt

theorem plainStr_renders
    (renders : Directive.Renders args ap ⟨plainHead, .str⟩ text)
    (isString : IsString (stringSource args.bytes (args.words ap)) chars) :
    text = chars := by
  have whole : text = Directive.padded args ap ⟨plainHead, .str⟩ chars :=
    renders chars isString
  rw [whole]
  simp [Directive.padded, padded, Directive.width, plainHead, WidthText.value,
    DirectiveHead.aligned, WidthText.negative]

end Plain

/-! ## Where no text is printed -/

section Stuck

variable {args : Arguments} {buf limit : Word}

/-- A turn without a result stops the loop, whatever is printed before. -/
theorem Reads.stuck {r last : Reading} {text : List Byte}
    (reads : Reads args r text last) (notEnd : last.fmt.head? ≠ some 0)
    (stuck : ∀ out counts,
      vsnTurn args buf limit (last.state out counts) = none)
    (fuel : Nat) (out : Output) (counts : List (Word × Word)) :
    vsnLoop args buf limit fuel (r.state out counts) = none := by
  have here : ∀ {r : Reading} {fuel : Nat} {out : Output}
      {counts : List (Word × Word)}, r.fmt.head? ≠ some 0 →
      (∀ s, vsnTurn args buf limit (r.state out counts) = some s →
        vsnLoop args buf limit fuel s = none) →
      vsnLoop args buf limit (fuel + 1) (r.state out counts) = none := by
    intro r fuel out counts notEnd next
    by_cases empty : r.fmt = []
    · have noCharacter : (r.state out counts).fmt = [] := empty
      rw [vsnLoop, noCharacter]
    · rw [@vsnLoop_turn args buf limit (r.state out counts) fuel notEnd empty]
      exact Option.bind_eq_none_iff.mpr next
  induction reads generalizing fuel out counts with
  | done r =>
      cases fuel with
      | zero => rfl
      | succ fuel =>
          refine here notEnd fun s turn => ?_
          rw [stuck] at turn
          cases turn
  | turn going _ decoded _ _ inductionHypothesis =>
      cases fuel with
      | zero => rfl
      | succ fuel =>
          refine here going fun s turn => ?_
          obtain ⟨r', out', counts', read, rfl⟩ := vsnTurn_reads turn
          rw [readTurn, decoded] at read
          cases read
          exact inductionHypothesis notEnd stuck fuel out' counts'

/-- A decimal directive with a magnitude from a hundred million on. -/
def Directive.TooLarge (args : Arguments) (ap : Nat)
    (directive : Directive) : Prop :=
  ∃ conversion, directive.conversion = .int conversion ∧ conversion.Decimal ∧
    100000000 ≤ magnitude conversion.signed (directive.head.argument args ap)

theorem Directive.TooLarge.stuck {directive : Directive} {r : Reading}
    {rest : List Byte} (tooLarge : directive.TooLarge args r.ap)
    (notPending : NotPending r.spec)
    (position : r.fmt = directive.chars ++ rest) :
    ∃ r', Reads args r [] r' ∧ r'.fmt.head? ≠ some 0 ∧
      ∀ out counts, vsnTurn args buf limit (r'.state out counts) = none := by
  obtain ⟨conversion, isInt, decimal, large⟩ := tooLarge
  obtain ⟨ends, nonzero, _⟩ := directive.conversion.letter_endsHead
  have position : r.fmt =
      directive.head.text ++ directive.conversion.letter :: rest := by
    rw [position, Directive.chars, List.append_assoc]
    rfl
  obtain ⟨middle, atLetter⟩ := @Reads.head args r _ notPending directive.head
    ends nonzero rest position
  have decoded := (formatDecode_qualifier atLetter.decoding).trans
    (decodeQualifier_letter directive.conversion rest _)
  rw [isInt] at decoded
  have type := @fields_type args directive.head conversion r.ap r.spec
  have fetched := @fetch_fields args conversion _ type middle.num middle.ap
  refine ⟨middle, atLetter.reads, atLetter.notEnd, fun out counts => ?_⟩
  have turn := @vsnTurn_integer args buf limit (middle.state out counts) rest
    (directive.head.fields conversion args r.ap r.spec) decoded fetched.1
  change _ = (number limit (fetch args (directive.head.fields conversion args
    r.ap r.spec).type middle.num middle.ap).1 _ out).map _ at turn
  have none := @number_fields_eq_none args r.ap r.spec directive.head
    conversion limit decimal large out
  rw [DirectiveHead.num, DirectiveHead.argument, ← atLetter.ap] at none
  rw [turn, fetched.2, none]
  rfl

/-- The loop gets stuck at a number that is too large. -/
theorem vsnLoop_stuck {format : Format} {before behind : List Segment}
    {segment : Segment} (parts : format.segments = before ++ segment :: behind)
    (supported : SupportedSegments args 0 before)
    (literal : Literal segment.literal)
    (tooLarge : segment.directive.TooLarge args (argumentsTaken before))
    (num : BitVec 64) (fuel : Nat) (out : Output)
    (counts : List (Word × Word)) :
    vsnLoop args buf limit fuel
      ((startReading format.chars num).state out counts) = none := by
  have whole : format.chars = before.flatMap Segment.chars ++
      (segment.literal ++ (segment.directive.chars ++
        (behind.flatMap Segment.chars ++ (format.last ++ [0])))) := by
    rw [Format.chars, parts, List.flatMap_append, List.flatMap_cons]
    simp only [Segment.chars, List.append_assoc]
  obtain ⟨r₁, _, readsBefore, _, position₁, argument₁, notPending₁⟩ :=
    @Reads.segments args 0 before supported (startReading format.chars num) _
      rfl notPending_zero whole
  obtain ⟨tail, isTail⟩ : ∃ tail, segment.directive.chars = ch '%' :: tail :=
    ⟨_, rfl⟩
  have atLiteral := position₁
  rw [isTail, List.cons_append] at atLiteral
  obtain ⟨r₂, readsLiteral, position₂, argument₂, notPending₂⟩ :=
    @Reads.literal args r₁ _ _ _ literal notPending₁ (Or.inr rfl) atLiteral
  rw [← List.cons_append, ← isTail] at position₂
  rw [Nat.zero_add] at argument₁
  rw [← argument₁, ← argument₂] at tooLarge
  obtain ⟨r', readsHead, notEnd, stuck⟩ :=
    @Directive.TooLarge.stuck args buf limit _ _ _ tooLarge notPending₂
      position₂
  exact Reads.stuck (readsBefore.trans (readsLiteral.trans readsHead)) notEnd
    stuck fuel out counts

theorem vsnprintf_of_stuck {num : BitVec 64} {fmt : List Byte} {size : Word}
    (bound : size.toNat < 2 ^ 31) (m : Memory)
    (stuck : ∀ limit, vsnLoop args buf limit (2 * fmt.length + 1)
      ((startReading fmt num).state ⟨buf, m⟩ []) = none) :
    vsnprintf args num buf size fmt m = none := by
  have positive : ¬ size.toInt < 0 := by
    rw [BitVec.toInt_eq_toNat_of_lt (by omega)]
    omega
  rw [vsnprintf, if_neg positive]
  change (vsnLoop args buf _ _ ((startReading fmt num).state ⟨buf, m⟩
    [])).bind _ = none
  rw [stuck]
  rfl

/-- The message with such a number. -/
theorem numberLine_stuck {before behind : List Byte} (isBefore : Literal before)
    (large : 100000000 ≤ (args.words 0).toInt.natAbs) (num : BitVec 64)
    {size : Word} (bound : size.toNat < 2 ^ 31) (m : Memory) :
    vsnprintf args num buf size (numberLine before behind).chars m = none :=
  vsnprintf_of_stuck bound m fun limit =>
    @vsnLoop_stuck args buf limit (numberLine before behind) [] [] _ rfl
      (.nil 0) isBefore ⟨.d, rfl, Or.inl rfl, large⟩ num _ _ _

end Stuck

/-- A format does not return if one of its numbers is too large, whatever
stands before and behind it. -/
theorem vsnprintf_stuck {args : Arguments} {format : Format}
    {before behind : List Segment} {segment : Segment}
    (parts : format.segments = before ++ segment :: behind)
    (supported : SupportedSegments args 0 before)
    (literal : Literal segment.literal)
    (tooLarge : segment.directive.TooLarge args (argumentsTaken before))
    (num : BitVec 64) {buf size : Word} (bound : size.toNat < 2 ^ 31)
    (m : Memory) :
    vsnprintf args num buf size format.chars m = none :=
  vsnprintf_of_stuck bound m fun _ =>
    vsnLoop_stuck parts supported literal tooLarge num _ _ _

/-- `%d` and `%u` of a hundred million, the second one not reached. -/
theorem vsnprintf_stuck_hundred_million :
    vsnprintf ⟨fun _ => 100000000, fun _ => 0⟩ 0 0xC0107000 1024
      (Format.mk [⟨[ch 'n', ch '='], ⟨plainHead, .int .d⟩⟩,
        ⟨[], ⟨plainHead, .int .u⟩⟩] []).chars ⟨fun _ => 0, []⟩ = none :=
  @vsnprintf_stuck ⟨fun _ => 100000000, fun _ => 0⟩ _ [] _ _ rfl (.nil 0)
    ⟨by decide, by decide, by decide⟩ ⟨.d, rfl, Or.inl rfl, by decide⟩ 0
    0xC0107000 1024 (by decide) ⟨fun _ => 0, []⟩

end Hlos.Libs
