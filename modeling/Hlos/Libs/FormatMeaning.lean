import Hlos.Libs.FieldOutput

/-!
# What a format means

A format is read in parts: literal text, and directives without a qualifier.
Every directive takes its own arguments, and prints its own text; `vsnprintf`
leaves these texts and the literal ones one behind the other.
-/

namespace Hlos.Libs

open Hlos.Lib Hlos.Lib.Output Hlos.Include

/-! ## Formats as they are written -/

/-- The letter of a directive, behind flags, width and precision. -/
inductive Conversion where
  | int (conversion : IntConversion)
  | char
  | str
  | percent

def Conversion.letter : Conversion → Byte
  | int conversion => conversion.char
  | char => ch 'c'
  | str => ch 's'
  | percent => ch '%'

structure Directive where
  head : DirectiveHead
  conversion : Conversion

/-- Literal text, and the directive behind it. -/
structure Segment where
  literal : List Byte
  directive : Directive

structure Format where
  segments : List Segment
  last : List Byte

def Directive.chars (directive : Directive) : List Byte :=
  directive.head.text ++ [directive.conversion.letter]

def Segment.chars (segment : Segment) : List Byte :=
  segment.literal ++ segment.directive.chars

/-- The format as a string. -/
def Format.chars (format : Format) : List Byte :=
  format.segments.flatMap Segment.chars ++ (format.last ++ [0])

/-- The arguments that a directive takes. -/
def Directive.taken (directive : Directive) : Nat :=
  directive.head.stars +
    match directive.conversion with
    | .percent => 0
    | _ => 1

def argumentsTaken (segments : List Segment) : Nat :=
  (segments.map fun segment => segment.directive.taken).sum

/-! ## What a directive should print -/

section Directives

variable (args : Arguments) (ap : Nat) (directive : Directive)

def Directive.width : Nat := directive.head.width.value args ap

def Directive.padded (body : List Byte) : List Byte :=
  Libs.padded (directive.head.aligned args ap) (directive.width args ap) body

/-- The text of a directive.  A number in base eight or sixteen is what
`number` prints. -/
def Directive.Renders (text : List Byte) : Prop :=
  match directive.conversion with
  | .int conversion =>
      (conversion.Decimal →
        DecimalText args ap directive.head conversion text) ∧
      Prints (fun limit => number limit
        (directive.head.num conversion args ap)
        (directive.head.fields conversion args ap .zero)) text ∧
      text.length < 2 ^ 32 - 1
  | .char => text = directive.padded args ap
      [(directive.head.argument args ap).setWidth 8]
  | .str => ∀ chars,
      IsString (stringSource args.bytes (directive.head.argument args ap))
        chars →
      text = directive.padded args ap
        (directive.head.precision.cut args
          (ap + directive.head.width.stars) chars)
  | .percent => text = [ch '%']

/-- The width and the precision are at most 32000, a decimal number is below a
hundred million, and a string ends. -/
structure Directive.Supported : Prop where
  width : directive.width args ap ≤ 32000
  precision : directive.head.precision.value args
    (ap + directive.head.width.stars) ≤ 32000
  decimal : ∀ conversion, directive.conversion = .int conversion →
    conversion.Decimal →
    magnitude conversion.signed (directive.head.argument args ap) <
        100000000 ∧
      PrecisionKept args ap directive.head conversion
  string : directive.conversion = .str →
    directive.head.precision.Stored args (ap + directive.head.width.stars) ∧
      ∃ chars, chars.length < 2 ^ 31 ∧
        IsString (stringSource args.bytes (directive.head.argument args ap))
          chars

end Directives

/-- A literal part ends only at a directive or at the end of the format. -/
structure Literal (text : List Byte) : Prop where
  noZero : (0 : Byte) ∉ text
  noPercent : ch '%' ∉ text
  short : text.length < 2 ^ 31

/-- The segments from an argument on print the text. -/
inductive RendersSegments (args : Arguments) :
    (ap : Nat) → List Segment → List Byte → Prop where
  | nil (ap : Nat) : RendersSegments args ap [] []
  | cons {ap : Nat} {segment : Segment} {rest : List Segment}
      {text more : List Byte} : segment.directive.Renders args ap text →
      RendersSegments args (ap + segment.directive.taken) rest more →
      RendersSegments args ap (segment :: rest)
        (segment.literal ++ (text ++ more))

inductive SupportedSegments (args : Arguments) :
    (ap : Nat) → List Segment → Prop where
  | nil (ap : Nat) : SupportedSegments args ap []
  | cons {ap : Nat} {segment : Segment} {rest : List Segment} :
      Literal segment.literal → segment.directive.Supported args ap →
      SupportedSegments args (ap + segment.directive.taken) rest →
      SupportedSegments args ap (segment :: rest)

def Format.Renders (args : Arguments) (format : Format) (text : List Byte) :
    Prop :=
  ∃ segments, RendersSegments args 0 format.segments segments ∧
    text = segments ++ format.last

structure Format.Supported (args : Arguments) (format : Format) : Prop where
  segments : SupportedSegments args 0 format.segments
  last : Literal format.last

/-! ## Reading on -/

/-- From one position to another the loop takes supported turns, which store no
counts, and prints the text. -/
inductive Reads (args : Arguments) : Reading → List Byte → Reading → Prop where
  | done (r : Reading) : Reads args r [] r
  | turn {r last : Reading} {fmt text : List Byte} {spec : PrintfSpec} :
      r.fmt.head? ≠ some 0 → SupportedTurn args r →
      formatDecode r.fmt r.spec = some (fmt, spec) → spec.type ≠ .nrchars →
      Reads args (takeArguments args { r with fmt := fmt, spec := spec }) text
        last →
      Reads args r (tokenText args r fmt spec ++ text) last

section Reads

variable {args : Arguments} {r r' last : Reading} {text more : List Byte}

theorem Reads.trans (first : Reads args r text r')
    (second : Reads args r' more last) : Reads args r (text ++ more) last := by
  induction first with
  | done => exact second
  | turn notEnd supported decoded noCount _ inductionHypothesis =>
      rw [List.append_assoc]
      exact Reads.turn notEnd supported decoded noCount
        (inductionHypothesis second)

/-- The loop takes the turns as long as it is not at the end. -/
theorem Reads.supported {num : BitVec 64} {format : List Byte}
    (reads : Reads args (startReading format num) text last)
    (atEnd : last.fmt.head? = some 0) :
    SupportedFormat args num format ∧ NoCount args num format := by
  have keeps : (formatMachine args).Keeps fun r =>
      ∃ text, Reads args r text last := by
    rintro r _ ⟨text, reads⟩ notEnd
    cases reads with
    | done => exact absurd atEnd notEnd
    | turn _ _ decoded _ later =>
        refine ⟨_, ?_, _, later⟩
        change readTurn args r = _
        rw [readTurn, decoded]
        rfl
  constructor
  · intro r reached notEnd
    obtain ⟨_, fromHere⟩ := keeps.reaches ⟨text, reads⟩ reached
    cases fromHere with
    | done => exact absurd atEnd notEnd
    | turn _ supported _ _ _ => exact supported
  · intro r reached notEnd fmt spec isDecoded
    obtain ⟨_, fromHere⟩ := keeps.reaches ⟨text, reads⟩ reached
    cases fromHere with
    | done => exact absurd atEnd notEnd
    | turn _ _ decoded noCount _ =>
        rw [isDecoded] at decoded
        cases decoded
        exact noCount

theorem Reads.remainingText (reads : Reads args r text last)
    (atEnd : last.fmt.head? = some 0) (terminated : (0 : Byte) ∈ r.fmt)
    {fuel : Nat} (enough : turnsLeft r.fmt r.spec < fuel) :
    remainingText args fuel r = text := by
  induction reads generalizing fuel with
  | done r =>
      cases fuel with
      | zero => cases enough
      | succ fuel => rw [Libs.remainingText, if_pos atEnd]
  | @turn r last fmt text spec notEnd supported decoded _ later
      inductionHypothesis =>
      cases fuel with
      | zero => cases enough
      | succ fuel =>
          obtain ⟨fmt', spec', decoded', remains, fewer, _⟩ :=
            formatDecode_progress terminated notEnd supported.unqualified
          rw [decoded] at decoded'
          obtain ⟨rfl, rfl⟩ := Prod.mk.inj (Option.some.inj decoded')
          have next := takeArguments_fmt args
            { r with fmt := fmt, spec := spec }
          have left := takeArguments_turnsLeft args
            { r with fmt := fmt, spec := spec }
          change _ = turnsLeft fmt spec at left
          rw [remainingText_step notEnd decoded,
            inductionHypothesis atEnd (by rw [next]; exact remains.terminated)
              (by omega)]

/-! ## One turn -/

variable {fmt : List Byte} {spec : PrintfSpec}

theorem SupportedTurn.of_decoded (unqualified : Unqualified r.fmt r.spec)
    (decoded : formatDecode r.fmt r.spec = some (fmt, spec))
    (decimal : spec.type.isInteger = true → spec.base = 10 →
      numberMagnitude (fetch args spec.type r.num r.ap).1 spec < 100000000)
    (literal : spec.type = .none → r.fmt.length - fmt.length < 2 ^ 31)
    (string : spec.type = .str →
      strnlen (stringSource args.bytes (args.words r.ap))
        (spec.precision.signExtend 32).toNat < 2 ^ 31) :
    SupportedTurn args r := by
  constructor
  · exact unqualified
  · intro fmt' spec' decoded'
    obtain ⟨rfl, rfl⟩ := Prod.mk.inj (Option.some.inj (decoded.symm.trans decoded'))
    exact decimal
  · intro fmt' spec' decoded'
    obtain ⟨rfl, rfl⟩ := Prod.mk.inj (Option.some.inj (decoded.symm.trans decoded'))
    exact literal
  · intro fmt' spec' decoded'
    obtain ⟨rfl, rfl⟩ := Prod.mk.inj (Option.some.inj (decoded.symm.trans decoded'))
    exact string

/-- The code before the qualifier returns: there is literal text, or an
argument gives the width or the precision. -/
theorem Reads.returned (notEnd : r.fmt.head? ≠ some 0)
    (decoded : decodeToQualifier r.fmt r.spec = some (.returned fmt spec))
    (notInteger : spec.type.isInteger = false) (notString : spec.type ≠ .str)
    (noCount : spec.type ≠ .nrchars)
    (short : spec.type = .none → r.fmt.length - fmt.length < 2 ^ 31) :
    Reads args r (tokenText args r fmt spec)
      (takeArguments args { r with fmt := fmt, spec := spec }) := by
  have isDecoded := formatDecode_returned decoded
  have unqualified : Unqualified r.fmt r.spec := by
    intro c rest spec' isQualifier
    rw [decoded] at isQualifier
    cases isQualifier
  have supported : SupportedTurn args r :=
    SupportedTurn.of_decoded unqualified isDecoded
      (fun integer => by rw [notInteger] at integer; cases integer) short
      (fun isString => absurd isString notString)
  have reads := Reads.turn notEnd supported isDecoded noCount (Reads.done _)
  rwa [List.append_nil] at reads

/-- A literal part is copied. -/
theorem Reads.literal {c : Byte} {rest : List Byte} (literal : Literal text)
    (notPending : NotPending r.spec) (ends : c = 0 ∨ c = ch '%')
    (position : r.fmt = text ++ c :: rest) :
    ∃ r', Reads args r text r' ∧ r'.fmt = c :: rest ∧ r'.ap = r.ap ∧
      NotPending r'.spec := by
  by_cases empty : text = []
  · subst empty
    exact ⟨r, Reads.done r, position, rfl, notPending⟩
  have nonzero : ∀ first, first ∈ text → ¬ (first = 0 ∨ first = ch '%') := by
    rintro first member (rfl | rfl)
    · exact literal.noZero member
    · exact literal.noPercent member
  have notEnd : r.fmt.head? ≠ some 0 := by
    cases text with
    | nil => exact absurd rfl empty
    | cons first more =>
        rw [position]
        intro zero
        exact nonzero first List.mem_cons_self (Or.inl (Option.some.inj zero))
  have accepted : Accepts literalStep text () () := by
    clear literal empty position notEnd
    induction text with
    | nil => exact Accepts.nil ()
    | cons first more inductionRest =>
        have taken : literalStep first () = some () :=
          if_neg (nonzero first List.mem_cons_self)
        exact Accepts.cons taken (inductionRest fun other member =>
          nonzero other (List.mem_cons_of_mem first member))
  have read := scan_append rest accepted (if_pos ends)
  have longer : (c :: rest).length ≠ (text ++ c :: rest).length := by
    rw [List.length_append]
    have positive := List.length_pos_iff.mpr empty
    omega
  have decoded : decodeToQualifier r.fmt r.spec =
      some (.returned (c :: rest) { r.spec with type := .none }) := by
    rw [decodeToQualifier_notPending notPending, position, decodeToken]
    change (scan literalStep (text ++ c :: rest) ()).bind _ = _
    rw [read]
    exact if_pos (Or.inl longer)
  have count : r.fmt.length - (c :: rest).length = text.length := by
    rw [position, List.length_append, Nat.add_sub_cancel]
  have reads := @Reads.returned args r _ _ notEnd decoded rfl
    (fun isString => by cases isString) (fun isCount => by cases isCount)
    (fun _ => by rw [count]; exact literal.short)
  have isText : tokenText args r (c :: rest) { r.spec with type := .none } =
      text := by
    change r.fmt.take (r.fmt.length - (c :: rest).length) = text
    rw [count, position, List.take_left' rfl]
  rw [isText] at reads
  exact ⟨_, reads, rfl, rfl, ⟨(fun isWidth => by cases isWidth),
    (fun isPrecision => by cases isPrecision)⟩⟩

end Reads

/-! ## The head of a directive -/

section Head

variable {args : Arguments} {r : Reading} {c : Byte}

/-- The position behind what has been read of a head. -/
structure AtHead (args : Arguments) (r r' : Reading) (stars : Nat)
    (decoding : Option Decoding) : Prop where
  reads : Reads args r [] r'
  ap : r'.ap = r.ap + stars
  notEnd : r'.fmt.head? ≠ some 0
  decoding : decodeToQualifier r'.fmt r'.spec = decoding

theorem Reads.width (notPending : NotPending r.spec) (flags : List Flag)
    (width : WidthText) (notFlag : ∀ flags, flagStep c flags = none)
    (notDigit : isdigit c = false) (notStar : c ≠ ch '*') (nonzero : c ≠ 0)
    (rest : List Byte)
    (position : r.fmt =
      ch '%' :: (flags.map Flag.char ++ (width.text ++ c :: rest))) :
    ∃ r', AtHead args r r' width.stars
      (decodePrecision (c :: rest) { r.spec with
        type := .none
        flags := width.flags args r.ap (flagBits flags)
        fieldWidth := width.field args r.ap }) := by
  have notEnd : r.fmt.head? ≠ some 0 := by
    rw [position]
    exact fun zero => absurd (Option.some.inj zero) (by decide)
  cases width with
  | absent =>
      refine ⟨r, Reads.done r, rfl, notEnd, ?_⟩
      rw [decodeToQualifier_notPending notPending, position]
      change decodeToken (_ :: (_ ++ c :: rest)) _ = _
      rw [decodeToken_head notFlag, decodeWidth_absent notDigit notStar]
      rfl
  | decimal first more significant =>
      refine ⟨r, Reads.done r, rfl, notEnd, ?_⟩
      rw [decodeToQualifier_notPending notPending, position]
      change decodeToken (_ :: (_ ++ digitChar first :: _)) _ = _
      rw [decodeToken_head (flagStep_digitChar first significant)]
      exact decodeWidth_decimal notDigit first more rest _
  | star =>
      have decoded : decodeToQualifier r.fmt r.spec =
          some (.returned (c :: rest) { r.spec with
            flags := flagBits flags, fieldWidth := -1, type := .width }) := by
        rw [decodeToQualifier_notPending notPending, position]
        change decodeToken (_ :: (_ ++ ch '*' :: c :: rest)) _ = _
        rw [decodeToken_head fun _ => rfl]
        rfl
      refine ⟨_, Reads.returned notEnd decoded rfl (fun str => by cases str)
        (fun count => by cases count) (fun none => by cases none), rfl, ?_, ?_⟩
      · exact fun zero => nonzero (Option.some.inj zero)
      · exact decodeToQualifier_width rfl _

theorem Reads.precision {r₀ : Reading} {stars : Nat}
    (precision : PrecisionText) (ends : EndsHead c) (nonzero : c ≠ 0)
    (rest : List Byte) {spec : PrintfSpec} (typeNone : spec.type = .none)
    (position : AtHead args r₀ r stars
      (decodePrecision (precision.text ++ c :: rest) spec)) :
    ∃ r', AtHead args r₀ r' (stars + precision.stars)
      (some (.qualifier (c :: rest)
        { spec with precision := precision.field args r.ap })) := by
  have decoded := position.decoding
  cases precision with
  | absent =>
      rw [PrecisionText.text, List.nil_append,
        decodePrecision_absent ends.notPoint] at decoded
      exact ⟨r, position.reads, position.ap, position.notEnd, decoded⟩
  | decimal digits =>
      rw [decodePrecision_decimal ends digits rest spec r.ap] at decoded
      exact ⟨r, position.reads, position.ap, position.notEnd, decoded⟩
  | star =>
      rw [decodePrecision_star] at decoded
      refine ⟨_, position.reads.trans (Reads.returned position.notEnd decoded rfl
        (fun str => by cases str) (fun count => by cases count)
        (fun none => by cases none)), ?_, ?_, ?_⟩
      · change r.ap + 1 = _
        rw [position.ap]
        rfl
      · exact fun zero => nonzero (Option.some.inj zero)
      · cases spec
        cases typeNone
        rfl

/-- A head is read in one turn for each of its arguments. -/
theorem Reads.head (notPending : NotPending r.spec) (head : DirectiveHead)
    (ends : EndsHead c) (nonzero : c ≠ 0) (rest : List Byte)
    (position : r.fmt = head.text ++ c :: rest) :
    ∃ r', AtHead args r r' head.stars
      (some (.qualifier (c :: rest) (head.spec args r.ap r.spec))) := by
  obtain ⟨next, tail, isNext, notFlag, notDigit, notStar, notZero⟩ :
      ∃ next tail, head.precision.text ++ c :: rest = next :: tail ∧
        (∀ flags, flagStep next flags = none) ∧ isdigit next = false ∧
        next ≠ ch '*' ∧ next ≠ 0 := by
    cases head.precision with
    | absent =>
        exact ⟨c, rest, rfl, ends.notFlag, ends.notDigit, ends.notStar, nonzero⟩
    | decimal digits =>
        exact ⟨ch '.', _, rfl, fun _ => rfl, rfl, by decide, by decide⟩
    | star => exact ⟨ch '.', _, rfl, fun _ => rfl, rfl, by decide, by decide⟩
  have start : r.fmt = ch '%' :: (head.flags.map Flag.char ++
      (head.width.text ++ next :: tail)) := by
    rw [position, ← isNext, DirectiveHead.text]
    simp only [List.cons_append, List.append_assoc]
  obtain ⟨middle, atPrecision⟩ := @Reads.width args r next notPending
    head.flags head.width notFlag notDigit notStar notZero tail start
  rw [← isNext] at atPrecision
  obtain ⟨r', atQualifier⟩ :=
    Reads.precision head.precision ends nonzero rest rfl atPrecision
  rw [atPrecision.ap] at atQualifier
  exact ⟨r', atQualifier⟩

end Head

/-! ## A directive -/

/-- The new `*spec` of an unqualified directive. -/
def Conversion.spec (spec : PrintfSpec) (conversion : Conversion) :
    PrintfSpec :=
  let spec := { spec with qualifier := 0xFF }
  match conversion with
  | int conversion => conversion.spec spec
  | char => { spec with base := 10, type := .char }
  | str => { spec with base := 10, type := .str }
  | percent => { spec with base := 10, type := .percentChar }

theorem decodeQualifier_letter (conversion : Conversion) (rest : List Byte)
    (spec : PrintfSpec) :
    decodeQualifier (conversion.letter :: rest) spec =
      some (rest, conversion.spec spec) := by
  cases conversion with
  | int conversion => exact decodeQualifier_unqualified conversion rest spec
  | char => rfl
  | str => rfl
  | percent => rfl

theorem Conversion.letter_endsHead (conversion : Conversion) :
    EndsHead conversion.letter ∧ conversion.letter ≠ 0 ∧
      isQualifier conversion.letter = false := by
  cases conversion with
  | int conversion =>
      cases conversion <;>
        exact ⟨endsHead_of_letter (by decide), by decide, by decide⟩
  | char => exact ⟨endsHead_of_letter (by decide), by decide, by decide⟩
  | str => exact ⟨endsHead_of_letter (by decide), by decide, by decide⟩
  | percent =>
      exact ⟨⟨fun _ => rfl, rfl, by decide, by decide⟩, by decide, by decide⟩

theorem Conversion.int_isInteger (conversion : IntConversion)
    (spec : PrintfSpec) :
    ((Conversion.int conversion).spec spec).type.isInteger = true := by
  change (conversion.spec _).type.isInteger = true
  rw [IntConversion.spec_type]
  exact integerType_isInteger _ _

theorem Conversion.spec_notPending (conversion : Conversion)
    (spec : PrintfSpec) : NotPending (conversion.spec spec) := by
  cases conversion with
  | int conversion =>
      have integer := Conversion.int_isInteger conversion spec
      constructor
      · intro isWidth
        rw [isWidth] at integer
        cases integer
      · intro isPrecision
        rw [isPrecision] at integer
        cases integer
  | char | str | percent => simp [NotPending, Conversion.spec]

theorem Conversion.spec_noCount (conversion : Conversion)
    (spec : PrintfSpec) : (conversion.spec spec).type ≠ .nrchars := by
  cases conversion with
  | int conversion =>
      intro isCount
      have integer := Conversion.int_isInteger conversion spec
      rw [isCount] at integer
      cases integer
  | char | str | percent => simp [Conversion.spec]

theorem notPending_zero : NotPending .zero := by
  simp [NotPending, PrintfSpec.zero]

theorem takeArguments_type (args : Arguments) (r : Reading) :
    (takeArguments args r).spec.type = r.spec.type := by
  unfold takeArguments
  split <;> rfl

/-- Nothing is left of the previous directive. -/
theorem fields_eq (head : DirectiveHead) (conversion : IntConversion)
    (args : Arguments) (ap : Nat) (spec spec' : PrintfSpec) :
    head.fields conversion args ap spec =
      head.fields conversion args ap spec' := by
  cases conversion <;> rfl

section Directive

variable {args : Arguments} {ap : Nat} {directive : Directive}

theorem Directive.inField (supported : directive.Supported args ap)
    (spec : PrintfSpec) (conversion : Conversion)
    (other : conversion = .char ∨ conversion = .str) :
    InField (conversion.spec (directive.head.spec args ap spec))
      (directive.head.aligned args ap) (directive.width args ap) := by
  have flags := @headFlags_left args ap directive.head spec supported.width
  have width := WidthText.field_toInt supported.width
  rcases other with rfl | rfl
  · exact ⟨flags, width⟩
  · exact ⟨flags, width⟩

/-- A number in base ten is small enough. -/
theorem Directive.small {conversion : IntConversion}
    (isInt : directive.conversion = .int conversion)
    (supported : directive.Supported args ap) {spec : PrintfSpec}
    (isTen : (directive.head.fields conversion args ap spec).base = 10) :
    numberMagnitude (directive.head.num conversion args ap)
      (directive.head.fields conversion args ap spec) < 100000000 := by
  have decimal : conversion.Decimal := by
    cases conversion with
    | d => exact Or.inl rfl
    | i => exact Or.inr (Or.inl rfl)
    | u => exact Or.inr (Or.inr rfl)
    | o => exact absurd (show (8 : Byte) = 10 from isTen) (by decide)
    | x | X => exact absurd (show (16 : Byte) = 10 from isTen) (by decide)
  obtain ⟨small, _⟩ := supported.decimal conversion isInt decimal
  rwa [DirectiveHead.num, numberMagnitude_fields]

/-- The text that `number` prints is the one of the directive. -/
theorem Directive.renders_int {conversion : IntConversion}
    (isInt : directive.conversion = .int conversion)
    (supported : directive.Supported args ap) :
    directive.Renders args ap (printed fun limit => number limit
      (directive.head.num conversion args ap)
      (directive.head.fields conversion args ap .zero)) := by
  unfold Directive.Renders
  rw [isInt]
  constructor
  · intro decimal
    obtain ⟨small, kept⟩ := supported.decimal conversion isInt decimal
    obtain ⟨text, isText, prints⟩ :=
      @number_fields args ap .zero directive.head conversion 0xFFFFFFFF decimal
        supported.width supported.precision kept small
    have length := isText.length
    have sign := @sign_length_le args ap directive.head conversion
    have count := numeral_length small
    have width := supported.width
    have precision := supported.precision
    have isPrinted : printed (fun limit => number limit
        (directive.head.num conversion args ap)
        (directive.head.fields conversion args ap .zero)) = text := by
      rw [printed, prints]
      apply readBack_emitAll
      unfold Directive.width at width
      omega
    rwa [isPrinted]
  · have known : (directive.head.fields conversion args ap .zero).base = 8 ∨
        (directive.head.fields conversion args ap .zero).base = 10 ∨
        (directive.head.fields conversion args ap .zero).base = 16 := by
      cases conversion with
      | d | i | u => exact Or.inr (Or.inl rfl)
      | o => exact Or.inl rfl
      | x | X => exact Or.inr (Or.inr rfl)
    obtain ⟨text, prints, short⟩ :=
      number_prints known (Directive.small isInt supported)
    rw [prints.printed_eq short]
    exact ⟨prints, short⟩

theorem Directive.renders_char (isChar : directive.conversion = .char)
    (supported : directive.Supported args ap) (spec : PrintfSpec) :
    directive.Renders args ap (printed fun limit => printChar limit
      (directive.head.argument args ap)
      (Conversion.char.spec (directive.head.spec args ap spec))) := by
  have prints := (Directive.inField supported spec .char (Or.inl rfl)).printChar
    (directive.head.argument args ap)
  unfold Directive.Renders
  rw [isChar]
  apply prints.printed_eq
  rw [padded_length]
  exact Nat.lt_of_le_of_lt (max_le_max supported.width (Nat.le_refl 1))
    (by decide)

theorem Directive.renders_str (isStr : directive.conversion = .str)
    (supported : directive.Supported args ap) (spec : PrintfSpec) :
    directive.Renders args ap (printed fun limit => string limit args.bytes
      (directive.head.argument args ap)
      (Conversion.str.spec (directive.head.spec args ap spec))) := by
  obtain ⟨stored, chars, fits, isString⟩ := supported.string isStr
  have prints := (Directive.inField supported spec .str (Or.inr rfl)).string
    isString fits
  have isCut := PrecisionText.cut_eq supported.precision stored fits
  unfold Directive.Renders
  rw [isStr]
  intro other isOther
  rw [isOther.unique isString, Directive.padded, isCut]
  apply prints.printed_eq
  have shorter := List.length_take_le'
    ((Conversion.str.spec (directive.head.spec args ap
      spec)).precision.signExtend 32).toNat chars
  have width : directive.width args ap ≤ 32000 := supported.width
  rw [padded_length]
  omega

/-! ## The turns of a directive -/

/-- The token of the letter prints the text of the directive. -/
theorem Directive.renders_token (supported : directive.Supported args ap)
    {r : Reading} (argument : r.ap = ap + directive.head.stars)
    (fmt : List Byte) (spec : PrintfSpec) :
    directive.Renders args ap (tokenText args r fmt
      (directive.conversion.spec (directive.head.spec args ap spec))) := by
  cases isConversion : directive.conversion with
  | int conversion =>
      have type := @fields_type args directive.head conversion ap spec
      have fetched := @fetch_fields args conversion _ type r.num r.ap
      have isText := @tokenText_integer args r fmt
        (directive.head.fields conversion args ap spec) fetched.1
      rw [fetched.2, argument] at isText
      have renders := Directive.renders_int isConversion supported
      rw [fields_eq _ _ _ _ _ spec] at renders
      exact isText ▸ renders
  | char =>
      have renders := Directive.renders_char isConversion supported spec
      rwa [DirectiveHead.argument, ← argument] at renders
  | str =>
      have renders := Directive.renders_str isConversion supported spec
      rwa [DirectiveHead.argument, ← argument] at renders
  | percent =>
      unfold Directive.Renders
      rw [isConversion]
      rfl

theorem Directive.supportedTurn (supported : directive.Supported args ap)
    {r : Reading} (argument : r.ap = ap + directive.head.stars)
    (unqualified : Unqualified r.fmt r.spec) {fmt : List Byte}
    {spec : PrintfSpec}
    (decoded : formatDecode r.fmt r.spec = some (fmt,
      directive.conversion.spec (directive.head.spec args ap spec))) :
    SupportedTurn args r := by
  apply SupportedTurn.of_decoded unqualified decoded
  · intro integer isTen
    cases isConversion : directive.conversion with
    | int conversion =>
        rw [isConversion] at integer isTen
        have type := @fields_type args directive.head conversion ap spec
        have fetched := @fetch_fields args conversion _ type r.num r.ap
        have small := Directive.small isConversion supported isTen
        rw [argument] at fetched
        change numberMagnitude (fetch args (directive.head.fields conversion args
          ap spec).type r.num r.ap).1 (directive.head.fields conversion args ap
            spec) < _
        rw [argument, fetched.2]
        exact small
    | char | str | percent =>
        rw [isConversion] at integer
        cases integer
  · intro isNone
    cases isConversion : directive.conversion with
    | int conversion =>
        rw [isConversion] at isNone
        have integer := Conversion.int_isInteger conversion
          (directive.head.spec args ap spec)
        rw [isNone] at integer
        cases integer
    | char | str | percent =>
        rw [isConversion] at isNone
        cases isNone
  · intro isStr
    cases isConversion : directive.conversion with
    | int conversion =>
        rw [isConversion] at isStr
        have integer := Conversion.int_isInteger conversion
          (directive.head.spec args ap spec)
        rw [isStr] at integer
        cases integer
    | str =>
        obtain ⟨_, chars, fits, isString⟩ := supported.string isConversion
        rw [argument]
        change strnlen (stringSource args.bytes
          (directive.head.argument args ap)) _ < _
        rw [strnlen_isString isString]
        exact Nat.lt_of_le_of_lt (Nat.min_le_left _ _) fits
    | char | percent =>
        rw [isConversion] at isStr
        cases isStr

/-- The letter takes one argument, or none. -/
theorem Directive.takes {r : Reading} (fmt : List Byte) (spec : PrintfSpec)
    (argument : r.ap = ap + directive.head.stars) :
    (takeArguments args { r with
      fmt := fmt
      spec := directive.conversion.spec (directive.head.spec args ap spec)
      }).ap = ap + directive.taken := by
  unfold Directive.taken
  cases directive.conversion with
  | int conversion =>
      have type := @fields_type args directive.head conversion ap spec
      have fetched := @fetch_fields args conversion _ type r.num r.ap
      have taken := @takeArguments_integer args r fmt
        (directive.head.fields conversion args ap spec) fetched.1
      change (takeArguments args { r with
        fmt := fmt
        spec := directive.head.fields conversion args ap spec }).ap = _
      rw [taken, fetched.2, argument]
      rfl
  | char => exact congrArg (· + 1) argument
  | str => exact congrArg (· + 1) argument
  | percent => exact argument

end Directive

/-- A directive takes its arguments and prints its text. -/
theorem Reads.directive {args : Arguments} {directive : Directive}
    {r : Reading} {rest : List Byte}
    (supported : directive.Supported args r.ap)
    (notPending : NotPending r.spec)
    (position : r.fmt = directive.chars ++ rest) :
    ∃ r' text, Reads args r text r' ∧ directive.Renders args r.ap text ∧
      r'.fmt = rest ∧ r'.ap = r.ap + directive.taken ∧
      NotPending r'.spec := by
  obtain ⟨ends, nonzero, plain⟩ := directive.conversion.letter_endsHead
  have position : r.fmt =
      directive.head.text ++ directive.conversion.letter :: rest := by
    rw [position, Directive.chars, List.append_assoc]
    rfl
  obtain ⟨middle, atLetter⟩ := @Reads.head args r _ notPending directive.head
    ends nonzero rest position
  have decoded := (formatDecode_qualifier atLetter.decoding).trans
    (decodeQualifier_letter directive.conversion rest _)
  have unqualified : Unqualified middle.fmt middle.spec := by
    intro c rest' spec' isQualifier
    rw [atLetter.decoding] at isQualifier
    cases isQualifier
    exact plain
  have turn := Reads.turn atLetter.notEnd (Directive.supportedTurn supported
    atLetter.ap unqualified decoded) decoded
      (directive.conversion.spec_noCount _) (Reads.done _)
  have renders := Directive.renders_token supported atLetter.ap rest r.spec
  have done := directive.conversion.spec_notPending
    (directive.head.spec args r.ap r.spec)
  rw [List.append_nil] at turn
  refine ⟨_, _, atLetter.reads.trans turn, renders, takeArguments_fmt args _,
    Directive.takes rest r.spec atLetter.ap, ?_⟩
  unfold NotPending
  rw [takeArguments_type]
  exact done

/-! ## A whole format -/

section Format

variable {args : Arguments}

theorem Reads.segments {ap : Nat} {segments : List Segment}
    (supported : SupportedSegments args ap segments) {r : Reading}
    {rest : List Byte} (argument : r.ap = ap) (notPending : NotPending r.spec)
    (position : r.fmt = segments.flatMap Segment.chars ++ rest) :
    ∃ r' text, Reads args r text r' ∧ RendersSegments args ap segments text ∧
      r'.fmt = rest ∧ r'.ap = ap + argumentsTaken segments ∧
      NotPending r'.spec := by
  induction supported generalizing r with
  | nil ap =>
      exact ⟨r, [], Reads.done r, RendersSegments.nil ap, position, argument,
        notPending⟩
  | @cons ap segment more literal directive _ inductionRest =>
      obtain ⟨tail, isTail⟩ : ∃ tail, segment.directive.chars = ch '%' :: tail :=
        ⟨_, rfl⟩
      have position : r.fmt = segment.literal ++ (segment.directive.chars ++
          (more.flatMap Segment.chars ++ rest)) := by
        rw [position, List.flatMap_cons, Segment.chars]
        simp only [List.append_assoc]
      have atLiteral := position
      rw [isTail, List.cons_append] at atLiteral
      obtain ⟨r₁, copied, position₁, argument₁, notPending₁⟩ :=
        @Reads.literal args r _ _ _ literal notPending (Or.inr rfl) atLiteral
      rw [← List.cons_append, ← isTail] at position₁
      rw [argument] at argument₁
      rw [← argument₁] at directive
      obtain ⟨r₂, text, printed, renders, position₂, argument₂, notPending₂⟩ :=
        Reads.directive directive notPending₁ position₁
      rw [argument₁] at renders argument₂
      obtain ⟨r', later, readLater, rendersLater, position', argument',
        notPending'⟩ := inductionRest argument₂ notPending₂ position₂
      refine ⟨r', _, copied.trans (printed.trans readLater),
        RendersSegments.cons renders rendersLater, position', ?_, notPending'⟩
      rw [argument', argumentsTaken, argumentsTaken, List.map_cons,
        List.sum_cons, Nat.add_assoc]

/-- The loop supports the format, and its text is the one the format stands
for. -/
theorem Format.formatText {format : Format} (supported : format.Supported args)
    (num : BitVec 64) :
    (SupportedFormat args num format.chars ∧ NoCount args num format.chars) ∧
      format.Renders args (formatText args num format.chars) := by
  obtain ⟨r₁, text, reads, renders, position, _, notPending⟩ :=
    @Reads.segments args 0 format.segments supported.segments
      (startReading format.chars num) _ rfl
      notPending_zero rfl
  obtain ⟨r', copied, atEnd, _, _⟩ :=
    Reads.literal supported.last notPending (Or.inl rfl) position
  have whole := reads.trans copied
  have ended : r'.fmt.head? = some 0 := by
    rw [atEnd]
    rfl
  have terminated : (0 : Byte) ∈ format.chars := by
    simp [Format.chars]
  refine ⟨whole.supported ended, text, renders, ?_⟩
  exact whole.remainingText ended terminated (Nat.lt_succ_self _)

/-- A format stands for its literal parts and the texts of its directives, each
of which takes its own arguments: this is what `vsnprintf` leaves. -/
theorem vsnprintf_renders {format : Format} (supported : format.Supported args)
    (num : BitVec 64) :
    ∃ text, format.Renders args text ∧
      ∀ buf size before, size.toNat < 2 ^ 31 →
        buf.toNat + text.length + 1 < 2 ^ 32 →
        ∃ result, vsnprintf args num buf size format.chars before =
          some result ∧ Leaves buf size text before result ∧
            result.counts = [] := by
  obtain ⟨⟨isSupported, noCount⟩, renders⟩ := Format.formatText supported num
  have terminated : (0 : Byte) ∈ format.chars := by
    simp [Format.chars]
  refine ⟨_, renders, fun buf size before small fits => ?_⟩
  obtain ⟨result, run, leaves, noCounts⟩ :=
    vsnprintf_leaves terminated isSupported small fits
  exact ⟨result, run, leaves, noCounts noCount⟩

end Format

/-- `n=%d %-*s%%` and a line feed. -/
def exampleFormat : Format where
  segments := [
    ⟨[ch 'n', ch '='], ⟨plainHead, .int .d⟩⟩,
    ⟨[ch ' '], ⟨⟨[.left], .star, .absent⟩, .str⟩⟩,
    ⟨[], ⟨plainHead, .percent⟩⟩]
  last := [0x0A]

theorem vsnprintf_renders_example :
    ∃ text, exampleFormat.Renders ⟨fun _ => 7, fun _ => 0⟩ text ∧
      ∀ buf size before, size.toNat < 2 ^ 31 →
        buf.toNat + text.length + 1 < 2 ^ 32 →
        ∃ result, vsnprintf ⟨fun _ => 7, fun _ => 0⟩ 0 buf size
          exampleFormat.chars before = some result ∧
            Leaves buf size text before result ∧ result.counts = [] := by
  have kept : PrecisionKept ⟨fun _ => 7, fun _ => 0⟩ 0 plainHead .d :=
    le_max_of_le_left (by decide)
  have isNull : IsString (stringSource (fun _ => 0) 7) nullText :=
    ⟨by decide, by decide, by decide⟩
  apply vsnprintf_renders
  refine ⟨.cons ⟨by decide, by decide, by decide⟩ ⟨by decide, by decide, ?_, ?_⟩
    (.cons ⟨by decide, by decide, by decide⟩ ⟨by decide, by decide, ?_, ?_⟩
      (.cons ⟨by decide, by decide, by decide⟩ ⟨by decide, by decide, ?_, ?_⟩
        (.nil _))), ⟨by decide, by decide, by decide⟩⟩
  · intro conversion isInt _
    cases isInt
    exact ⟨by decide, kept⟩
  · intro isStr
    cases isStr
  · intro conversion isInt
    cases isInt
  · intro _
    exact ⟨trivial, nullText, by decide, isNull⟩
  · intro conversion isInt
    cases isInt
  · intro isStr
    cases isStr

end Hlos.Libs
