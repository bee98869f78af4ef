import Hlos.Libs.Vsnprintf

/-!
# Directives

A directive as the documentation of `format_decode` describes it, with its
flags, its width and its precision given by digits or by an argument.  The loop
of `vsnprintf` reads it up to the qualifier, one turn for each argument.
-/

namespace Hlos.Libs

open Hlos.Lib Hlos.Include

inductive Flag where
  | left
  | plus
  | space
  | special
  | zeropad
deriving DecidableEq, Repr

def Flag.char : Flag → Byte
  | left => ch '-'
  | plus => ch '+'
  | space => ch ' '
  | special => ch '#'
  | zeropad => ch '0'

def Flag.bit : Flag → Byte
  | left => LEFT
  | plus => PLUS
  | space => SPACE
  | special => SPECIAL
  | zeropad => ZEROPAD

def digitChar (digit : Fin 10) : Byte := BitVec.ofNat 8 (0x30 + digit.val)

/-- A zero in front of the width would be a flag. -/
inductive WidthText where
  | absent
  | decimal (first : Fin 10) (more : List (Fin 10)) (significant : first ≠ 0)
  | star

/-- A point without digits is allowed. -/
inductive PrecisionText where
  | absent
  | decimal (digits : List (Fin 10))
  | star

/-- A directive up to its qualifier. -/
structure DirectiveHead where
  flags : List Flag
  width : WidthText
  precision : PrecisionText

def WidthText.text : WidthText → List Byte
  | absent => []
  | decimal first more _ => (first :: more).map digitChar
  | star => [ch '*']

def PrecisionText.text : PrecisionText → List Byte
  | absent => []
  | decimal digits => ch '.' :: digits.map digitChar
  | star => [ch '.', ch '*']

def DirectiveHead.text (head : DirectiveHead) : List Byte :=
  ch '%' :: (head.flags.map Flag.char ++
    (head.width.text ++ head.precision.text))

/-- The arguments that the width takes. -/
def WidthText.stars : WidthText → Nat
  | star => 1
  | _ => 0

def PrecisionText.stars : PrecisionText → Nat
  | star => 1
  | _ => 0

def DirectiveHead.stars (head : DirectiveHead) : Nat :=
  head.width.stars + head.precision.stars

/-- The value that digits denote. -/
def decimalValue (digits : List (Fin 10)) : Nat :=
  digits.foldl (fun value digit => value * 10 + digit.val) 0

/-! ## What a head stands for -/

/-- The field width, and zero if there is none. -/
def WidthText.value (args : Arguments) (ap : Nat) : WidthText → Nat
  | absent => 0
  | decimal first more _ => decimalValue (first :: more)
  | star => (args.words ap).toInt.natAbs

/-- The precision, and zero if there is none. -/
def PrecisionText.value (args : Arguments) (ap : Nat) : PrecisionText → Nat
  | absent => 0
  | decimal digits => decimalValue digits
  | star => (args.words ap).toInt.toNat

/-- The flags in front of the width, which may be negative. -/
def flagBits (flags : List Flag) : Byte :=
  flags.foldl (fun bits flag => bits ||| flag.bit) 0

def WidthText.field (args : Arguments) (ap : Nat) : WidthText → BitVec 16
  | absent => -1
  | decimal first more _ =>
      (BitVec.ofNat 32 (decimalValue (first :: more))).setWidth 16
  | star =>
      let width : BitVec 16 := (args.words ap).setWidth 16
      if width.toInt < 0 then -width else width

def WidthText.flags (args : Arguments) (ap : Nat) (flags : Byte) :
    WidthText → Byte
  | star =>
      if ((args.words ap).setWidth 16 : BitVec 16).toInt < 0 then flags ||| LEFT
      else flags
  | _ => flags

def clampPrecision (precision : BitVec 16) : BitVec 16 :=
  if precision.toInt < 0 then 0 else precision

def PrecisionText.field (args : Arguments) (ap : Nat) :
    PrecisionText → BitVec 16
  | absent => -1
  | decimal [] => -1
  | decimal (first :: more) =>
      clampPrecision
        ((BitVec.ofNat 32 (decimalValue (first :: more))).setWidth 16)
  | star => clampPrecision ((args.words ap).setWidth 16)

/-- The fields that a head leaves in `*spec`. -/
def DirectiveHead.spec (head : DirectiveHead) (args : Arguments) (ap : Nat)
    (spec : PrintfSpec) : PrintfSpec :=
  { spec with
    type := .none
    flags := head.width.flags args ap (flagBits head.flags)
    fieldWidth := head.width.field args ap
    precision := head.precision.field args (ap + head.width.stars) }

/-! ## Reading flags and digits -/

/-- A character that ends the head of a directive. -/
structure EndsHead (c : Byte) : Prop where
  notFlag : ∀ flags, flagStep c flags = none
  notDigit : isdigit c = false
  notStar : c ≠ ch '*'
  notPoint : c ≠ ch '.'

theorem flagStep_eq_none {c : Byte} (notFlag : ∀ flag, c ≠ Flag.char flag)
    (flags : Byte) : flagStep c flags = none := by
  have notLeft : c ≠ ch '-' := notFlag .left
  have notPlus : c ≠ ch '+' := notFlag .plus
  have notSpace : c ≠ ch ' ' := notFlag .space
  have notSpecial : c ≠ ch '#' := notFlag .special
  have notZeropad : c ≠ ch '0' := notFlag .zeropad
  rw [flagStep, if_neg notLeft, if_neg notPlus, if_neg notSpace,
    if_neg notSpecial, if_neg notZeropad]

theorem endsHead_of_letter {c : Byte} (lower : 0x40 < c.toNat) :
    EndsHead c := by
  have different : ∀ other : Byte, other.toNat ≤ 0x40 → c ≠ other := by
    intro other small same
    rw [same] at lower
    exact Nat.not_le.mpr lower small
  constructor
  · apply flagStep_eq_none
    intro flag
    exact different _ (by cases flag <;> decide)
  · apply decide_eq_false
    omega
  · exact different _ (by decide)
  · exact different _ (by decide)

theorem flagStep_char (flag : Flag) (flags : Byte) :
    flagStep flag.char flags = some (flags ||| flag.bit) := by
  cases flag <;> rfl

theorem accepts_flags (flags : List Flag) (bits : Byte) :
    Accepts flagStep (flags.map Flag.char) bits
      (flags.foldl (fun bits flag => bits ||| flag.bit) bits) := by
  induction flags generalizing bits with
  | nil => exact Accepts.nil bits
  | cons flag flags inductionRest =>
      exact Accepts.cons (flagStep_char flag bits) (inductionRest _)

theorem isdigit_digitChar : ∀ digit, isdigit (digitChar digit) = true := by
  decide

theorem digitChar_value : ∀ digit : Fin 10,
    (digitChar digit).signExtend 32 - (ch '0').signExtend 32 =
      BitVec.ofNat 32 digit.val := by
  decide

theorem digitChar_ne_flag (flag : Flag) : ∀ digit : Fin 10, digit ≠ 0 →
    digitChar digit ≠ flag.char := by
  cases flag <;> decide

theorem flagStep_digitChar (digit : Fin 10) (significant : digit ≠ 0) :
    ∀ flags, flagStep (digitChar digit) flags = none :=
  flagStep_eq_none fun flag => digitChar_ne_flag flag digit significant

theorem atoiStep_digitChar (digit : Fin 10) (value : Nat) :
    atoiStep (digitChar digit) (BitVec.ofNat 32 value) =
      some (BitVec.ofNat 32 (value * 10 + digit.val)) := by
  rw [atoiStep, if_pos (isdigit_digitChar digit), BitVec.sub_eq_add_neg,
    BitVec.add_assoc, ← BitVec.sub_eq_add_neg, digitChar_value,
    BitVec.ofNat_add, BitVec.ofNat_mul]
  rfl

theorem accepts_digits (digits : List (Fin 10)) (value : Nat) :
    Accepts atoiStep (digits.map digitChar) (BitVec.ofNat 32 value)
      (BitVec.ofNat 32
        (digits.foldl (fun value digit => value * 10 + digit.val) value)) := by
  induction digits generalizing value with
  | nil => exact Accepts.nil _
  | cons digit digits inductionRest =>
      exact Accepts.cons (atoiStep_digitChar digit value) (inductionRest _)

/-- `skip_atoi` reads the digits, modulo the size of `int`. -/
theorem skipAtoi_digits (digits : List (Fin 10)) {c : Byte}
    (notDigit : isdigit c = false) (rest : List Byte) :
    skipAtoi (digits.map digitChar ++ c :: rest) =
      some (c :: rest, BitVec.ofNat 32 (decimalValue digits)) := by
  apply scan_append rest (accepts_digits digits 0)
  rw [atoiStep, notDigit]
  rfl

/-! ## The parts of a head -/

section Head

variable {args : Arguments} {buf limit : Word} {c : Byte}

theorem decodePrecision_absent (notPoint : c ≠ ch '.') (rest : List Byte)
    (spec : PrintfSpec) :
    decodePrecision (c :: rest) spec =
      some (.qualifier (c :: rest) { spec with precision := -1 }) :=
  if_neg notPoint

theorem decodePrecision_decimal (ends : EndsHead c) (digits : List (Fin 10))
    (rest : List Byte) (spec : PrintfSpec) (ap : Nat) :
    decodePrecision ((PrecisionText.decimal digits).text ++ c :: rest) spec =
      some (.qualifier (c :: rest) { spec with
        precision := (PrecisionText.decimal digits).field args ap }) := by
  cases digits with
  | nil =>
      change (if isdigit c = true then _ else if c = ch '*' then _ else _) = _
      rw [ends.notDigit, if_neg Bool.false_ne_true, if_neg ends.notStar]
      rfl
  | cons first more =>
      have read := skipAtoi_digits (first :: more) ends.notDigit rest
      change (if isdigit (digitChar first) = true then
        (skipAtoi ((first :: more).map digitChar ++ c :: rest)).bind _
        else _) = _
      rw [if_pos (isdigit_digitChar first), read]
      rfl

theorem decodePrecision_star (rest : List Byte) (spec : PrintfSpec) :
    decodePrecision (PrecisionText.star.text ++ c :: rest) spec =
      some (.returned (c :: rest)
        { spec with precision := -1, type := .precision }) :=
  rfl

theorem decodeWidth_absent (notDigit : isdigit c = false)
    (notStar : c ≠ ch '*') (rest : List Byte) (spec : PrintfSpec) :
    decodeWidth (c :: rest) spec =
      decodePrecision (c :: rest) { spec with fieldWidth := -1 } := by
  rw [decodeWidth, notDigit]
  exact if_neg notStar

theorem decodeWidth_decimal (notDigit : isdigit c = false) (first : Fin 10)
    (more : List (Fin 10)) (rest : List Byte) (spec : PrintfSpec) :
    decodeWidth ((first :: more).map digitChar ++ c :: rest) spec =
      decodePrecision (c :: rest) { spec with
        fieldWidth :=
          (BitVec.ofNat 32 (decimalValue (first :: more))).setWidth 16 } := by
  have read := skipAtoi_digits (first :: more) notDigit rest
  change (if isdigit (digitChar first) = true then
    (skipAtoi ((first :: more).map digitChar ++ c :: rest)).bind _ else _) = _
  rw [if_pos (isdigit_digitChar first), read]
  rfl

/-- A directive begins at the position. -/
theorem decodeToken_head {flags : List Flag} {spec : PrintfSpec}
    (notFlag : ∀ flags, flagStep c flags = none) (rest : List Byte) :
    decodeToken (ch '%' :: (flags.map Flag.char ++ c :: rest)) spec =
      decodeWidth (c :: rest) { spec with
        type := .none, flags := flagBits flags } := by
  have literal : scan literalStep
      (ch '%' :: (flags.map Flag.char ++ c :: rest)) () =
        some (ch '%' :: (flags.map Flag.char ++ c :: rest), ()) := rfl
  have read := scan_append rest (accepts_flags flags 0) (notFlag _)
  have directive : ¬ ((ch '%' :: (flags.map Flag.char ++ c :: rest)).length ≠
      (ch '%' :: (flags.map Flag.char ++ c :: rest)).length ∨
        ch '%' = 0) := by
    rintro (different | zero)
    · exact different rfl
    · exact absurd zero (by decide)
  rw [decodeToken, literal]
  change (if _ then _ else (scan flagStep _ 0).bind _) = _
  rw [if_neg directive, read]
  rfl

end Head

/-! ## Turns of the loop -/

/-- So many turns of the loop. -/
def vsnTurns (args : Arguments) (buf limit : Word) :
    (turns : Nat) → PrintState → Option PrintState
  | 0, s => some s
  | turns + 1, s => do
      let s ← vsnTurn args buf limit s
      vsnTurns args buf limit turns s

section Turns

variable {args : Arguments} {buf limit : Word}

theorem vsnTurns_add {first second : Nat} {s s' : PrintState}
    (run : vsnTurns args buf limit first s = some s') :
    vsnTurns args buf limit (first + second) s =
      vsnTurns args buf limit second s' := by
  induction first generalizing s with
  | zero =>
      rw [Option.some.inj run, Nat.zero_add]
  | succ first inductionHypothesis =>
      rw [Nat.add_right_comm, vsnTurns]
      rw [vsnTurns] at run
      cases turn : vsnTurn args buf limit s with
      | none =>
          rw [turn] at run
          cases run
      | some next =>
          rw [turn] at run
          exact inductionHypothesis run

theorem formatDecode_returned {fmt fmt' : List Byte} {spec spec' : PrintfSpec}
    (decoded : decodeToQualifier fmt spec = some (.returned fmt' spec')) :
    formatDecode fmt spec = some (fmt', spec') := by
  rw [formatDecode, decoded]
  rfl

theorem formatDecode_qualifier {fmt fmt' : List Byte} {spec spec' : PrintfSpec}
    (decoded : decodeToQualifier fmt spec = some (.qualifier fmt' spec')) :
    formatDecode fmt spec = decodeQualifier fmt' spec' := by
  rw [formatDecode, decoded]
  rfl

theorem vsnTurns_one {s s' : PrintState}
    (turn : vsnTurn args buf limit s = some s') :
    vsnTurns args buf limit 1 s = some s' := by
  rw [vsnTurns, turn]
  rfl

/-- The state behind a `*`. -/
def afterStar (s : PrintState) (fmt : List Byte) (spec : PrintfSpec) :
    PrintState :=
  { s with fmt := fmt, spec := spec, ap := s.ap + 1 }

theorem vsnTurn_width {s : PrintState} {fmt : List Byte} {spec : PrintfSpec}
    (decoded : decodeToQualifier s.fmt s.spec = some (.returned fmt spec))
    (isWidth : spec.type = .width) :
    vsnTurn args buf limit s = some (afterStar s fmt
      { spec with fieldWidth := (args.words s.ap).setWidth 16 }) := by
  cases spec
  cases isWidth
  rw [vsnTurn, formatDecode_returned decoded]
  rfl

theorem vsnTurn_precision {s : PrintState} {fmt : List Byte}
    {spec : PrintfSpec}
    (decoded : decodeToQualifier s.fmt s.spec = some (.returned fmt spec))
    (isPrecision : spec.type = .precision) :
    vsnTurn args buf limit s = some (afterStar s fmt
      { spec with precision := (args.words s.ap).setWidth 16 }) := by
  cases spec
  cases isPrecision
  rw [vsnTurn, formatDecode_returned decoded]
  rfl

/-- A state in which only the format, the arguments and `spec` have moved. -/
structure OnlyRead (s s' : PrintState) (stars : Nat) : Prop where
  ap : s'.ap = s.ap + stars
  num : s'.num = s.num
  out : s'.out = s.out
  counts : s'.counts = s.counts

theorem OnlyRead.refl (s : PrintState) : OnlyRead s s 0 := ⟨rfl, rfl, rfl, rfl⟩

theorem OnlyRead.trans {s s' s'' : PrintState} {first second : Nat}
    (before : OnlyRead s s' first) (behind : OnlyRead s' s'' second) :
    OnlyRead s s'' (first + second) :=
  ⟨by rw [behind.ap, before.ap, Nat.add_assoc], behind.num.trans before.num,
    behind.out.trans before.out, behind.counts.trans before.counts⟩

theorem onlyRead_afterStar (s : PrintState) (fmt : List Byte)
    (spec : PrintfSpec) : OnlyRead s (afterStar s fmt spec) 1 :=
  ⟨rfl, rfl, rfl, rfl⟩

/-- No directive waits for an argument. -/
def NotPending (spec : PrintfSpec) : Prop :=
  spec.type ≠ .width ∧ spec.type ≠ .precision

theorem decodeToQualifier_notPending {spec : PrintfSpec}
    (notPending : NotPending spec) (fmt : List Byte) :
    decodeToQualifier fmt spec = decodeToken fmt spec := by
  rw [decodeToQualifier, if_neg notPending.1, if_neg notPending.2]

/-- The call after the width has been read. -/
theorem decodeToQualifier_width {spec : PrintfSpec}
    (isWidth : spec.type = .width) (fmt : List Byte) :
    decodeToQualifier fmt spec = decodePrecision fmt { spec with
      type := .none
      flags :=
        if spec.fieldWidth.toInt < 0 then spec.flags ||| LEFT else spec.flags
      fieldWidth :=
        if spec.fieldWidth.toInt < 0 then -spec.fieldWidth
        else spec.fieldWidth } := by
  rw [decodeToQualifier, if_pos isWidth]
  split
  · rfl
  · rfl

/-- The loop reads the flags and the width, and stands before the
precision. -/
theorem width_read {s : PrintState} (notPending : NotPending s.spec)
    (flags : List Flag) (width : WidthText) {c : Byte}
    (notFlag : ∀ flags, flagStep c flags = none)
    (notDigit : isdigit c = false) (notStar : c ≠ ch '*') (rest : List Byte)
    (position : s.fmt =
      ch '%' :: (flags.map Flag.char ++ (width.text ++ c :: rest))) :
    ∃ s', vsnTurns args buf limit width.stars s = some s' ∧
      OnlyRead s s' width.stars ∧
      decodeToQualifier s'.fmt s'.spec =
        decodePrecision (c :: rest) { s.spec with
          type := .none
          flags := width.flags args s.ap (flagBits flags)
          fieldWidth := width.field args s.ap } := by
  cases width with
  | absent =>
      refine ⟨s, rfl, OnlyRead.refl s, ?_⟩
      rw [decodeToQualifier_notPending notPending, position]
      change decodeToken (_ :: (_ ++ c :: rest)) _ = _
      rw [decodeToken_head notFlag, decodeWidth_absent notDigit notStar]
      rfl
  | decimal first more significant =>
      refine ⟨s, rfl, OnlyRead.refl s, ?_⟩
      rw [decodeToQualifier_notPending notPending, position]
      change decodeToken (_ :: (_ ++ digitChar first :: _)) _ = _
      rw [decodeToken_head (flagStep_digitChar first significant)]
      exact decodeWidth_decimal notDigit first more rest _
  | star =>
      have decoded : decodeToQualifier s.fmt s.spec =
          some (.returned (c :: rest) { s.spec with
            flags := flagBits flags, fieldWidth := -1, type := .width }) := by
        rw [decodeToQualifier_notPending notPending, position]
        change decodeToken (_ :: (_ ++ ch '*' :: c :: rest)) _ = _
        rw [decodeToken_head fun _ => rfl]
        rfl
      refine ⟨_, vsnTurns_one (vsnTurn_width decoded rfl),
        onlyRead_afterStar s _ _, ?_⟩
      rw [decodeToQualifier_width rfl]
      rfl

/-- The loop reads the precision, and stands before the qualifier. -/
theorem precision_read {s : PrintState} (precision : PrecisionText) {c : Byte}
    (ends : EndsHead c) (rest : List Byte) {spec : PrintfSpec}
    (typeNone : spec.type = .none)
    (position : decodeToQualifier s.fmt s.spec =
      decodePrecision (precision.text ++ c :: rest) spec) :
    ∃ s', vsnTurns args buf limit precision.stars s = some s' ∧
      OnlyRead s s' precision.stars ∧
      decodeToQualifier s'.fmt s'.spec =
        some (.qualifier (c :: rest)
          { spec with precision := precision.field args s.ap }) := by
  cases precision with
  | absent =>
      refine ⟨s, rfl, OnlyRead.refl s, ?_⟩
      rw [position]
      exact decodePrecision_absent ends.notPoint rest spec
  | decimal digits =>
      refine ⟨s, rfl, OnlyRead.refl s, ?_⟩
      rw [position]
      exact decodePrecision_decimal ends digits rest spec s.ap
  | star =>
      rw [decodePrecision_star] at position
      refine ⟨_, vsnTurns_one (vsnTurn_precision position rfl),
        onlyRead_afterStar s _ _, ?_⟩
      cases spec
      cases typeNone
      rfl

/-- The loop reads a head in one turn for each argument, and stands before the
qualifier. -/
theorem head_read {s : PrintState} (notPending : NotPending s.spec)
    (head : DirectiveHead) {c : Byte} (ends : EndsHead c) (rest : List Byte)
    (position : s.fmt = head.text ++ c :: rest) :
    ∃ s', vsnTurns args buf limit head.stars s = some s' ∧
      OnlyRead s s' head.stars ∧
      decodeToQualifier s'.fmt s'.spec =
        some (.qualifier (c :: rest) (head.spec args s.ap s.spec)) := by
  obtain ⟨next, tail, isNext, notFlag, notDigit, notStar⟩ :
      ∃ next tail, head.precision.text ++ c :: rest = next :: tail ∧
        (∀ flags, flagStep next flags = none) ∧ isdigit next = false ∧
        next ≠ ch '*' := by
    cases head.precision with
    | absent => exact ⟨c, rest, rfl, ends.notFlag, ends.notDigit, ends.notStar⟩
    | decimal digits =>
        exact ⟨ch '.', _, rfl, fun _ => rfl, rfl, by decide⟩
    | star => exact ⟨ch '.', _, rfl, fun _ => rfl, rfl, by decide⟩
  have start : s.fmt = ch '%' :: (head.flags.map Flag.char ++
      (head.width.text ++ next :: tail)) := by
    rw [position, ← isNext, DirectiveHead.text]
    simp only [List.cons_append, List.append_assoc]
  obtain ⟨middle, widthTurns, widthRead, atPrecision⟩ :=
    @width_read args buf limit s notPending head.flags head.width next notFlag
      notDigit notStar tail start
  rw [← isNext] at atPrecision
  obtain ⟨s', precisionTurns, precisionRead, atQualifier⟩ :=
    @precision_read args buf limit middle head.precision c ends rest _ rfl
      atPrecision
  refine ⟨s', ?_, widthRead.trans precisionRead, ?_⟩
  · rw [DirectiveHead.stars, vsnTurns_add widthTurns]
    exact precisionTurns
  · rw [atQualifier, widthRead.ap]
    rfl

end Turns

end Hlos.Libs
