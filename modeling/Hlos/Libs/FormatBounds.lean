import Hlos.Libs.FormatText

/-!
# Reading inside the format

Whether `format_decode` stays inside the string.  Behind a single `h` or `l` it
goes on by a character without looking whether the string ends there.
-/

namespace Hlos.Libs

open Hlos.Lib Hlos.Include

/-- What is left of a directive ends the string with a single qualifier. -/
inductive CutShort : PrintfSpec → List Byte → Prop where
  | directive {spec : PrintfSpec} {head : DirectiveHead} {c : Byte} :
      NotPending spec → head.stars = 0 → Single c →
      CutShort spec (head.text ++ [c, 0])
  | width {spec : PrintfSpec} {precision : PrecisionText} {c : Byte} :
      spec.type = .width → precision.stars = 0 → Single c →
      CutShort spec (precision.text ++ [c, 0])
  | precision {spec : PrintfSpec} {c : Byte} :
      spec.type = .precision → Single c → CutShort spec [c, 0]

/-! ## The text before a qualifier -/

theorem exists_flag_of_step {c bits bits' : Byte}
    (step : flagStep c bits = some bits') : ∃ flag, c = Flag.char flag := by
  by_contra notFlag
  rw [flagStep_eq_none (not_exists.mp notFlag)] at step
  cases step

theorem exists_flags_of_accepts {taken : List Byte} {bits bits' : Byte}
    (accepted : Accepts flagStep taken bits bits') :
    ∃ flags : List Flag, taken = flags.map Flag.char := by
  induction accepted with
  | nil => exact ⟨[], rfl⟩
  | cons step _ inductionRest =>
      rcases exists_flag_of_step step with ⟨flag, rfl⟩
      rcases inductionRest with ⟨flags, rfl⟩
      exact ⟨flag :: flags, rfl⟩

theorem exists_digit_of_isdigit {c : Byte} (digit : isdigit c = true) :
    ∃ value, c = digitChar value := by
  have range : 0x30 ≤ c.toNat ∧ c.toNat ≤ 0x39 := of_decide_eq_true digit
  refine ⟨⟨c.toNat - 0x30, by omega⟩, BitVec.eq_of_toNat_eq ?_⟩
  have sum : 0x30 + (c.toNat - 0x30) = c.toNat := by omega
  rw [digitChar, sum, BitVec.toNat_ofNat, Nat.mod_eq_of_lt c.isLt]

theorem exists_digits_of_accepts {taken : List Byte} {i i' : BitVec 32}
    (accepted : Accepts atoiStep taken i i') :
    ∃ digits : List (Fin 10), taken = digits.map digitChar := by
  induction accepted with
  | nil => exact ⟨[], rfl⟩
  | @cons c _ i _ _ step _ inductionRest =>
      have isDigit : isdigit c = true := by
        by_contra notDigit
        rw [atoiStep, if_neg notDigit] at step
        cases step
      rcases exists_digit_of_isdigit isDigit with ⟨digit, rfl⟩
      rcases inductionRest with ⟨digits, rfl⟩
      exact ⟨digit :: digits, rfl⟩

theorem skipAtoi_reads {fmt rest : List Byte} {i : BitVec 32}
    (run : skipAtoi fmt = some (rest, i)) :
    ∃ digits : List (Fin 10), fmt = digits.map digitChar ++ rest := by
  rcases exists_accepts_of_scan run with ⟨taken, isFmt, accepted⟩
  rcases exists_digits_of_accepts accepted with ⟨digits, rfl⟩
  exact ⟨digits, isFmt⟩

theorem decodePrecision_reads {fmt rest : List Byte} {spec spec' : PrintfSpec}
    (run : decodePrecision fmt spec = some (.qualifier rest spec')) :
    ∃ precision : PrecisionText,
      precision.stars = 0 ∧ fmt = precision.text ++ rest := by
  cases fmt with
  | nil => cases run
  | cons c behind =>
      by_cases point : c = ch '.'
      · subst point
        cases behind with
        | nil => cases run
        | cons next behind =>
            change (if isdigit next = true then
              (skipAtoi (next :: behind)).bind _
              else if next = ch '*' then _ else _) = _ at run
            by_cases digit : isdigit next = true
            · rw [if_pos digit] at run
              rcases Option.bind_eq_some_iff.mp run with
                ⟨⟨fmt', i⟩, read, result⟩
              cases result
              rcases skipAtoi_reads read with ⟨digits, isFmt⟩
              exact ⟨.decimal digits, rfl, congrArg (ch '.' :: ·) isFmt⟩
            rw [if_neg digit] at run
            by_cases star : next = ch '*'
            · rw [if_pos star] at run
              cases run
            · rw [if_neg star] at run
              cases run
              exact ⟨.decimal [], rfl, rfl⟩
      · rw [decodePrecision_absent point] at run
        cases run
        exact ⟨.absent, rfl, rfl⟩

/-- The zero of a number in front of the width has been read as a flag. -/
theorem decodeWidth_reads {fmt rest : List Byte} {spec spec' : PrintfSpec}
    (notZero : fmt.head? ≠ some (ch '0'))
    (run : decodeWidth fmt spec = some (.qualifier rest spec')) :
    ∃ (width : WidthText) (precision : PrecisionText),
      width.stars + precision.stars = 0 ∧
      fmt = width.text ++ (precision.text ++ rest) := by
  cases fmt with
  | nil => cases run
  | cons c behind =>
      rw [decodeWidth] at run
      by_cases digit : isdigit c = true
      · rw [if_pos digit] at run
        rcases Option.bind_eq_some_iff.mp run with ⟨⟨fmt', i⟩, read, result⟩
        rcases decodePrecision_reads result with ⟨precision, noStar, isRest⟩
        rcases skipAtoi_reads read with ⟨digits, isFmt⟩
        cases digits with
        | nil =>
            have same : fmt' = c :: behind := isFmt.symm
            rw [same] at read
            have refused := refused_of_scan read
            rw [atoiStep, if_pos digit] at refused
            cases refused
        | cons first more =>
            have significant : first ≠ 0 := by
              rintro rfl
              rw [isFmt] at notZero
              exact notZero rfl
            refine ⟨.decimal first more significant, precision,
              (Nat.zero_add _).trans noStar, ?_⟩
            rw [isFmt, isRest]
            rfl
      rw [if_neg digit] at run
      by_cases star : c = ch '*'
      · rw [if_pos star] at run
        cases run
      · rw [if_neg star] at run
        rcases decodePrecision_reads run with ⟨precision, noStar, isFmt⟩
        exact ⟨.absent, precision, (Nat.zero_add _).trans noStar, isFmt⟩

theorem decodeToken_reads {fmt rest : List Byte} {spec spec' : PrintfSpec}
    (run : decodeToken fmt spec = some (.qualifier rest spec')) :
    ∃ head : DirectiveHead, head.stars = 0 ∧ fmt = head.text ++ rest := by
  rcases Option.bind_eq_some_iff.mp run with ⟨⟨here, _⟩, literal, result⟩
  cases here with
  | nil => cases result
  | cons c directive =>
      change (if (c :: directive).length ≠ fmt.length ∨ c = 0 then _
        else (scan flagStep directive 0).bind _) = _ at result
      by_cases text : (c :: directive).length ≠ fmt.length ∨ c = 0
      · rw [if_pos text] at result
        cases result
      rw [if_neg text] at result
      rcases Option.bind_eq_some_iff.mp result with
        ⟨⟨behind, flags⟩, read, width⟩
      have percent : c = ch '%' := by
        by_contra other
        have refused := refused_of_scan literal
        rw [literalStep, if_neg fun either =>
          either.elim (fun zero => text (Or.inr zero)) other] at refused
        cases refused
      have whole : fmt = c :: directive := by
        rcases exists_accepts_of_scan literal with ⟨taken, isFmt, _⟩
        have same : (c :: directive).length = fmt.length :=
          not_not.mp fun different => text (Or.inl different)
        exact ((isFmt ▸ List.suffix_append taken _ :
          c :: directive <:+ fmt).eq_of_length same).symm
      rcases exists_accepts_of_scan read with ⟨taken, isDirective, accepted⟩
      rcases exists_flags_of_accepts accepted with ⟨flagList, rfl⟩
      have notZero : behind.head? ≠ some (ch '0') := by
        intro zero
        cases behind with
        | nil => cases zero
        | cons next tail =>
            cases zero
            cases refused_of_scan read
      rcases decodeWidth_reads notZero width with
        ⟨width, precision, noStar, isBehind⟩
      refine ⟨⟨flagList, width, precision⟩, noStar, ?_⟩
      rw [whole, percent, isDirective, isBehind, DirectiveHead.text]
      simp only [List.cons_append, List.append_assoc]

/-! ## A string that is cut short -/

theorem cutShort_of_decoded {fmt : List Byte} {spec spec' : PrintfSpec}
    {c : Byte} (single : Single c)
    (run : decodeToQualifier fmt spec = some (.qualifier [c, 0] spec')) :
    CutShort spec fmt := by
  by_cases width : spec.type = .width
  · rw [decodeToQualifier_width width] at run
    rcases decodePrecision_reads run with ⟨precision, noStar, rfl⟩
    exact CutShort.width width noStar single
  by_cases precision : spec.type = .precision
  · rw [decodeToQualifier, if_neg width, if_pos precision] at run
    cases run
    exact CutShort.precision precision single
  · rw [decodeToQualifier_notPending ⟨width, precision⟩] at run
    rcases decodeToken_reads run with ⟨head, noStar, rfl⟩
    exact CutShort.directive ⟨width, precision⟩ noStar single

theorem Single.endsHead {c : Byte} (single : Single c) : EndsHead c := by
  cases single with
  | inl h => rw [h]; exact endsHead_of_letter (by decide)
  | inr l => rw [l]; exact endsHead_of_letter (by decide)

theorem CutShort.decoded {fmt : List Byte} {spec : PrintfSpec}
    (cut : CutShort spec fmt) :
    ∃ c spec', Single c ∧
      decodeToQualifier fmt spec = some (.qualifier [c, 0] spec') := by
  let s : PrintState := ⟨fmt, 0, spec, 0, ⟨0, ⟨fun _ => 0, []⟩⟩, []⟩
  let args : Arguments := ⟨fun _ => 0, fun _ => 0⟩
  cases cut with
  | @directive head c notPending noStar single =>
      rcases @head_read args 0 0 s notPending head c single.endsHead [0] rfl
        with ⟨s', turns, _, decoded⟩
      rw [noStar] at turns
      cases turns
      exact ⟨c, _, single, decoded⟩
  | @width precision c isWidth noStar single =>
      rcases @precision_read args 0 0 s precision c single.endsHead [0] _ rfl
        (decodeToQualifier_width isWidth _) with ⟨s', turns, _, decoded⟩
      rw [noStar] at turns
      cases turns
      exact ⟨c, _, single, decoded⟩
  | @precision c isPrecision single =>
      have notWidth : spec.type ≠ .width := by
        rw [isPrecision]
        decide
      exact ⟨c, _, single, (if_neg notWidth).trans (if_pos isPrecision)⟩

theorem CutShort.suffix {fmt : List Byte} {spec : PrintfSpec}
    (cut : CutShort spec fmt) : ∃ c, Single c ∧ [c, 0] <:+ fmt := by
  cases cut with
  | directive _ _ single => exact ⟨_, single, List.suffix_append _ _⟩
  | width _ _ single => exact ⟨_, single, List.suffix_append _ _⟩
  | precision _ single => exact ⟨_, single, List.suffix_refl _⟩

theorem Single.ne_zero {c : Byte} (single : Single c) : c ≠ 0 := by
  rintro rfl
  exact absurd single.isQualifier (by decide)

theorem CutShort.head?_ne {fmt : List Byte} {spec : PrintfSpec}
    (cut : CutShort spec fmt) : fmt.head? ≠ some 0 := by
  intro zero
  cases cut with
  | directive _ _ _ => exact absurd (Option.some.inj zero) (by decide)
  | @width precision c _ _ single =>
      cases precision with
      | absent => exact single.ne_zero (Option.some.inj zero)
      | decimal _ | star => exact absurd (Option.some.inj zero) (by decide)
  | precision _ single => exact single.ne_zero (Option.some.inj zero)

/-- The call reads behind the end of the string. -/
theorem CutShort.formatDecode_eq_none {fmt : List Byte} {spec : PrintfSpec}
    (cut : CutShort spec fmt) : formatDecode fmt spec = none := by
  rcases cut.decoded with ⟨c, spec', single, decoded⟩
  rw [formatDecode_qualifier decoded]
  cases single with
  | inl h => rw [h]; rfl
  | inr l => rw [l]; rfl

/-- Behind the only zero the string has ended. -/
theorem eq_nil_of_zero_suffix {text rest : List Byte}
    (noZero : (0 : Byte) ∉ text) (suffix : 0 :: rest <:+ text ++ [0]) :
    rest = [] := by
  rcases suffix with ⟨before, whole⟩
  cases List.eq_nil_or_concat rest with
  | inl empty => exact empty
  | inr more =>
      rcases more with ⟨init, last, rfl⟩
      rw [List.concat_eq_append, ← List.cons_append,
        ← List.append_assoc] at whole
      have isText := (List.append_inj' whole rfl).1
      rw [← isText] at noZero
      exact absurd (List.mem_append_right _ List.mem_cons_self) noZero

/-- A call that is not cut short stays inside the string, and makes progress
or resumes a directive. -/
theorem formatDecode_inside {text fmt : List Byte} {spec : PrintfSpec}
    (noZero : (0 : Byte) ∉ text) (remains : Remains (text ++ [0]) fmt)
    (notEnd : fmt.head? ≠ some 0) (uncut : ¬ CutShort spec fmt) :
    ∃ fmt' spec', formatDecode fmt spec = some (fmt', spec') ∧
      Remains fmt fmt' ∧ turnsLeft fmt' spec' < turnsLeft fmt spec := by
  have followed : ∀ c next rest spec', decodeToQualifier fmt spec =
      some (.qualifier (c :: next :: rest) spec') → Single c → next ≠ 0 := by
    rintro c next rest spec' decoded single rfl
    have advances :=
      decodeToQualifier_advances remains.terminated notEnd spec
    rw [decoded] at advances
    cases advances with
    | qualifier position _ =>
        have suffix := (List.suffix_cons c (0 :: rest)).trans
          (remains.trans position).suffix
        rw [eq_nil_of_zero_suffix noZero suffix] at decoded
        exact uncut (cutShort_of_decoded single decoded)
  rcases formatDecode_advances remains.terminated notEnd followed with
    ⟨fmt', spec', run, position, fewer, _⟩
  exact ⟨fmt', spec', run, position, fewer⟩

/-! ## The loop -/

section Loop

variable {args : Arguments} {num : BitVec 64} {buf limit : Word}

/-- A turn of `vsnprintf` reads the format and the arguments as the turn
without the output does. -/
theorem vsnTurn_reads {r : Reading} {out : Output}
    {counts : List (Word × Word)} {s : PrintState}
    (turn : vsnTurn args buf limit (r.state out counts) = some s) :
    ∃ r' out' counts', readTurn args r = some r' ∧
      s = r'.state out' counts' := by
  cases decoded : formatDecode r.fmt r.spec with
  | none =>
      change (formatDecode r.fmt r.spec).bind _ = _ at turn
      rw [decoded] at turn
      cases turn
  | some result =>
      rcases result with ⟨fmt, spec⟩
      have read : readTurn args r =
          some (takeArguments args { r with fmt := fmt, spec := spec }) := by
        rw [readTurn, decoded]
        rfl
      rcases FormatType.kinds spec.type with
        integer | plain | isNone | isChar | isStr
      · rw [@vsnTurn_integer args buf limit (r.state out counts) fmt spec
          decoded integer] at turn
        rw [takeArguments_integer integer] at read
        rcases Option.map_eq_some_iff.mp turn with ⟨out', _, rfl⟩
        exact ⟨_, out', counts, read, rfl⟩
      · rcases @vsnTurn_plain args buf limit r fmt spec out decoded plain counts
          with ⟨counts', -, run⟩
        rw [run] at turn
        cases turn
        exact ⟨_, _, counts', read, rfl⟩
      · rw [@vsnTurn_none args buf limit fmt spec (r.state out counts) decoded
          isNone] at turn
        rw [takeArguments_none isNone] at read
        rcases Option.map_eq_some_iff.mp turn with ⟨out', _, rfl⟩
        exact ⟨_, out', counts, read, rfl⟩
      · rw [@vsnTurn_char args buf limit fmt spec (r.state out counts) decoded
          isChar] at turn
        rw [takeArguments_word (Or.inl isChar)] at read
        rcases Option.map_eq_some_iff.mp turn with ⟨out', _, rfl⟩
        exact ⟨_, out', counts, read, rfl⟩
      · rw [@vsnTurn_str args buf limit fmt spec (r.state out counts) decoded
          isStr] at turn
        rw [takeArguments_word (Or.inr isStr)] at read
        rcases Option.map_eq_some_iff.mp turn with ⟨out', _, rfl⟩
        exact ⟨_, out', counts, read, rfl⟩

/-- The loop of `vsnprintf` ends where a run over the format is at the end of
the string. -/
theorem vsnLoop_reads {fmt : List Byte} {r : Reading} {out : Output}
    {counts : List (Word × Word)} {fuel : Nat} {s : PrintState}
    (reached : (formatMachine args).Reaches (startReading fmt num) r)
    (run : vsnLoop args buf limit fuel (r.state out counts) = some s) :
    ∃ r', (formatMachine args).Reaches (startReading fmt num) r' ∧
      s.fmt = r'.fmt ∧ r'.fmt.head? = some 0 := by
  induction fuel generalizing r out counts with
  | zero => cases run
  | succ fuel inductionHypothesis =>
      by_cases ended : r.fmt.head? = some 0
      · rw [@vsnLoop_ended args buf limit (r.state out counts) ended] at run
        cases run
        exact ⟨r, reached, rfl, ended⟩
      · by_cases empty : r.fmt = []
        · have noCharacter : (r.state out counts).fmt = [] := empty
          rw [vsnLoop, noCharacter] at run
          cases run
        rw [@vsnLoop_turn args buf limit (r.state out counts) fuel ended empty]
          at run
        rcases Option.bind_eq_some_iff.mp run with ⟨s', turn, later⟩
        rcases vsnTurn_reads turn with ⟨r', out', counts', read, rfl⟩
        exact inductionHypothesis
          (@Machine.Reaches.step _ _ _ _ _ _ () reached ended read) later

/-- Every call of `format_decode` reads inside the string, and makes progress
or resumes a directive that waited for an argument, and the loop ends exactly
at the end of the string. -/
structure ReadsInside (args : Arguments) (num : BitVec 64)
    (fmt : List Byte) : Prop where
  position : ∀ r, (formatMachine args).Reaches (startReading fmt num) r →
    Remains fmt r.fmt
  call : ∀ r, (formatMachine args).Reaches (startReading fmt num) r →
    r.fmt.head? ≠ some 0 →
      ∃ fmt' spec', formatDecode r.fmt r.spec = some (fmt', spec') ∧
        Remains r.fmt fmt' ∧ (fmt'.length < r.fmt.length ∨
          ¬ NotPending r.spec ∧ NotPending spec')
  ends : ∃ r, (formatMachine args).Reaches (startReading fmt num) r ∧
    r.fmt = [0]
  loop : ∀ buf limit out counts fuel s,
    vsnLoop args buf limit fuel ((startReading fmt num).state out counts) =
      some s → s.fmt = [0]

theorem notPending_iff (spec : PrintfSpec) :
    NotPending spec ↔ pending spec = 0 := by
  rw [pending, NotPending, ← not_or]
  constructor
  · exact fun notPending => if_neg notPending
  · intro zero isPending
    rw [if_pos isPending] at zero
    cases zero

variable {text : List Byte}

/-- The loop does not reach a place where the string is cut short. -/
def NeverCutShort (args : Arguments) (num : BitVec 64) (fmt : List Byte) :
    Prop :=
  ∀ r, (formatMachine args).Reaches (startReading fmt num) r →
    ¬ CutShort r.spec r.fmt

/-- A turn that is not cut short. -/
theorem readTurn_inside {r : Reading} (noZero : (0 : Byte) ∉ text)
    (remains : Remains (text ++ [0]) r.fmt) (notEnd : r.fmt.head? ≠ some 0)
    (uncut : ¬ CutShort r.spec r.fmt) :
    ∃ next, readTurn args r = some next ∧ Remains r.fmt next.fmt ∧
      turnsLeft next.fmt next.spec < turnsLeft r.fmt r.spec := by
  rcases formatDecode_inside noZero remains notEnd uncut with
    ⟨fmt, spec, decoded, position, fewer⟩
  refine ⟨takeArguments args { r with fmt := fmt, spec := spec }, ?_, ?_, ?_⟩
  · rw [readTurn, decoded]
    rfl
  · rw [takeArguments_fmt]
    exact position
  · rw [takeArguments_turnsLeft]
    exact fewer

theorem NeverCutShort.remains (noZero : (0 : Byte) ∉ text)
    (never : NeverCutShort args num (text ++ [0])) {r : Reading}
    (reached : (formatMachine args).Reaches
      (startReading (text ++ [0]) num) r) :
    Remains (text ++ [0]) r.fmt := by
  induction reached with
  | start =>
      exact Remains.refl (List.mem_append_right text List.mem_cons_self)
  | step earlier notEnd read inductionHypothesis =>
      rcases readTurn_inside noZero inductionHypothesis notEnd
        (never _ earlier) with ⟨next, run, further, _⟩
      rw [show readTurn args _ = _ from read] at run
      cases run
      exact inductionHypothesis.trans further

/-- As long as turns are left the run goes on, until the end of the string. -/
theorem NeverCutShort.exists_ended (noZero : (0 : Byte) ∉ text)
    (never : NeverCutShort args num (text ++ [0])) {left : Nat} {r : Reading}
    (reached : (formatMachine args).Reaches
      (startReading (text ++ [0]) num) r)
    (bound : turnsLeft r.fmt r.spec < left) :
    ∃ r', (formatMachine args).Reaches (startReading (text ++ [0]) num) r' ∧
      r'.fmt.head? = some 0 := by
  induction left generalizing r with
  | zero => cases bound
  | succ left inductionHypothesis =>
      by_cases ended : r.fmt.head? = some 0
      · exact ⟨r, reached, ended⟩
      · rcases readTurn_inside noZero (never.remains noZero reached) ended
          (never r reached) with ⟨next, read, _, fewer⟩
        exact inductionHypothesis
          (@Machine.Reaches.step _ _ _ _ _ _ () reached ended read) (by omega)

theorem eq_end_of_head {fmt : List Byte} (noZero : (0 : Byte) ∉ text)
    (remains : Remains (text ++ [0]) fmt) (ended : fmt.head? = some 0) :
    fmt = [0] := by
  cases fmt with
  | nil => cases ended
  | cons c rest =>
      cases ended
      rw [eq_nil_of_zero_suffix noZero remains.suffix]

/-- The loop reads a format inside the string exactly if it never reaches a
directive whose single `h` or `l` is the last character of the string. -/
theorem format_reads_inside_iff (args : Arguments) (num : BitVec 64)
    (noZero : (0 : Byte) ∉ text) :
    ReadsInside args num (text ++ [0]) ↔
      NeverCutShort args num (text ++ [0]) := by
  constructor
  · intro inside r reached cut
    have notEnd : r.fmt.head? ≠ some 0 := cut.head?_ne
    rcases inside.call r reached notEnd with ⟨fmt, spec, decoded, _⟩
    rw [cut.formatDecode_eq_none] at decoded
    cases decoded
  · intro never
    constructor
    · exact fun r reached => never.remains noZero reached
    · intro r reached notEnd
      rcases formatDecode_inside noZero (never.remains noZero reached) notEnd
        (never r reached) with ⟨fmt, spec, decoded, position, fewer⟩
      refine ⟨fmt, spec, decoded, position, ?_⟩
      have shorter := position.length_le
      have mark := pending_le r.spec
      rw [notPending_iff, notPending_iff]
      unfold turnsLeft at fewer
      omega
    · rcases never.exists_ended noZero .start (Nat.lt_succ_self _) with
        ⟨r, reached, ended⟩
      exact ⟨r, reached, eq_end_of_head noZero (never.remains noZero reached)
        ended⟩
    · intro buf limit out counts fuel s run
      rcases vsnLoop_reads .start run with ⟨r, reached, same, ended⟩
      rw [same]
      exact eq_end_of_head noZero (never.remains noZero reached) ended

/-- A string whose last character is not one of these letters is not cut
short. -/
theorem neverCutShort_of_last (args : Arguments) (num : BitVec 64)
    (noZero : (0 : Byte) ∉ text)
    (last : ∀ c, text.getLast? = some c → ¬ Single c) :
    NeverCutShort args num (text ++ [0]) := by
  have uncut : ∀ r : Reading, Remains (text ++ [0]) r.fmt →
      ¬ CutShort r.spec r.fmt := by
    intro r remains cut
    rcases cut.suffix with ⟨c, single, atEnd⟩
    rcases atEnd.trans remains.suffix with ⟨before, whole⟩
    have same : before ++ [c] ++ [0] = text ++ [0] := by
      rw [← whole, List.append_assoc]
      rfl
    have isText := (List.append_inj' same rfl).1
    apply last c _ single
    rw [← isText, List.getLast?_append]
    rfl
  have keeps : (formatMachine args).Keeps fun r =>
      Remains (text ++ [0]) r.fmt := by
    intro r _ remains notEnd
    rcases readTurn_inside noZero remains notEnd (uncut r remains) with
      ⟨next, read, further, _⟩
    exact ⟨next, read, remains.trans further⟩
  intro r reached
  exact uncut r (keeps.reaches
    (Remains.refl (List.mem_append_right text List.mem_cons_self)) reached)

end Loop

theorem format_reads_inside_ld :
    ReadsInside ⟨fun _ => 7, fun _ => 0⟩ 0 ([ch '%', ch 'l', ch 'd'] ++ [0]) :=
  (format_reads_inside_iff _ _ (by decide)).mpr
    (neverCutShort_of_last _ _ (by decide) (by
      intro c isLast
      cases isLast
      unfold Single
      decide))

/-- The string `%l` is read behind its end. -/
theorem format_overread :
    (0 : Byte) ∉ [ch '%', ch 'l'] ∧
      formatDecode [ch '%', ch 'l', 0] .zero = none ∧
      ¬ ReadsInside ⟨fun _ => 0, fun _ => 0⟩ 0 ([ch '%', ch 'l'] ++ [0]) := by
  refine ⟨by decide, by decide, fun inside => ?_⟩
  rcases inside.call _ .start (by decide) with ⟨fmt, spec, decoded, _⟩
  cases decoded

end Hlos.Libs
