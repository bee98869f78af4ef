import Hlos.Libs.Truncation

/-!
# Characters and strings in a field

`%c` and `%s` print their argument with spaces on one side of it, as many as
the width wants.  A string ends at its zero or at the precision, and the null
pointer stands for a text of its own.
-/

namespace Hlos.Libs

open Hlos.Lib Hlos.Lib.Output Hlos.Include

/-- A text filled up to the width, on the right if it is aligned to the
left. -/
def padded (aligned : Bool) (width : Nat) (body : List Byte) : List Byte :=
  let pad := List.replicate (width - body.length) (ch ' ')
  if aligned then body ++ pad else pad ++ body

theorem padded_length (aligned : Bool) (width : Nat) (body : List Byte) :
    (padded aligned width body).length = max width body.length := by
  unfold padded
  cases aligned with
  | false =>
      simp only [Bool.false_eq_true, if_false, List.length_append,
        List.length_replicate]
      omega
  | true =>
      simp only [if_true, List.length_append, List.length_replicate]
      omega

/-- The string argument: its characters, and a zero behind them. -/
structure IsString (source : Nat → Byte) (chars : List Byte) : Prop where
  reads : ∀ (index : Nat) (inside : index < chars.length),
    source index = chars[index]
  ends : source chars.length = 0
  noZero : (0 : Byte) ∉ chars

/-! ## What a head says about a field -/

/-- A negative `*` width asks for alignment to the left. -/
def WidthText.negative (args : Arguments) (ap : Nat) : WidthText → Bool
  | star => (args.words ap).toInt < 0
  | _ => false

def DirectiveHead.aligned (head : DirectiveHead) (args : Arguments)
    (ap : Nat) : Bool :=
  decide (.left ∈ head.flags) || head.width.negative args ap

/-- Where a string is cut; a point without digits does not cut it. -/
def PrecisionText.cut (args : Arguments) (ap : Nat) (chars : List Byte) :
    PrecisionText → List Byte
  | absent => chars
  | decimal [] => chars
  | decimal (first :: more) => chars.take (decimalValue (first :: more))
  | star => chars.take (args.words ap).toInt.toNat

/-- A `*` precision is not below what sixteen bits hold. -/
def PrecisionText.Stored (args : Arguments) (ap : Nat) : PrecisionText → Prop
  | star => -32768 ≤ (args.words ap).toInt
  | _ => True

section Head

variable {args : Arguments} {ap : Nat}

theorem headFlags_left {head : DirectiveHead} {spec : PrintfSpec}
    (small : head.width.value args ap ≤ 32000) :
    (head.spec args ap spec).flags &&& LEFT ≠ 0 ↔
      head.aligned args ap = true := by
  have given := flagBits_iff .left head.flags
  change flagBits head.flags &&& LEFT ≠ 0 ↔ _ at given
  change head.width.flags args ap (flagBits head.flags) &&& LEFT ≠ 0 ↔ _
  rw [DirectiveHead.aligned, Bool.or_eq_true, decide_eq_true_iff]
  cases isWidth : head.width with
  | absent => simpa [WidthText.flags, WidthText.negative] using given
  | decimal first more significant =>
      simpa [WidthText.flags, WidthText.negative] using given
  | star =>
      rw [isWidth] at small
      change (args.words ap).toInt.natAbs ≤ 32000 at small
      have stored : ((args.words ap).setWidth 16 : BitVec 16).toInt =
          (args.words ap).toInt :=
        toInt_setWidth_16 (by omega) (by omega)
      rw [WidthText.flags, WidthText.negative, stored, decide_eq_true_iff]
      by_cases negative : (args.words ap).toInt < 0
      · have set : (flagBits head.flags ||| LEFT) &&& LEFT ≠ 0 :=
          or_and_self_ne_zero (by decide) _
        rw [if_pos negative]
        exact iff_of_true set (Or.inr negative)
      · rw [if_neg negative, or_iff_left negative]
        exact given

theorem toNat_signExtend_of_nonneg {field : BitVec 16}
    (positive : 0 ≤ field.toInt) :
    (field.signExtend 32).toNat = field.toInt.toNat := by
  have extended : (field.signExtend 32).toInt = field.toInt :=
    BitVec.toInt_signExtend_of_le (by decide)
  have bound := (field.signExtend 32).isLt
  rw [BitVec.toInt_eq_toNat_cond] at extended
  split at extended
  · omega
  · omega

/-- What `string` reads of the characters. -/
theorem PrecisionText.cut_eq {precision : PrecisionText}
    (small : precision.value args ap ≤ 32000)
    (stored : precision.Stored args ap) {chars : List Byte}
    (fits : chars.length < 2 ^ 31) :
    precision.cut args ap chars =
      chars.take ((precision.field args ap).signExtend 32).toNat := by
  have whole : chars.take ((-1 : BitVec 16).signExtend 32).toNat = chars :=
    List.take_of_length_le (by
      change chars.length ≤ 4294967295
      omega)
  have clamped : ∀ field : BitVec 16,
      ((clampPrecision field).signExtend 32).toNat = field.toInt.toNat := by
    intro field
    have value := clampPrecision_toInt field
    rw [toNat_signExtend_of_nonneg (by omega)]
    omega
  cases precision with
  | absent => exact whole.symm
  | decimal digits =>
      cases digits with
      | nil => exact whole.symm
      | cons first more =>
          change decimalValue (first :: more) ≤ 32000 at small
          have count := toInt_decimalCount small
          change chars.take (decimalValue (first :: more)) = _
          rw [PrecisionText.field, clamped, count, Int.toNat_natCast]
  | star =>
      change (args.words ap).toInt.toNat ≤ 32000 at small
      change -32768 ≤ (args.words ap).toInt at stored
      have count : ((args.words ap).setWidth 16 : BitVec 16).toInt =
          (args.words ap).toInt :=
        toInt_setWidth_16 stored (by omega)
      change chars.take (args.words ap).toInt.toNat = _
      rw [PrecisionText.field, clamped, count]

end Head

/-! ## Padding on one side -/

section Pads

variable {again : BitVec 16 → Bool} {bound : Nat} {width : BitVec 16}

/-- The loop counts the width down to a bound. -/
def CountsTo (again : BitVec 16 → Bool) (bound : Nat) : Prop :=
  ∀ width : BitVec 16, -32768 < width.toInt →
    Repeats again width (width.toInt - bound).toNat

theorem charWidthLeft_countsTo : CountsTo charWidthLeft 1 :=
  fun _ low => repeats_precisionLeft low 1

theorem shorterThan_countsTo {len : Word} {length : Nat}
    (isLength : len.toInt = length) : CountsTo (shorterThan len) length := by
  intro width low
  have high := @BitVec.toInt_lt 16 width
  have step : ∀ turn : Nat, turn ≤ (width.toInt - length).toNat →
      (width - BitVec.ofNat 16 turn).toInt = width.toInt - turn :=
    fun turn below => toInt_sub_ofNat (by omega)
  constructor
  · change _ < 65536
    omega
  · intro turn below
    apply decide_eq_true
    rw [step turn (Nat.le_of_lt below), isLength]
    omega
  · apply decide_eq_false
    rw [step _ (Nat.le_refl _), isLength]
    omega

/-- One of the two loops fills up the width. -/
theorem CountsTo.pads (counts : CountsTo again bound)
    (low : -32766 < width.toInt) (aligned : Bool) :
    ∃ lead trail left left', PadRun again width (!aligned) lead left ∧
      PadRun again left true trail left' ∧
      lead + trail = (width.toInt - bound).toNat ∧
      (if aligned then lead = 0 else trail = 0) := by
  cases aligned with
  | true =>
      exact ⟨0, _, _, _, PadRun.skips, PadRun.pads (counts width (by omega)),
        Nat.zero_add _, rfl⟩
  | false =>
      have high := @BitVec.toInt_lt 16 width
      have rest : (width - BitVec.ofNat 16 (width.toInt - bound).toNat - 1).toInt =
          width.toInt - (width.toInt - bound).toNat - 1 := by
        have first : (width -
            BitVec.ofNat 16 (width.toInt - bound).toNat).toInt =
              width.toInt - (width.toInt - bound).toNat :=
          toInt_sub_ofNat (by omega)
        rw [toInt_sub_one (by omega), first]
      have done := counts _ (by rw [rest]; omega)
      have none : ((width - BitVec.ofNat 16 (width.toInt - bound).toNat -
          1).toInt - bound).toNat = 0 := by
        rw [rest]
        omega
      exact ⟨_, _, _, _, PadRun.pads (counts width (by omega)),
        PadRun.pads done, by rw [none, Nat.add_zero], none⟩

end Pads

/-! ## The two conversions -/

section Conversions

variable {args : Arguments} {ap : Nat} {head : DirectiveHead}
  {spec : PrintfSpec}

/-- The fields of a directive that is aligned in this way. -/
structure InField (spec : PrintfSpec) (aligned : Bool) (width : Nat) :
    Prop where
  aligned : spec.flags &&& LEFT ≠ 0 ↔ aligned = true
  width : spec.fieldWidth.toInt = width ∨
    (spec.fieldWidth.toInt = -1 ∧ width = 0)

/-- What the loops around a text print. -/
theorem InField.pads {aligned : Bool} {width : Nat}
    (inField : InField spec aligned width) {again : BitVec 16 → Bool}
    {body : List Byte} (counts : CountsTo again body.length) :
    ∃ lead trail left left',
      PadRun again spec.fieldWidth (spec.flags &&& LEFT = 0) lead left ∧
      PadRun again left true trail left' ∧
      List.replicate lead (ch ' ') ++ (body ++ List.replicate trail (ch ' ')) =
        padded aligned width body := by
  have isWidth := inField.width
  obtain ⟨lead, trail, left, left', leadRun, trailRun, total, oneSide⟩ :=
    @CountsTo.pads again body.length spec.fieldWidth counts (by omega) aligned
  have flag : decide (spec.flags &&& LEFT = 0) = !aligned := by
    cases aligned with
    | true => exact decide_eq_false (inField.aligned.mpr rfl)
    | false =>
        apply decide_eq_true
        exact Decidable.not_not.mp (mt inField.aligned.mp (by decide))
  rw [← flag] at leadRun
  refine ⟨lead, trail, left, left', leadRun, trailRun, ?_⟩
  have count : lead + trail = width - body.length := by omega
  unfold padded
  cases aligned with
  | true =>
      have none : lead = 0 := oneSide
      rw [if_pos rfl, ← count, none, Nat.zero_add]
      rfl
  | false =>
      have none : trail = 0 := oneSide
      rw [if_neg (by decide), ← count, none, Nat.add_zero]
      simp

theorem InField.printChar {aligned : Bool} {width : Nat}
    (inField : InField spec aligned width) (arg : Word) :
    Prints (fun limit => printChar limit arg spec)
      (padded aligned width [arg.setWidth 8]) := by
  obtain ⟨lead, trail, left, left', leadRun, trailRun, isPadded⟩ :=
    @InField.pads spec aligned width inField _ [arg.setWidth 8]
      charWidthLeft_countsTo
  intro limit o
  change (padIf _ _ _ _ _ _).bind _ = _
  rw [leadRun.eq]
  change (padIf _ _ _ _ left _).bind _ = _
  rw [trailRun.eq, ← isPadded, emitAll_append]
  rfl

theorem strnlen_isString {source : Nat → Byte} {chars : List Byte}
    (isString : IsString source chars) (count : Nat) :
    strnlen source count = min chars.length count := by
  induction chars generalizing source count with
  | nil =>
      cases count with
      | zero => rfl
      | succ count =>
          have ends : source 0 = 0 := isString.ends
          rw [strnlen, if_pos ends]
          exact (Nat.zero_min _).symm
  | cons c chars inductionRest =>
      cases count with
      | zero => rfl
      | succ count =>
          have first : source 0 = c := isString.reads 0 (by simp)
          have nonzero : source 0 ≠ 0 := by
            rw [first]
            exact fun zero => isString.noZero (zero ▸ List.mem_cons_self)
          have later : IsString (fun index => source (index + 1)) chars :=
            ⟨fun index inside => isString.reads (index + 1)
                (Nat.succ_lt_succ inside),
              isString.ends,
              fun member => isString.noZero (List.mem_cons_of_mem c member)⟩
          rw [strnlen, if_neg nonzero, inductionRest later, List.length_cons]
          omega

/-- A string has its characters only. -/
theorem IsString.unique {source : Nat → Byte} {chars chars' : List Byte}
    (isString : IsString source chars) (isString' : IsString source chars') :
    chars = chars' := by
  have first := strnlen_isString isString (chars.length + chars'.length)
  have second := strnlen_isString isString' (chars.length + chars'.length)
  apply List.ext_getElem
  · omega
  · intro index inside inside'
    rw [← isString.reads index inside, ← isString'.reads index inside']

theorem InField.string {aligned : Bool} {width : Nat}
    (inField : InField spec aligned width) {bytes : Nat → Byte} {s : Word}
    {chars : List Byte} (isString : IsString (stringSource bytes s) chars)
    (fits : chars.length < 2 ^ 31) :
    Prints (fun limit => string limit bytes s spec)
      (padded aligned width
        (chars.take (spec.precision.signExtend 32).toNat)) := by
  have isLength := strnlen_isString isString
    (spec.precision.signExtend 32).toNat
  have length : (chars.take (spec.precision.signExtend 32).toNat).length =
      min chars.length (spec.precision.signExtend 32).toNat := by
    rw [List.length_take, Nat.min_comm]
  have isInt : (BitVec.ofNat 32
      (min chars.length (spec.precision.signExtend 32).toNat)).toInt =
        (chars.take (spec.precision.signExtend 32).toNat).length := by
    rw [length, BitVec.toInt_eq_toNat_of_lt]
    · rw [BitVec.toNat_ofNat]
      omega
    · rw [BitVec.toNat_ofNat]
      omega
  have read : (List.range' 0
      (chars.take (spec.precision.signExtend 32).toNat).length).map
        (stringSource bytes s) =
          chars.take (spec.precision.signExtend 32).toNat := by
    apply List.ext_getElem
    · rw [List.length_map, List.length_range']
    · intro index _ inside
      rw [List.length_take] at inside
      rw [List.getElem_map, List.getElem_range', List.getElem_take]
      simpa using isString.reads index (by omega)
  obtain ⟨lead, trail, left, left', leadRun, trailRun, isPadded⟩ :=
    @InField.pads spec aligned width inField _ _ (shorterThan_countsTo isInt)
  intro limit o
  change (padIf _ (shorterThan (BitVec.ofNat 32 (strnlen _ _))) _ _ _ _).bind
    _ = _
  rw [isLength, leadRun.eq]
  change (padIf _ _ _ _ left (stringLoop _ _ _ _ _)).bind _ = _
  rw [isInt, Int.toNat_natCast, stringLoop_eq, read, trailRun.eq, ← isPadded,
    emitAll_append, emitAll_append]
  rfl

end Conversions

end Hlos.Libs
