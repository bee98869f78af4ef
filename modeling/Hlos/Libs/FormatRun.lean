import Hlos.Lib.Machine
import Hlos.Libs.DecimalOutput

/-!
# Runs over a format

The loop of `vsnprintf` without its output.  As long as the string does not end
behind a single qualifier, `format_decode` stays inside it, and every turn
either consumes characters or resumes a directive that waits for an argument.
-/

namespace Hlos.Libs

open Hlos.Lib Hlos.Include

/-- The local variables of the loop without the output. -/
structure Reading where
  fmt : List Byte
  ap : Nat
  spec : PrintfSpec
  num : BitVec 64

/-- The arguments that a decoded token takes. -/
def takeArguments (args : Arguments) (r : Reading) : Reading :=
  match r.spec.type with
  | .none | .ptr | .percentChar | .invalid => r
  | .width => { r with
      spec := { r.spec with fieldWidth := (args.words r.ap).setWidth 16 }
      ap := r.ap + 1 }
  | .precision => { r with
      spec := { r.spec with precision := (args.words r.ap).setWidth 16 }
      ap := r.ap + 1 }
  | .char | .str | .nrchars => { r with ap := r.ap + 1 }
  | type => { r with
      num := (fetch args type r.num r.ap).1
      ap := (fetch args type r.num r.ap).2 }

def readTurn (args : Arguments) (r : Reading) : Option Reading := do
  let (fmt, spec) ← formatDecode r.fmt r.spec
  return takeArguments args { r with fmt := fmt, spec := spec }

/-- The loop runs while it is not at the end of the string. -/
def formatMachine (args : Arguments) : Machine Reading Unit where
  legal r _ := r.fmt.head? ≠ some 0
  step r _ := readTurn args r

def startReading (fmt : List Byte) (num : BitVec 64) : Reading :=
  ⟨fmt, 0, .zero, num⟩

/-- At this position no qualifier is read. -/
def Unqualified (fmt : List Byte) (spec : PrintfSpec) : Prop :=
  ∀ c rest spec', decodeToQualifier fmt spec = some (.qualifier (c :: rest) spec') →
    isQualifier c = false

/-! ## Staying inside the string -/

/-- A later position in the string, still before its end. -/
structure Remains (fmt fmt' : List Byte) : Prop where
  suffix : fmt' <:+ fmt
  terminated : (0 : Byte) ∈ fmt'

theorem Remains.trans {fmt fmt' fmt'' : List Byte} (first : Remains fmt fmt')
    (second : Remains fmt' fmt'') : Remains fmt fmt'' :=
  ⟨second.suffix.trans first.suffix, second.terminated⟩

theorem Remains.refl {fmt : List Byte} (terminated : (0 : Byte) ∈ fmt) :
    Remains fmt fmt :=
  ⟨List.suffix_refl fmt, terminated⟩

theorem Remains.tail {c : Byte} {rest : List Byte}
    (terminated : (0 : Byte) ∈ c :: rest) (notEnd : c ≠ 0) :
    Remains (c :: rest) rest := by
  refine ⟨List.suffix_cons c rest, ?_⟩
  cases List.mem_cons.mp terminated with
  | inl same => exact absurd same.symm notEnd
  | inr later => exact later

theorem Remains.length_le {fmt fmt' : List Byte} (remains : Remains fmt fmt') :
    fmt'.length ≤ fmt.length :=
  remains.suffix.length_le

theorem skipAtoi_remains {fmt : List Byte} (terminated : (0 : Byte) ∈ fmt) :
    ∃ fmt' i, skipAtoi fmt = some (fmt', i) ∧ Remains fmt fmt' := by
  obtain ⟨fmt', i, run, suffix, kept⟩ :=
    @scan_of_mem _ _ atoiStep 0 (fun _ => rfl) fmt terminated 0
  exact ⟨fmt', i, run, suffix, kept⟩

/-- How far the code before the qualifier has come: it returns behind what it
has read, or goes on at least `gap` characters further. -/
inductive Advances (fmt : List Byte) (gap : Nat) : Option Decoding → Prop where
  | returned {fmt' : List Byte} {spec : PrintfSpec} : Remains fmt fmt' →
      fmt'.length < fmt.length → spec.type.isInteger = false →
      Advances fmt gap (some (.returned fmt' spec))
  | qualifier {fmt' : List Byte} {spec : PrintfSpec} : Remains fmt fmt' →
      fmt'.length + gap ≤ fmt.length →
      Advances fmt gap (some (.qualifier fmt' spec))

theorem Advances.later {fmt fmt' : List Byte} {gap : Nat}
    {decoding : Option Decoding} (remains : Remains fmt fmt')
    (advances : Advances fmt' 0 decoding)
    (further : fmt'.length + gap ≤ fmt.length) :
    Advances fmt gap decoding := by
  cases advances with
  | returned position shorter notInteger =>
      exact Advances.returned (remains.trans position) (by omega) notInteger
  | qualifier position _ =>
      have shorter := position.length_le
      exact Advances.qualifier (remains.trans position) (by omega)

theorem decodePrecision_advances {fmt : List Byte}
    (terminated : (0 : Byte) ∈ fmt) (spec : PrintfSpec) :
    Advances fmt 0 (decodePrecision fmt spec) := by
  have stay := Remains.refl terminated
  cases fmt with
  | nil => cases terminated
  | cons c rest =>
      by_cases point : c = ch '.'
      · subst point
        have behind := Remains.tail terminated (by decide)
        cases rest with
        | nil => cases behind.terminated
        | cons next rest =>
            change Advances _ _ (if isdigit next = true then
              (skipAtoi (next :: rest)).bind _
              else if next = ch '*' then _ else _)
            by_cases digit : isdigit next = true
            · obtain ⟨fmt', i, run, remains⟩ :=
                skipAtoi_remains behind.terminated
              rw [if_pos digit, run]
              exact Advances.qualifier (behind.trans remains)
                (behind.trans remains).length_le
            rw [if_neg digit]
            by_cases star : next = ch '*'
            · have further :=
                Remains.tail behind.terminated (by rw [star]; decide)
              rw [if_pos star]
              exact Advances.returned (behind.trans further)
                (by simp only [List.length_cons]; omega) rfl
            · rw [if_neg star]
              exact Advances.qualifier behind behind.length_le
      · rw [decodePrecision_absent point]
        exact Advances.qualifier stay stay.length_le

theorem decodeWidth_advances {fmt : List Byte}
    (terminated : (0 : Byte) ∈ fmt) (spec : PrintfSpec) :
    Advances fmt 0 (decodeWidth fmt spec) := by
  have stay := Remains.refl terminated
  cases fmt with
  | nil => cases terminated
  | cons c rest =>
      rw [decodeWidth]
      by_cases digit : isdigit c = true
      · obtain ⟨fmt', i, run, remains⟩ := skipAtoi_remains terminated
        rw [if_pos digit, run]
        exact (decodePrecision_advances remains.terminated _).later remains
          remains.length_le
      rw [if_neg digit]
      by_cases star : c = ch '*'
      · have behind := Remains.tail terminated (by rw [star]; decide)
        rw [if_pos star]
        exact Advances.returned behind (Nat.lt_succ_self _) rfl
      · rw [if_neg star]
        exact decodePrecision_advances terminated _

theorem decodeToken_advances {fmt : List Byte}
    (terminated : (0 : Byte) ∈ fmt) (notEnd : fmt.head? ≠ some 0)
    (spec : PrintfSpec) : Advances fmt 1 (decodeToken fmt spec) := by
  obtain ⟨rest, _, literal, suffix, kept⟩ :=
    @scan_of_mem _ _ literalStep 0 (fun _ => rfl) fmt terminated ()
  rw [decodeToken, literal]
  cases rest with
  | nil => cases kept
  | cons c directive =>
      change Advances _ _ (if (c :: directive).length ≠ fmt.length ∨ c = 0 then
        _ else (scan flagStep directive 0).bind _)
      by_cases text : (c :: directive).length ≠ fmt.length ∨ c = 0
      · rw [if_pos text]
        have shorter : (c :: directive).length ≠ fmt.length := by
          cases text with
          | inl shorter => exact shorter
          | inr zero =>
              intro same
              rw [← suffix.eq_of_length same, zero] at notEnd
              exact notEnd rfl
        exact Advances.returned ⟨suffix, kept⟩
          (Nat.lt_of_le_of_ne suffix.length_le shorter) rfl
      · rw [if_neg text]
        have here : Remains fmt (c :: directive) := ⟨suffix, kept⟩
        have behind := Remains.tail kept fun zero => text (Or.inr zero)
        obtain ⟨rest, flags, read, suffix', kept'⟩ :=
          @scan_of_mem _ _ flagStep 0 (fun _ => rfl) directive
            behind.terminated 0
        have remains : Remains directive rest := ⟨suffix', kept'⟩
        rw [read]
        apply (decodeWidth_advances kept' _).later
          (here.trans (behind.trans remains))
        have shorter := remains.length_le
        have whole := here.length_le
        rw [List.length_cons] at whole
        omega

/-- Whether a directive waits for an argument. -/
def pending (spec : PrintfSpec) : Nat :=
  if spec.type = .width ∨ spec.type = .precision then 1 else 0

theorem pending_le (spec : PrintfSpec) : pending spec ≤ 1 := by
  unfold pending
  split <;> decide

theorem decodeToQualifier_advances {fmt : List Byte}
    (terminated : (0 : Byte) ∈ fmt) (notEnd : fmt.head? ≠ some 0)
    (spec : PrintfSpec) :
    Advances fmt (1 - pending spec) (decodeToQualifier fmt spec) := by
  by_cases width : spec.type = .width
  · rw [pending, if_pos (Or.inl width), decodeToQualifier_width width]
    exact decodePrecision_advances terminated _
  by_cases precision : spec.type = .precision
  · rw [pending, if_pos (Or.inr precision), decodeToQualifier, if_neg width,
      if_pos precision]
    exact Advances.qualifier (Remains.refl terminated) (Nat.le_refl _)
  · have none : ¬ (spec.type = .width ∨ spec.type = .precision) :=
      fun either => either.elim width precision
    rw [pending, if_neg none, decodeToQualifier_notPending ⟨width, precision⟩]
    exact decodeToken_advances terminated notEnd spec

theorem pending_of_isInteger {spec : PrintfSpec}
    (integer : spec.type.isInteger = true) : pending spec = 0 := by
  apply if_neg
  rintro (width | precision)
  · rw [width] at integer
    cases integer
  · rw [precision] at integer
    cases integer

theorem pending_of_isOther {spec : PrintfSpec}
    (other : spec.type.isOther = true) : pending spec = 0 := by
  apply if_neg
  rintro (width | precision)
  · rw [width] at other
    cases other
  · rw [precision] at other
    cases other

/-- A conversion is at most one character, and no directive waits behind it. -/
theorem decodeConversion_advances {fmt : List Byte}
    (terminated : (0 : Byte) ∈ fmt) (spec : PrintfSpec) :
    ∃ fmt' spec', decodeConversion fmt spec = some (fmt', spec') ∧
      Remains fmt fmt' ∧ pending spec' = 0 ∧
      (spec'.type.isInteger = true →
        spec'.base = 8 ∨ spec'.base = 10 ∨ spec'.base = 16) := by
  cases fmt with
  | nil => cases terminated
  | cons c rest =>
      have stay := Remains.refl terminated
      have converted := decodeConversion_converted c rest spec
      generalize decodeConversion (c :: rest) spec = result at converted
      cases converted with
      | integer nonzero known =>
          exact ⟨_, _, rfl, Remains.tail terminated nonzero,
            pending_of_isInteger (integerType_isInteger _ _), fun _ => known⟩
      | other nonzero other =>
          exact ⟨_, _, rfl, Remains.tail terminated nonzero,
            pending_of_isOther other, fun integer => absurd integer
              (FormatType.not_isInteger_of_isOther other)⟩
      | stays other =>
          exact ⟨_, _, rfl, stay, pending_of_isOther other,
            fun integer => absurd integer
              (FormatType.not_isInteger_of_isOther other)⟩

theorem decodeQualifier_plain {c : Byte} (rest : List Byte) (spec : PrintfSpec)
    (plain : isQualifier c = false) :
    decodeQualifier (c :: rest) spec =
      decodeConversion (c :: rest) { spec with qualifier := 0xFF } :=
  if_neg (by rw [plain]; exact Bool.false_ne_true)

/-- The letters that may be doubled. -/
def Single (c : Byte) : Prop := c = ch 'h' ∨ c = ch 'l'

theorem Single.isQualifier {c : Byte} (single : Single c) :
    isQualifier c = true := by
  cases single with
  | inl h => rw [h]; decide
  | inr l => rw [l]; decide

/-- A qualifier is one or two characters, which stand before the end of the
string if a letter that may be doubled does not end it. -/
theorem decodeQualifier_advances {fmt : List Byte}
    (terminated : (0 : Byte) ∈ fmt) (spec : PrintfSpec)
    (followed : ∀ c next rest, fmt = c :: next :: rest → Single c →
      next ≠ 0) :
    ∃ fmt' spec', decodeQualifier fmt spec = some (fmt', spec') ∧
      Remains fmt fmt' ∧ pending spec' = 0 ∧
      (spec'.type.isInteger = true →
        spec'.base = 8 ∨ spec'.base = 10 ∨ spec'.base = 16) := by
  have later : ∀ {position : List Byte}, Remains fmt position → ∀ spec,
      ∃ fmt' spec', decodeConversion position spec = some (fmt', spec') ∧
        Remains fmt fmt' ∧ pending spec' = 0 ∧
        (spec'.type.isInteger = true →
          spec'.base = 8 ∨ spec'.base = 10 ∨ spec'.base = 16) := by
    intro position remains spec
    obtain ⟨fmt', spec', run, further, notPending, base⟩ :=
      decodeConversion_advances remains.terminated spec
    exact ⟨fmt', spec', run, remains.trans further, notPending, base⟩
  cases fmt with
  | nil => cases terminated
  | cons c rest =>
      by_cases qualifier : isQualifier c = true
      · have behind := Remains.tail terminated (by
          rintro rfl
          exact absurd qualifier (by decide))
        cases rest with
        | nil => cases behind.terminated
        | cons next rest =>
            have doubled : Single c →
                Remains (c :: next :: rest) rest := fun single =>
              behind.trans (Remains.tail behind.terminated
                (followed c next rest rfl single))
            change ∃ fmt' spec', (if isQualifier c = true then
              if c ≠ next ∧ c = ch 'l' then _
              else if c ≠ next ∧ c = ch 'h' then _ else _ else _) =
                some (fmt', spec') ∧ _
            rw [if_pos qualifier]
            by_cases isLong : c ≠ next ∧ c = ch 'l'
            · rw [if_pos isLong]
              exact later (doubled (Or.inr isLong.2)) _
            rw [if_neg isLong]
            by_cases isShort : c ≠ next ∧ c = ch 'h'
            · rw [if_pos isShort]
              exact later (doubled (Or.inl isShort.2)) _
            · rw [if_neg isShort]
              exact later behind _
      · rw [decodeQualifier_plain rest spec (Bool.eq_false_iff.mpr qualifier)]
        exact later (Remains.refl terminated) _

/-- The turns that the loop can still take. -/
def turnsLeft (fmt : List Byte) (spec : PrintfSpec) : Nat :=
  2 * fmt.length + pending spec

/-- A call that meets no single qualifier at the end of the string stays inside
the string, and makes progress or resumes a directive. -/
theorem formatDecode_advances {fmt : List Byte}
    (terminated : (0 : Byte) ∈ fmt) (notEnd : fmt.head? ≠ some 0)
    {spec : PrintfSpec}
    (followed : ∀ c next rest spec', decodeToQualifier fmt spec =
      some (.qualifier (c :: next :: rest) spec') → Single c → next ≠ 0) :
    ∃ fmt' spec', formatDecode fmt spec = some (fmt', spec') ∧
      Remains fmt fmt' ∧ turnsLeft fmt' spec' < turnsLeft fmt spec ∧
      (spec'.type.isInteger = true →
        spec'.base = 8 ∨ spec'.base = 10 ∨ spec'.base = 16) := by
  have advances := decodeToQualifier_advances terminated notEnd spec
  generalize isDecoded : decodeToQualifier fmt spec = decoding at *
  cases advances with
  | @returned fmt' spec' position shorter notInteger =>
      refine ⟨fmt', spec', formatDecode_returned isDecoded, position, ?_,
        fun integer => ?_⟩
      · have bound := pending_le spec'
        unfold turnsLeft
        omega
      · rw [notInteger] at integer
        cases integer
  | @qualifier fmt' spec' position further =>
      rw [formatDecode_qualifier isDecoded]
      obtain ⟨fmt'', spec'', run, remains, notPending, base⟩ :=
        decodeQualifier_advances position.terminated spec'
          fun c next rest isFmt single =>
            followed c next rest spec' (by rw [isFmt]) single
      refine ⟨fmt'', spec'', run, position.trans remains, ?_, base⟩
      have shorter := remains.length_le
      have bound := pending_le spec
      unfold turnsLeft
      omega

theorem formatDecode_progress {fmt : List Byte}
    (terminated : (0 : Byte) ∈ fmt) (notEnd : fmt.head? ≠ some 0)
    {spec : PrintfSpec} (unqualified : Unqualified fmt spec) :
    ∃ fmt' spec', formatDecode fmt spec = some (fmt', spec') ∧
      Remains fmt fmt' ∧ turnsLeft fmt' spec' < turnsLeft fmt spec ∧
      (spec'.type.isInteger = true →
        spec'.base = 8 ∨ spec'.base = 10 ∨ spec'.base = 16) := by
  apply formatDecode_advances terminated notEnd
  intro c next rest spec' decoded single
  have plain := unqualified c (next :: rest) spec' decoded
  rw [single.isQualifier] at plain
  cases plain

theorem takeArguments_fmt (args : Arguments) (r : Reading) :
    (takeArguments args r).fmt = r.fmt := by
  unfold takeArguments
  split <;> rfl

theorem takeArguments_turnsLeft (args : Arguments) (r : Reading) :
    turnsLeft (takeArguments args r).fmt (takeArguments args r).spec =
      turnsLeft r.fmt r.spec := by
  have type : (takeArguments args r).spec.type = r.spec.type := by
    unfold takeArguments
    split <;> rfl
  rw [turnsLeft, pending, type, takeArguments_fmt]
  rfl

end Hlos.Libs
