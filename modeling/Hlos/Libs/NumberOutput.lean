import Hlos.Libs.Digits

/-!
# The output of `number`

`number` prints a text that depends on the number and on `spec` but not on the
buffer.  The lengths of its parts are the numbers of turns of its loops, which
count in 16 bits.
-/

namespace Hlos.Libs

open Hlos.Lib Hlos.Lib.Output Hlos.Include

/-- What a padding loop behind a test does to its counter. -/
inductive PadRun (again : BitVec 16 → Bool) (count : BitVec 16) :
    (pads : Bool) → (times : Nat) → (left : BitVec 16) → Prop where
  | pads {times : Nat} : Repeats again count times →
      PadRun again count true times (count - BitVec.ofNat 16 times - 1)
  | skips : PadRun again count false 0 count

section Padding

variable {again : BitVec 16 → Bool} {count left : BitVec 16} {pads : Bool}
  {times : Nat}

theorem PadRun.eq (run : PadRun again count pads times left) (c : Byte)
    (limit : Word) (o : Output) :
    padIf pads again c limit count o =
      some (left, emitAll limit (List.replicate times c) o) := by
  cases run with
  | pads repeats => exact repeats.emitWhile_eq c limit o
  | skips => rfl

theorem exists_padRun (zero : again 0 = false) (count : BitVec 16)
    (pads : Bool) : ∃ times left, PadRun again count pads times left := by
  cases pads with
  | false => exact ⟨_, _, PadRun.skips⟩
  | true =>
      obtain ⟨times, repeats⟩ := exists_repeats zero count
      exact ⟨_, _, PadRun.pads repeats⟩

theorem PadRun.times_lt (run : PadRun again count pads times left) :
    times < 2 ^ 16 := by
  cases run with
  | pads repeats => exact repeats.bound
  | skips => exact Nat.two_pow_pos 16

end Padding

/-! ## The parts of a number -/

/-- The number without its sign. -/
def numberMagnitude (num : BitVec 64) (spec : PrintfSpec) : Nat :=
  if spec.flags &&& SIGN ≠ 0 then num.toInt.natAbs else num.toNat

theorem numberSign_num (num : BitVec 64) (spec : PrintfSpec) :
    (numberSign num spec).num.toNat = numberMagnitude num spec := by
  have bound := num.isLt
  unfold numberSign numberMagnitude
  by_cases signed : spec.flags &&& SIGN ≠ 0
  · rw [if_pos signed, if_pos signed]
    by_cases negative : num.toInt < 0
    · rw [if_pos negative, BitVec.toNat_neg]
      rw [BitVec.toInt_eq_toNat_cond] at negative ⊢
      split at negative
      · omega
      · next wraps =>
          rw [if_neg wraps]
          omega
    · have positive : num.toNat = num.toInt.natAbs := by
        rw [BitVec.toInt_eq_toNat_cond] at negative ⊢
        split at negative
        · next small =>
            rw [if_pos small]
            rfl
        · omega
      rw [if_neg negative]
      repeat' split
      all_goals exact positive
  · rw [if_neg signed, if_neg signed]

/-- The character of the padding behind the sign. -/
def fillChar (spec : PrintfSpec) : Byte :=
  if numberFlags spec &&& ZEROPAD ≠ 0 then ch '0' else ch ' '

/-- The width that is left for padding. -/
def paddingWidth (num : BitVec 64) (spec : PrintfSpec) (count : Nat) :
    BitVec 16 :=
  prefixWidth num spec (numberSign num spec).fieldWidth -
    raisedPrecision count spec.precision

/-- The digits, and how often the four padding loops run. -/
structure NumberRun (num : BitVec 64) (spec : PrintfSpec) (tmp : List Byte)
    (lead fill zeros trail : Nat) : Prop where
  digits : numberDigits (numberSign num spec).num spec.base
    (spec.flags &&& SMALL) = some tmp
  widths : ∃ left left' left'',
    PadRun widthLeft (paddingWidth num spec tmp.length)
      (numberFlags spec &&& (ZEROPAD + LEFT) = 0) lead left ∧
    PadRun widthLeft left (numberFlags spec &&& LEFT = 0) fill left' ∧
    PadRun widthLeft left' true trail left''
  zeros : Repeats (precisionLeft tmp.length)
    (raisedPrecision tmp.length spec.precision) zeros

def numberText (num : BitVec 64) (spec : PrintfSpec) (tmp : List Byte)
    (lead fill zeros trail : Nat) : List Byte :=
  List.replicate lead (ch ' ') ++ ((numberSign num spec).sign ++
    (prefixText num spec ++ (List.replicate fill (fillChar spec) ++
      (List.replicate zeros (ch '0') ++
        (tmp.reverse ++ List.replicate trail (ch ' '))))))

theorem NumberRun.number_eq {num : BitVec 64} {spec : PrintfSpec}
    {tmp : List Byte} {lead fill zeros trail : Nat}
    (run : NumberRun num spec tmp lead fill zeros trail) (limit : Word)
    (o : Output) :
    number limit num spec o =
      some (emitAll limit (numberText num spec tmp lead fill zeros trail)
        o) := by
  obtain ⟨left, left', left'', leadRun, fillRun, trailRun⟩ := run.widths
  have zerosRun := PadRun.pads run.zeros
  rw [number, run.digits]
  change (padIf _ _ _ _ (paddingWidth num spec tmp.length) _).bind _ = _
  rw [leadRun.eq]
  change (padIf _ _ (fillChar spec) _ left _).bind _ = _
  rw [fillRun.eq]
  change (padIf _ _ _ _ (raisedPrecision tmp.length spec.precision) _).bind _ =
    _
  rw [zerosRun.eq]
  change (padIf _ _ _ _ left' _).bind _ = _
  rw [trailRun.eq, numberText]
  simp only [emitAll_append]
  rfl

theorem number_eq_none {num : BitVec 64} {spec : PrintfSpec}
    (noDigits : numberDigits (numberSign num spec).num spec.base
      (spec.flags &&& SMALL) = none) (limit : Word) (o : Output) :
    number limit num spec o = none := by
  rw [number, noDigits]
  rfl

/-! ## Counting in 16 bits -/

theorem toInt_sub_16 {x y : BitVec 16} (low : -32768 ≤ x.toInt - y.toInt)
    (high : x.toInt - y.toInt < 32768) :
    (x - y).toInt = x.toInt - y.toInt := by
  rw [BitVec.toInt_sub]
  exact Int.bmod_eq_of_le low high

theorem toInt_sub_ofNat {x : BitVec 16} {k : Nat}
    (low : -32768 ≤ x.toInt - k) :
    (x - BitVec.ofNat 16 k).toInt = x.toInt - k := by
  have high := @BitVec.toInt_lt 16 x
  rw [BitVec.toInt_sub, BitVec.toInt_ofNat', Int.sub_bmod_bmod]
  apply Int.bmod_eq_of_le
  · exact low
  · change x.toInt - (k : Int) < 32768
    omega

theorem toInt_sub_one {x : BitVec 16} (low : -32768 < x.toInt) :
    (x - 1).toInt = x.toInt - 1 :=
  @toInt_sub_ofNat x 1 (by omega)

/-- A counter that is not extreme is counted down to the bound. -/
theorem repeats_precisionLeft {count : BitVec 16}
    (low : -32768 < count.toInt) (i : Nat) :
    Repeats (precisionLeft i) count (count.toInt - i).toNat := by
  have high := @BitVec.toInt_lt 16 count
  have step : ∀ turn : Nat, turn ≤ (count.toInt - i).toNat →
      (count - BitVec.ofNat 16 turn - 1).toInt = count.toInt - turn - 1 := by
    intro turn bound
    have first : (count - BitVec.ofNat 16 turn).toInt = count.toInt - turn :=
      toInt_sub_ofNat (by omega)
    rw [toInt_sub_one (by omega), first]
  constructor
  · change _ < 65536
    omega
  · intro turn below
    apply decide_eq_true
    rw [step turn (Nat.le_of_lt below)]
    omega
  · apply decide_eq_false
    rw [step _ (Nat.le_refl _)]
    omega

theorem repeats_widthLeft {width : BitVec 16} (low : -32768 < width.toInt) :
    Repeats widthLeft width width.toInt.toNat := by
  have repeats := repeats_precisionLeft low 0
  rwa [Int.natCast_zero, Int.sub_zero] at repeats

theorem raisedPrecision_toInt {i : Nat} (small : i < 32768)
    (precision : BitVec 16) :
    (raisedPrecision i precision).toInt = max (i : Int) precision.toInt := by
  have self : (BitVec.ofNat 16 i).toInt = i := by
    rw [BitVec.toInt_ofNat']
    apply Int.bmod_eq_of_le
    · change (-32768 : Int) ≤ i
      omega
    · change (i : Int) < 32768
      omega
  unfold raisedPrecision
  split
  · rw [self]
    omega
  · omega

/-! ## How long the parts are -/

section Lengths

variable {num : BitVec 64} {spec : PrintfSpec} {tmp : List Byte}

/-- The zeros fill up the precision. -/
theorem raised_zeros (few : tmp.length < 32768) :
    ∃ zeros, Repeats (precisionLeft tmp.length)
        (raisedPrecision tmp.length spec.precision) zeros ∧
      tmp.length + zeros =
        (raisedPrecision tmp.length spec.precision).toInt.toNat := by
  have raised := raisedPrecision_toInt few spec.precision
  refine ⟨_, repeats_precisionLeft (by omega) tmp.length, ?_⟩
  omega

/-- A number that has digits is printed. -/
theorem exists_numberRun (few : tmp.length < 32768)
    (digits : numberDigits (numberSign num spec).num spec.base
      (spec.flags &&& SMALL) = some tmp) :
    ∃ lead fill zeros trail, NumberRun num spec tmp lead fill zeros trail ∧
      tmp.length + zeros =
        (raisedPrecision tmp.length spec.precision).toInt.toNat ∧
      lead < 2 ^ 16 ∧ fill < 2 ^ 16 ∧ zeros < 2 ^ 16 ∧ trail < 2 ^ 16 := by
  have widthEnds : widthLeft 0 = false := by decide
  obtain ⟨lead, left, leadRun⟩ := exists_padRun widthEnds
    (paddingWidth num spec tmp.length)
    (numberFlags spec &&& (ZEROPAD + LEFT) = 0)
  obtain ⟨fill, left', fillRun⟩ := exists_padRun widthEnds left
    (numberFlags spec &&& LEFT = 0)
  obtain ⟨zeros, zerosRun, filled⟩ := @raised_zeros spec tmp few
  obtain ⟨trail, left'', trailRun⟩ := exists_padRun widthEnds left' true
  exact ⟨lead, fill, zeros, trail,
    ⟨digits, ⟨left, left', left'', leadRun, fillRun, trailRun⟩, zerosRun⟩,
    filled, leadRun.times_lt, fillRun.times_lt, zerosRun.bound,
    trailRun.times_lt⟩

/-- A padding loop uses up the width, and leaves a negative one. -/
theorem exists_widthRun {width : BitVec 16} (low : -32768 < width.toInt) :
    ∃ left, PadRun widthLeft width true width.toInt.toNat left ∧
      left.toInt = width.toInt - width.toInt.toNat - 1 := by
  have first : (width - BitVec.ofNat 16 width.toInt.toNat).toInt =
      width.toInt - width.toInt.toNat := toInt_sub_ofNat (by omega)
  refine ⟨_, PadRun.pads (repeats_widthLeft low), ?_⟩
  rw [toInt_sub_one (by omega), first]

/-- How the flags select the loop that pads. -/
inductive PadChoice (spec : PrintfSpec) : Prop where
  | lead : (numberFlags spec &&& (ZEROPAD + LEFT) = 0) →
      (numberFlags spec &&& LEFT = 0) → PadChoice spec
  | fill : ¬ (numberFlags spec &&& (ZEROPAD + LEFT) = 0) →
      (numberFlags spec &&& LEFT = 0) → fillChar spec = ch '0' →
      PadChoice spec
  | trail : ¬ (numberFlags spec &&& (ZEROPAD + LEFT) = 0) →
      ¬ (numberFlags spec &&& LEFT = 0) → PadChoice spec

theorem padChoice (spec : PrintfSpec) : PadChoice spec := by
  have parts : numberFlags spec &&& (ZEROPAD + LEFT) = 0 ↔
      numberFlags spec &&& ZEROPAD = 0 ∧ numberFlags spec &&& LEFT = 0 := by
    have union : ZEROPAD + LEFT = ZEROPAD ||| LEFT := rfl
    rw [union, BitVec.and_or_distrib_left]
    exact BitVec.or_eq_zero_iff
  by_cases noPad : numberFlags spec &&& (ZEROPAD + LEFT) = 0
  · exact PadChoice.lead noPad (parts.mp noPad).2
  by_cases noLeft : numberFlags spec &&& LEFT = 0
  · have zeropad : numberFlags spec &&& ZEROPAD ≠ 0 :=
      fun none => noPad (parts.mpr ⟨none, noLeft⟩)
    exact PadChoice.fill noPad noLeft (if_pos zeropad)
  · exact PadChoice.trail noPad noLeft

/-- The filling and the zeros of the precision look alike. -/
theorem replicate_fill {fill : Nat}
    (fillZero : fill = 0 ∨ fillChar spec = ch '0') (zeros : Nat) :
    List.replicate fill (fillChar spec) ++ List.replicate zeros (ch '0') =
      List.replicate (fill + zeros) (ch '0') := by
  rw [List.replicate_add]
  cases fillZero with
  | inl none => rw [none, List.replicate_zero, List.replicate_zero]
  | inr isZero => rw [isZero]

/-- Exactly one loop pads, and together they fill up the width. -/
theorem exists_numberRun_of_width (few : tmp.length < 32768)
    (digits : numberDigits (numberSign num spec).num spec.base
      (spec.flags &&& SMALL) = some tmp)
    (low : -32766 < (paddingWidth num spec tmp.length).toInt) :
    ∃ lead fill zeros trail, NumberRun num spec tmp lead fill zeros trail ∧
      tmp.length + zeros =
        (raisedPrecision tmp.length spec.precision).toInt.toNat ∧
      lead + fill + trail =
        (paddingWidth num spec tmp.length).toInt.toNat ∧
      (fill = 0 ∨ fillChar spec = ch '0') ∧ (lead = 0 ∨ trail = 0) := by
  obtain ⟨zeros, zerosRun, filled⟩ := @raised_zeros spec tmp few
  obtain ⟨left, firstRun, firstLeft⟩ :=
    @exists_widthRun (paddingWidth num spec tmp.length) (by omega)
  obtain ⟨left', secondRun, secondLeft⟩ := @exists_widthRun left (by omega)
  have exhausted : left.toInt.toNat = 0 := by omega
  rw [exhausted] at secondRun
  cases padChoice spec with
  | lead noPad noLeft =>
      obtain ⟨left'', thirdRun, _⟩ := @exists_widthRun left' (by omega)
      have still : left'.toInt.toNat = 0 := by omega
      rw [still] at thirdRun
      refine ⟨_, 0, zeros, 0, ⟨digits, ⟨left, left', left'', ?_, ?_, thirdRun⟩,
        zerosRun⟩, filled, rfl, Or.inl rfl, Or.inr rfl⟩
      · rw [decide_eq_true noPad]
        exact firstRun
      · rw [decide_eq_true noLeft]
        exact secondRun
  | fill noPad noLeft isZero =>
      refine ⟨0, _, zeros, 0, ⟨digits, ⟨paddingWidth num spec tmp.length, left,
        left', ?_, ?_, secondRun⟩, zerosRun⟩, filled, Nat.zero_add _,
        Or.inr isZero, Or.inl rfl⟩
      · rw [decide_eq_false noPad]
        exact PadRun.skips
      · rw [decide_eq_true noLeft]
        exact firstRun
  | trail noPad noLeft =>
      refine ⟨0, 0, zeros, _, ⟨digits, ⟨paddingWidth num spec tmp.length,
        paddingWidth num spec tmp.length, left, ?_, ?_, firstRun⟩, zerosRun⟩,
        filled, Nat.zero_add _, Or.inl rfl, Or.inl rfl⟩
      · rw [decide_eq_false noPad]
        exact PadRun.skips
      · rw [decide_eq_false noLeft]
        exact PadRun.skips

/-- A printable number is printed, as a text of moderate length. -/
theorem exists_numberText
    (printable : Printable (numberSign num spec).num spec.base) :
    ∃ text, (∀ limit o, number limit num spec o =
        some (emitAll limit text o)) ∧ text.length < 2 ^ 20 := by
  obtain ⟨tmp, digits, few⟩ :=
    numberDigits_fit (spec.flags &&& SMALL) printable
  obtain ⟨lead, fill, zeros, trail, run, _, shortLead, shortFill, shortZeros,
    shortTrail⟩ := exists_numberRun (by omega) digits
  refine ⟨_, run.number_eq, ?_⟩
  have sign : (numberSign num spec).sign.length ≤ 1 := by
    unfold numberSign
    repeat' split
    all_goals exact Nat.le_of_ble_eq_true rfl
  have pfx : (prefixText num spec).length ≤ 2 := by
    unfold prefixText
    repeat' split
    all_goals exact Nat.le_of_ble_eq_true rfl
  simp only [numberText, List.length_append, List.length_replicate,
    List.length_reverse]
  omega

end Lengths

end Hlos.Libs
