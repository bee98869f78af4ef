import Hlos.Libs.FormatText

/-!
# Truncation

`vsnprintf` leaves what fits of the text of the format, and returns the length
of the whole text.  The text must end before the end of the address space: the
code moves `end` back if it would wrap around, but not the cursor.
-/

namespace Hlos.Libs

open Hlos.Lib Hlos.Lib.Output Hlos.Include

/-! ## Checking a format -/

/-- The conditions of `SupportedTurn`, computed. -/
def supportedTurn (args : Arguments) (r : Reading) : Bool :=
  (match decodeToQualifier r.fmt r.spec with
    | some (.qualifier (c :: _) _) => !isQualifier c
    | _ => true) &&
  (match formatDecode r.fmt r.spec with
    | some (fmt, spec) =>
        (!spec.type.isInteger || spec.base != 10 ||
          numberMagnitude (fetch args spec.type r.num r.ap).1 spec <
            100000000) &&
        (spec.type != .none || r.fmt.length - fmt.length < 2 ^ 31) &&
        (spec.type != .str ||
          strnlen (stringSource args.bytes (args.words r.ap))
            (spec.precision.signExtend 32).toNat < 2 ^ 31)
    | none => true)

theorem SupportedTurn.of_check {args : Arguments} {r : Reading}
    (check : supportedTurn args r = true) : SupportedTurn args r := by
  unfold supportedTurn at check
  obtain ⟨plain, fits⟩ := Bool.and_eq_true_iff.mp check
  constructor
  · intro c rest spec decoded
    rw [decoded] at plain
    exact Bool.not_eq_true' _ |>.mp plain
  · intro fmt spec decoded integer base
    rw [decoded] at fits
    have number := (Bool.and_eq_true_iff.mp (Bool.and_eq_true_iff.mp fits).1).1
    simp only [integer, base, bne_self_eq_false, Bool.not_true,
      Bool.false_or] at number
    exact of_decide_eq_true number
  · intro fmt spec decoded none
    rw [decoded] at fits
    have literal := (Bool.and_eq_true_iff.mp (Bool.and_eq_true_iff.mp fits).1).2
    simp only [none, bne_self_eq_false, Bool.false_or] at literal
    exact of_decide_eq_true literal
  · intro fmt spec decoded str
    rw [decoded] at fits
    have string := (Bool.and_eq_true_iff.mp fits).2
    simp only [str, bne_self_eq_false, Bool.false_or] at string
    exact of_decide_eq_true string

/-- The condition of `NoCount` on a turn, computed. -/
def countsNothing (r : Reading) : Bool :=
  match formatDecode r.fmt r.spec with
  | some (_, spec) => spec.type != .nrchars
  | none => true

theorem countsNothing_spec {r : Reading} (check : countsNothing r = true)
    {fmt : List Byte} {spec : PrintfSpec}
    (decoded : formatDecode r.fmt r.spec = some (fmt, spec)) :
    spec.type ≠ .nrchars := by
  rw [countsNothing, decoded] at check
  exact bne_iff_ne.mp check

/-- Every turn from here to the end of the string passes a check. -/
def checkedRun (turn : Reading → Bool) (args : Arguments) :
    (fuel : Nat) → Reading → Bool
  | 0, _ => false
  | fuel + 1, r =>
      r.fmt.head? == some 0 || (turn r &&
        match readTurn args r with
        | some next => checkedRun turn args fuel next
        | none => false)

section Checks

variable {turn : Reading → Bool} {args : Arguments} {num : BitVec 64}
  {fmt : List Byte} {fuel : Nat}

theorem checkedRun_next {r : Reading}
    (check : checkedRun turn args fuel r = true)
    (notEnd : r.fmt.head? ≠ some 0) :
    turn r = true ∧
      ∃ next fuel', readTurn args r = some next ∧
        checkedRun turn args fuel' next = true := by
  cases fuel with
  | zero => cases check
  | succ fuel =>
      rw [checkedRun, beq_eq_false_iff_ne.mpr notEnd, Bool.false_or] at check
      obtain ⟨passes, later⟩ := Bool.and_eq_true_iff.mp check
      refine ⟨passes, ?_⟩
      cases isNext : readTurn args r with
      | none =>
          rw [isNext] at later
          cases later
      | some next =>
          rw [isNext] at later
          exact ⟨next, fuel, rfl, later⟩

/-- The turns that are checked are all that the loop takes. -/
theorem checkedRun_reaches
    (check : checkedRun turn args fuel (startReading fmt num) = true)
    {r : Reading}
    (reached : (formatMachine args).Reaches (startReading fmt num) r)
    (notEnd : r.fmt.head? ≠ some 0) : turn r = true := by
  have keeps : (formatMachine args).Keeps fun r =>
      ∃ fuel, checkedRun turn args fuel r = true := by
    rintro r _ ⟨fuel, holds⟩ notEnd
    obtain ⟨_, next, fuel', read, later⟩ := checkedRun_next holds notEnd
    exact ⟨next, read, fuel', later⟩
  obtain ⟨fuel', holds⟩ := keeps.reaches ⟨fuel, check⟩ reached
  exact (checkedRun_next holds notEnd).1

theorem SupportedFormat.of_check
    (check : checkedRun (supportedTurn args) args fuel
      (startReading fmt num) = true) : SupportedFormat args num fmt :=
  fun _ reached notEnd =>
    SupportedTurn.of_check (checkedRun_reaches check reached notEnd)

theorem NoCount.of_check
    (check : checkedRun countsNothing args fuel
      (startReading fmt num) = true) : NoCount args num fmt :=
  fun _ reached notEnd _ _ decoded =>
    countsNothing_spec (checkedRun_reaches check reached notEnd) decoded

end Checks

/-! ## What is left in the buffer -/

/-- The result is the length of the text.  As many of its characters as fit
stand in the buffer, with a zero behind them, and nothing else is written but
what `%n` stores, which is kept apart. -/
structure Leaves (buf size : Word) (text : List Byte) (before : Memory)
    (result : PrintResult) : Prop where
  value : result.value.toNat = text.length
  characters : ∀ index, index < min text.length (size.toNat - 1) →
    text[index]? = some (result.memory.bytes (buf.toNat + index))
  terminator : 0 < size.toNat →
    result.memory.bytes (buf.toNat + min text.length (size.toNat - 1)) = 0
  writes : Memory.WritesWithin
    {position | buf.toNat ≤ position ∧ position < buf.toNat + size.toNat}
    before result.memory

section Buffer

variable {args : Arguments} {num : BitVec 64} {fmt : List Byte}
  {buf size : Word} {before : Memory}

/-- The memory after the final store. -/
def terminate (limit size : Word) (o : Output) : Memory :=
  if 0 < size then
    if o.cursor < limit then o.memory.store8 o.cursor.toNat 0
    else o.memory.store8 (limit - 1).toNat 0
  else o.memory

theorem terminate_eq {limit : Word} {o : Output} {length : Nat}
    (isLimit : limit.toNat = buf.toNat + size.toNat)
    (cursor : o.cursor.toNat = buf.toNat + length)
    (positive : 0 < size.toNat) :
    terminate limit size o =
      o.memory.store8 (buf.toNat + min length (size.toNat - 1)) 0 := by
  have nonzero : 0 < size := positive
  rw [terminate, if_pos nonzero]
  by_cases below : o.cursor < limit
  · have less : o.cursor.toNat < limit.toNat := below
    have position : buf.toNat + min length (size.toNat - 1) =
        o.cursor.toNat := by
      omega
    rw [if_pos below, position]
  · have notLess : ¬ o.cursor.toNat < limit.toNat := below
    have last : (limit - 1).toNat = limit.toNat - 1 :=
      BitVec.toNat_sub_of_le (by
        change 1 ≤ limit.toNat
        omega)
    have position : buf.toNat + min length (size.toNat - 1) =
        (limit - 1).toNat := by
      omega
    rw [if_neg below, position]

theorem terminate_of_empty {limit : Word} {o : Output}
    (empty : size.toNat = 0) : terminate limit size o = o.memory := by
  have notPositive : ¬ 0 < size := by
    change ¬ 0 < size.toNat
    omega
  exact if_neg notPositive

/-- The loop and the final store leave the text. -/
theorem leaves_text {limit : Word} {text : List Byte}
    (counts : List (Word × Word))
    (isLimit : limit.toNat = buf.toNat + size.toNat)
    (fitsText : buf.toNat + text.length < 2 ^ 32) :
    Leaves buf size text before
      ⟨(emitAll limit text ⟨buf, before⟩).cursor - buf,
        terminate limit size (emitAll limit text ⟨buf, before⟩), counts⟩ := by
  have cursor : (emitAll limit text ⟨buf, before⟩).cursor.toNat =
      buf.toNat + text.length := emitAll_cursor_toNat fitsText
  have stored := @emitAll_bytes limit text ⟨buf, before⟩ fitsText
  have inside : ∀ position, buf.toNat ≤ position → position < limit.toNat →
      position ∈ {position | buf.toNat ≤ position ∧
        position < buf.toNat + size.toNat} := by
    intro position low high
    rw [isLimit] at high
    exact ⟨low, high⟩
  have writes := @emitAll_writesWithin limit text ⟨buf, before⟩ fitsText _
    inside
  have value : ((emitAll limit text ⟨buf, before⟩).cursor - buf).toNat =
      text.length := by
    rw [BitVec.toNat_sub_of_le (by change buf.toNat ≤ _; omega), cursor]
    omega
  by_cases empty : size.toNat = 0
  · rw [terminate_of_empty empty]
    refine ⟨value, ?_, ?_, writes⟩
    · intro index below
      omega
    · intro positive
      omega
  rw [terminate_eq isLimit cursor (by omega)]
  refine ⟨value, ?_, ?_, ?_⟩
  · intro index below
    have other : ¬ (buf.toNat + index =
        buf.toNat + min text.length (size.toNat - 1)) := by
      omega
    have here : buf.toNat ≤ buf.toNat + index ∧
        buf.toNat + index < limit.toNat := by
      omega
    have isChar := stored (buf.toNat + index)
    change _ = if buf.toNat ≤ _ ∧ _ then
      text[buf.toNat + index - buf.toNat]?.getD _ else _ at isChar
    rw [if_pos here, Nat.add_sub_cancel_left,
      List.getElem?_eq_getElem (by omega), Option.getD_some] at isChar
    rw [List.getElem?_eq_getElem (by omega), ← isChar]
    exact congrArg some (if_neg other).symm
  · intro _
    exact if_pos rfl
  · apply writes.trans
    apply Memory.store8_writesWithin
    constructor
    · exact Nat.le_add_right _ _
    · omega

/-- The variable `end`. -/
def bufferLimit (buf size : Word) : Word :=
  if buf + size < buf then 0xFFFFFFFF else buf + size

theorem bufferLimit_toNat (buf size : Word) :
    (bufferLimit buf size).toNat =
      min (buf.toNat + size.toNat) (2 ^ 32 - 1) := by
  have bufBound := buf.isLt
  have sizeBound := size.isLt
  have sum : (buf + size).toNat = (buf.toNat + size.toNat) % 2 ^ 32 :=
    BitVec.toNat_add buf size
  unfold bufferLimit
  by_cases wraps : buf + size < buf
  · have less : (buf + size).toNat < buf.toNat := wraps
    rw [if_pos wraps]
    change 4294967295 = _
    omega
  · have notLess : ¬ (buf + size).toNat < buf.toNat := wraps
    rw [if_neg wraps]
    omega

/-- The variable `size`, behind the test of `end`. -/
def keptSize (buf size : Word) : Word := bufferLimit buf size - buf

theorem keptSize_toNat (buf size : Word) :
    (keptSize buf size).toNat = (bufferLimit buf size).toNat - buf.toNat := by
  have bound := buf.isLt
  apply BitVec.toNat_sub_of_le
  change buf.toNat ≤ _
  rw [bufferLimit_toNat]
  omega

theorem bufferLimit_eq_add (buf size : Word) :
    (bufferLimit buf size).toNat =
      buf.toNat + (keptSize buf size).toNat := by
  have bound := buf.isLt
  rw [keptSize_toNat, bufferLimit_toNat]
  omega

/-- What is left behind the loop. -/
theorem vsnprintf_of_loop {s : PrintState} (bound : size.toNat < 2 ^ 31)
    (run : vsnLoop args buf (bufferLimit buf size) (2 * fmt.length + 1)
      ((startReading fmt num).state ⟨buf, before⟩ []) = some s) :
    vsnprintf args num buf size fmt before =
      some ⟨s.out.cursor - buf,
        terminate (bufferLimit buf size) (keptSize buf size) s.out,
        s.counts⟩ := by
  have positive : ¬ size.toInt < 0 := by
    rw [BitVec.toInt_eq_toNat_of_lt (by omega)]
    omega
  rw [vsnprintf, if_neg positive]
  unfold keptSize
  unfold bufferLimit at run ⊢
  by_cases wraps : buf + size < buf
  · rw [if_pos wraps] at run ⊢
    rw [decide_eq_true wraps]
    change (vsnLoop args buf 0xFFFFFFFF _
      ((startReading fmt num).state ⟨buf, before⟩ [])).bind _ = _
    rw [run]
    rfl
  · have whole : buf + size - buf = size := by
      rw [BitVec.add_comm, BitVec.add_sub_cancel]
    rw [if_neg wraps] at run ⊢
    rw [decide_eq_false wraps, whole]
    change (vsnLoop args buf (buf + size) _
      ((startReading fmt num).state ⟨buf, before⟩ [])).bind _ = _
    rw [run]
    rfl

/-- A buffer with room for the text may be larger. -/
theorem Leaves.of_smaller {text : List Byte} {smaller : Word}
    {result : PrintResult} (leaves : Leaves buf smaller text before result)
    (room : text.length < smaller.toNat) (less : smaller.toNat ≤ size.toNat) :
    Leaves buf size text before result := by
  have whole : min text.length (size.toNat - 1) =
      min text.length (smaller.toNat - 1) := by
    omega
  constructor
  · exact leaves.value
  · rw [whole]
    exact leaves.characters
  · intro _
    rw [whole]
    exact leaves.terminator (Nat.zero_lt_of_lt room)
  · exact leaves.writes.mono fun position inside =>
      ⟨inside.1, Nat.lt_of_lt_of_le inside.2 (Nat.add_le_add_left less _)⟩

/-- A call with a supported format leaves its text.  It stores no count if no
turn does. -/
theorem vsnprintf_leaves (terminated : (0 : Byte) ∈ fmt)
    (supported : SupportedFormat args num fmt) (bound : size.toNat < 2 ^ 31)
    (fits : buf.toNat + (formatText args num fmt).length + 1 < 2 ^ 32) :
    ∃ result, vsnprintf args num buf size fmt before = some result ∧
      Leaves buf size (formatText args num fmt) before result ∧
      (NoCount args num fmt → result.counts = []) := by
  have fitsText : buf.toNat + (formatText args num fmt).length < 2 ^ 32 :=
    Nat.lt_of_succ_lt fits
  have limit := bufferLimit_toNat buf size
  have kept := keptSize_toNat buf size
  have room : Room (bufferLimit buf size) ⟨buf, before⟩
      (formatText args num fmt).length :=
    ⟨fitsText, by change _ < buf.toNat + 2 ^ 31; omega⟩
  have enough : turnsLeft fmt PrintfSpec.zero < 2 * fmt.length + 1 :=
    Nat.lt_succ_self _
  obtain ⟨r, counts, _, noCounts, run⟩ :=
    @vsnLoop_prints args buf (bufferLimit buf size) (startReading fmt num)
      ⟨buf, before⟩ num fmt (2 * fmt.length + 1) supported .start terminated
      enough room []
  have leaves := @leaves_text buf (keptSize buf size) before _ _ counts
    (bufferLimit_eq_add buf size) fitsText
  refine ⟨_, vsnprintf_of_loop bound run, ?_, noCounts⟩
  by_cases noWrap : buf.toNat + size.toNat < 2 ^ 32
  · have same : keptSize buf size = size :=
      BitVec.eq_of_toNat_eq (by omega)
    rw [same] at leaves ⊢
    exact leaves
  · exact leaves.of_smaller (by omega) (by omega)

/-- The length of what stands in the buffer. -/
theorem vscnprintf_count {result : PrintResult}
    (run : vsnprintf args num buf size fmt before = some result) :
    ∃ count, vscnprintf args num buf size fmt before = some (count, result) ∧
      count.toNat = min result.value.toNat (size.toNat - 1) := by
  rw [vscnprintf, run]
  change ∃ count, (if result.value < size then some (result.value, result)
    else if size ≠ 0 then some (size - 1, result)
    else some (0, result)) = some (count, result) ∧ _
  by_cases fits : result.value < size
  · have less : result.value.toNat < size.toNat := fits
    rw [if_pos fits]
    exact ⟨_, rfl, by omega⟩
  · have notLess : ¬ result.value.toNat < size.toNat := fits
    rw [if_neg fits]
    by_cases nonempty : size ≠ 0
    · have positive : size.toNat ≠ 0 := fun zero =>
        nonempty (BitVec.eq_of_toNat_eq zero)
      have last : (size - 1).toNat = size.toNat - 1 :=
        BitVec.toNat_sub_of_le (by
          change 1 ≤ size.toNat
          omega)
      rw [if_pos nonempty]
      exact ⟨_, rfl, by omega⟩
    · have empty : size.toNat = 0 := by
        rw [Decidable.not_not.mp nonempty]
        rfl
      rw [if_neg nonempty]
      refine ⟨_, rfl, ?_⟩
      change 0 = _
      omega

end Buffer

/-- For every two sizes the returned length is the same, the smaller buffer
keeps what fits of the text that a larger one holds, and `vscnprintf` returns
how much that is. -/
theorem truncation_law {args : Arguments} {num : BitVec 64} {fmt : List Byte}
    (terminated : (0 : Byte) ∈ fmt)
    (supported : SupportedFormat args num fmt) {buf n m : Word}
    (order : n.toNat ≤ m.toNat) (bound : m.toNat < 2 ^ 31)
    (fits : buf.toNat + (formatText args num fmt).length + 1 < 2 ^ 32)
    (before : Memory) :
    ∃ short long count,
      vsnprintf args num buf n fmt before = some short ∧
      vsnprintf args num buf m fmt before = some long ∧
      short.value = long.value ∧
      Leaves buf n (formatText args num fmt) before short ∧
      Leaves buf m (formatText args num fmt) before long ∧
      vscnprintf args num buf n fmt before = some (count, short) ∧
      count.toNat = min short.value.toNat (n.toNat - 1) := by
  obtain ⟨short, shortRun, shortLeaves, -⟩ :=
    @vsnprintf_leaves args num fmt buf n before terminated supported
      (by omega) fits
  obtain ⟨long, longRun, longLeaves, -⟩ :=
    @vsnprintf_leaves args num fmt buf m before terminated supported
      bound fits
  obtain ⟨count, countRun, isCount⟩ := vscnprintf_count shortRun
  have same : short.value = long.value :=
    BitVec.eq_of_toNat_eq (shortLeaves.value.trans longLeaves.value.symm)
  exact ⟨short, long, count, shortRun, longRun, same, shortLeaves, longLeaves,
    countRun, isCount⟩

/-- `%s=%d` with the null pointer and seven, in a buffer of four bytes and one
of twenty. -/
theorem truncation_law_null :
    ∃ short long count,
      vsnprintf ⟨fun index => if index = 0 then 0 else 7, fun _ => 0⟩ 0 4096 4
        [ch '%', ch 's', ch '=', ch '%', ch 'd', 0] ⟨fun _ => 1, []⟩ =
          some short ∧
      vsnprintf ⟨fun index => if index = 0 then 0 else 7, fun _ => 0⟩ 0 4096 20
        [ch '%', ch 's', ch '=', ch '%', ch 'd', 0] ⟨fun _ => 1, []⟩ =
          some long ∧
      short.value = long.value ∧
      Leaves 4096 4 (nullText ++ [ch '=', ch '7']) ⟨fun _ => 1, []⟩ short ∧
      Leaves 4096 20 (nullText ++ [ch '=', ch '7']) ⟨fun _ => 1, []⟩ long ∧
      vscnprintf ⟨fun index => if index = 0 then 0 else 7, fun _ => 0⟩ 0 4096 4
        [ch '%', ch 's', ch '=', ch '%', ch 'd', 0] ⟨fun _ => 1, []⟩ =
          some (count, short) ∧
      count.toNat = min short.value.toNat 3 := by
  have isText : formatText
      ⟨fun index => if index = 0 then 0 else 7, fun _ => 0⟩ 0
      [ch '%', ch 's', ch '=', ch '%', ch 'd', 0] =
        nullText ++ [ch '=', ch '7'] := by
    decide +kernel
  have supported : SupportedFormat
      ⟨fun index => if index = 0 then 0 else 7, fun _ => 0⟩ 0
      [ch '%', ch 's', ch '=', ch '%', ch 'd', 0] := by
    apply @SupportedFormat.of_check _ _ _ 4
    decide +kernel
  have law := @truncation_law _ _ _ (by decide) supported 4096 4 20
    (by decide) (by decide) (by rw [isText]; decide)
    ⟨fun _ => 1, []⟩
  rw [isText] at law
  exact law

/-! ## Where the law fails -/

theorem strnlen_eq {s : Nat → Byte} {length count : Nat}
    (chars : ∀ index, index < length → s index ≠ 0) (ends : s length = 0)
    (within : length < count) : strnlen s count = length := by
  induction length generalizing s count with
  | zero =>
      cases count with
      | zero => cases within
      | succ count => exact if_pos ends
  | succ length inductionHypothesis =>
      cases count with
      | zero => cases within
      | succ count =>
          have later : ∀ index, index < length → s (index + 1) ≠ 0 :=
            fun index below => chars (index + 1) (Nat.succ_lt_succ below)
          rw [strnlen, if_neg (chars 0 (Nat.succ_pos length)),
            @inductionHypothesis (fun index => s (index + 1)) count later ends
              (Nat.lt_of_succ_lt_succ within)]

theorem toInt_of_large {n : Nat} (large : 2 ^ 31 ≤ n) (bound : n < 2 ^ 32) :
    (BitVec.ofNat 32 n).toInt = (n : Int) - 2 ^ 32 := by
  have value : (BitVec.ofNat 32 n).toNat = n := by
    rw [BitVec.toNat_ofNat]
    exact Nat.mod_eq_of_lt bound
  rw [BitVec.toInt_eq_toNat_cond, value, if_neg (by omega)]
  rfl

/-- A string whose length is a negative `int` is padded without end. -/
theorem string_eq_none {limit s : Word} {bytes : Nat → Byte}
    {spec : PrintfSpec} {length : Nat}
    (isLength : strnlen (stringSource bytes s)
      (spec.precision.signExtend 32).toNat = length)
    (notInt : 2 ^ 31 ≤ length) (bound : length < 2 ^ 32 - 2 ^ 15)
    (o : Output) : string limit bytes s spec o = none := by
  have always : ∀ width, shorterThan (BitVec.ofNat 32 length) width = true := by
    intro width
    have low := @BitVec.le_toInt 16 width
    apply decide_eq_true
    rw [toInt_of_large notInt (by omega)]
    omega
  have endless : ∀ count o, padIf true (shorterThan (BitVec.ofNat 32 length))
      (ch ' ') limit count o = none :=
    fun count o => emitWhile_eq_none always (ch ' ') limit (2 ^ 16) count o
  rw [string, isLength]
  change (padIf (decide (spec.flags &&& LEFT = 0)) _ _ _ _ _).bind _ = none
  cases decide (spec.flags &&& LEFT = 0) with
  | true =>
      rw [endless]
      rfl
  | false =>
      change (padIf true _ _ _ _ (stringLoop _ _ _ _ o)).bind _ = none
      rw [endless]
      rfl

/-- A call that prints such a string does not return. -/
theorem vsnprintf_string_eq_none {args : Arguments} {num : BitVec 64}
    {buf size : Word} {before : Memory} {length : Nat}
    (isLength : strnlen (stringSource args.bytes (args.words 0)) 4294967295 =
      length)
    (notInt : 2 ^ 31 ≤ length) (bound : length < 2 ^ 32 - 2 ^ 15)
    (sizeInt : size.toNat < 2 ^ 31) :
    vsnprintf args num buf size [ch '%', ch 's', 0] before = none := by
  have positive : ¬ size.toInt < 0 := by
    rw [BitVec.toInt_eq_toNat_of_lt (by omega)]
    omega
  have decoded : formatDecode [ch '%', ch 's', 0] .zero =
      some ([0], ⟨.str, 0, 10, 0xFF, -1, -1⟩) := by
    decide +kernel
  have loop : ∀ limit fuel, vsnLoop args buf limit (fuel + 1)
      ((startReading [ch '%', ch 's', 0] num).state ⟨buf, before⟩ []) =
        none := by
    intro limit fuel
    have turn := @vsnTurn_str args buf limit [0] ⟨.str, 0, 10, 0xFF, -1, -1⟩
      ((startReading [ch '%', ch 's', 0] num).state ⟨buf, before⟩ []) decoded
      rfl
    have endless := @string_eq_none limit (args.words 0) args.bytes
      ⟨.str, 0, 10, 0xFF, -1, -1⟩ length isLength notInt bound ⟨buf, before⟩
    have stuck := turn.trans (congrArg (Option.map _) endless)
    have notEnd : ([ch '%', ch 's', 0] : List Byte).head? ≠ some 0 := by
      decide
    rw [vsnLoop_turn notEnd (List.cons_ne_nil _ _), stuck]
    rfl
  rw [vsnprintf, if_neg positive]
  change (vsnLoop args buf _ _ ((startReading [ch '%', ch 's', 0] num).state
    ⟨buf, before⟩ [])).bind _ = none
  rw [loop]
  rfl

theorem accepts_literal {c : Byte} (plain : ∀ state, literalStep c state =
    some ()) (count : Nat) :
    Accepts literalStep (List.replicate count c) () () := by
  induction count with
  | zero => exact Accepts.nil ()
  | succ count inductionHypothesis =>
      exact Accepts.cons (plain ()) inductionHypothesis

theorem formatDecode_literal {c : Byte} (plain : ∀ state, literalStep c state =
    some ()) {count : Nat} (nonempty : 0 < count) :
    formatDecode (List.replicate count c ++ [0]) .zero = some ([0], .zero) := by
  have scanned : scan literalStep (List.replicate count c ++ [0]) () =
      some ([0], ()) :=
    scan_append [] (accepts_literal plain count) rfl
  have read : ([0] : List Byte).length ≠
      (List.replicate count c ++ [0]).length := by
    rw [List.length_append, List.length_replicate, List.length_singleton]
    omega
  apply formatDecode_returned
  rw [decodeToQualifier_notPending ⟨by decide, by decide⟩, decodeToken,
    scanned]
  exact if_pos (Or.inl read)

/-- A literal part whose length is a negative `int` is copied as a whole. -/
theorem copyLiteral_of_large {limit : Word} {oldFmt : List Byte} {read : Nat}
    {o : Output} (available : read ≤ oldFmt.length) (notInt : 2 ^ 31 ≤ read)
    (fits : o.cursor.toNat + read < 2 ^ 32)
    (below : o.cursor.toNat < limit.toNat)
    (near : limit.toNat < o.cursor.toNat + 2 ^ 31) :
    copyLiteral limit oldFmt read o = some
      { cursor := o.cursor + BitVec.ofNat 32 read
        memory := (emitAll 0xFFFFFFFF (oldFmt.take read) o).memory } := by
  have length : (oldFmt.take read).length = read :=
    List.length_take_of_le available
  have notMore : ¬ (limit - o.cursor).toInt < (BitVec.ofNat 32 read).toInt := by
    rw [roomLeft_toInt below near, toInt_of_large notInt (by omega)]
    omega
  have copy : (BitVec.ofNat 32 read).toNat = read := by
    rw [BitVec.toNat_ofNat]
    exact Nat.mod_eq_of_lt (by omega)
  have inside : o.cursor.toNat + (oldFmt.take read).length ≤
      (0xFFFFFFFF : Word).toNat := by
    rw [length]
    change _ ≤ 4294967295
    omega
  have less : o.cursor < limit := below
  rw [copyLiteral, if_neg notMore, if_pos less, copy, if_pos available,
    memcpy_eq inside]

/-- The loop over a format that is one literal part. -/
theorem vsnLoop_literal {args : Arguments} {num : BitVec 64}
    {buf limit : Word} {out out' : Output} {c : Byte}
    (plain : ∀ state, literalStep c state = some ()) {count : Nat}
    (positive : 0 < count)
    (copied : copyLiteral limit (List.replicate count c ++ [0]) count out =
      some out') :
    ∃ s, vsnLoop args buf limit
        (2 * (List.replicate count c ++ [0]).length + 1)
        ((startReading (List.replicate count c ++ [0]) num).state out []) =
          some s ∧ s.out = out' := by
  have length : (List.replicate count c ++ [0]).length = count + 1 := by
    rw [List.length_append, List.length_replicate, List.length_singleton]
  have decoded := @formatDecode_literal c plain count positive
  have turn := @vsnTurn_none args buf limit [0] .zero
    ((startReading (List.replicate count c ++ [0]) num).state out []) decoded
    rfl
  have read : ((startReading (List.replicate count c ++ [0]) num).state
      out []).fmt.length - ([0] : List Byte).length = count :=
    Nat.sub_eq_of_eq_add length
  rw [read] at turn
  have turned := turn.trans (congrArg (Option.map _) copied)
  have notEnd : (List.replicate count c ++ [0]).head? ≠ some 0 := by
    cases count with
    | zero => exact absurd positive (by decide)
    | succ count =>
        intro zero
        rw [Option.some.inj zero] at plain
        exact absurd (plain ()) (by decide)
  have notEmpty : List.replicate count c ++ [0] ≠ [] :=
    List.append_ne_nil_of_right_ne_nil _ (List.cons_ne_nil 0 [])
  have fuel : 2 * count + 2 + 1 =
      2 * (List.replicate count c ++ [0]).length + 1 := by
    rw [length, Nat.mul_succ]
  have run := (@vsnLoop_step args buf limit _ _ (2 * count + 2) notEnd notEmpty
    turned).trans (vsnLoop_ended rfl (2 * count + 1))
  rw [fuel] at run
  exact ⟨_, run, rfl⟩

/-- Such a part is also written behind the end of the buffer. -/
theorem literal_behind_buffer {args : Arguments} {num : BitVec 64}
    {buf size : Word} {before : Memory} {c : Byte}
    (plain : ∀ state, literalStep c state = some ()) {count : Nat}
    (notInt : 2 ^ 31 ≤ count) (fits : buf.toNat + count < 2 ^ 32)
    (positive : 0 < size.toNat) (bound : size.toNat < 2 ^ 31) :
    ∃ result, vsnprintf args num buf size (List.replicate count c ++ [0])
        before = some result ∧
      result.memory.bytes (buf.toNat + size.toNat) = c := by
  have isLimit : (bufferLimit buf size).toNat = buf.toNat + size.toNat := by
    rw [bufferLimit_toNat]
    omega
  have kept : (keptSize buf size).toNat = size.toNat := by
    rw [keptSize_toNat, isLimit]
    omega
  have length : (List.replicate count c ++ [0]).length = count + 1 := by
    rw [List.length_append, List.length_replicate, List.length_singleton]
  have isText : (List.replicate count c ++ [0]).take count =
      List.replicate count c :=
    List.take_left' List.length_replicate
  have copied := @copyLiteral_of_large (bufferLimit buf size)
    (List.replicate count c ++ [0]) count ⟨buf, before⟩
    (by rw [length]; exact Nat.le_succ count) notInt fits
    (by rw [isLimit]; exact Nat.lt_add_of_pos_right positive)
    (by rw [isLimit]; exact Nat.add_lt_add_left bound _)
  rw [isText] at copied
  obtain ⟨s, run, isOut⟩ :=
    @vsnLoop_literal args num buf _ _ _ c plain count (by omega) copied
  refine ⟨_, vsnprintf_of_loop bound run, ?_⟩
  have cursor : (buf + BitVec.ofNat 32 count).toNat = buf.toNat + count := by
    rw [BitVec.toNat_add, BitVec.toNat_ofNat, Nat.add_mod_mod]
    exact Nat.mod_eq_of_lt fits
  have written := @emitAll_bytes 0xFFFFFFFF (List.replicate count c)
    ⟨buf, before⟩ (by rw [List.length_replicate]; exact fits)
    (buf.toNat + size.toNat)
  have inside : buf.toNat ≤ buf.toNat + size.toNat ∧
      buf.toNat + size.toNat < (0xFFFFFFFF : Word).toNat := by
    change _ ∧ _ < 4294967295
    omega
  have other : ¬ buf.toNat + size.toNat =
      buf.toNat + min count ((keptSize buf size).toNat - 1) := by
    omega
  change _ = if buf.toNat ≤ _ ∧ _ then
    (List.replicate count c)[_ - buf.toNat]?.getD _ else _ at written
  rw [if_pos inside, Nat.add_sub_cancel_left, List.getElem?_replicate,
    if_pos (by omega), Option.getD_some] at written
  change (terminate (bufferLimit buf size) (keptSize buf size) s.out).bytes _ =
    c
  rw [isOut, terminate_eq (bufferLimit_eq_add buf size) cursor (by omega)]
  exact (if_neg other).trans written

/-- A string of `2 ^ 31` characters behind the first page. -/
def longString (address : Nat) : Byte :=
  if address < 4096 + 2 ^ 31 then ch 'a' else 0

theorem longString_length :
    strnlen (stringSource longString 4096) 4294967295 = 2 ^ 31 := by
  have character : ∀ index, index ≤ 2 ^ 31 →
      stringSource longString 4096 index = longString (4096 + index) := by
    intro index below
    have notNull : ¬ (4096 : Word) < PAGE_SIZE := by
      decide
    have address : (4096 + BitVec.ofNat 32 index).toNat = 4096 + index := by
      have base : (4096 : Word).toNat = 4096 := rfl
      rw [BitVec.toNat_add, BitVec.toNat_ofNat, base]
      omega
    rw [stringSource, if_neg notNull, address]
  apply strnlen_eq
  · intro index below
    rw [character index (Nat.le_of_lt below), longString,
      if_pos (Nat.add_lt_add_left below 4096)]
    decide
  · rw [character _ (Nat.le_refl _), longString, if_neg (Nat.lt_irrefl _)]
  · decide

/-- Behind the end of the address space the cursor starts again: of a text of
21 characters for a buffer of eight bytes, the last one is written to the
address four.  A call with a string of `2 ^ 31` characters does not return, and
a literal part of that length is written past the end of the buffer. -/
theorem truncation_law_fails :
    (SupportedFormat ⟨fun _ => 0, fun _ => 0⟩ 0
        (List.replicate 20 (ch 'a') ++ [ch '%', ch '%', 0]) ∧
      ∃ result,
        vsnprintf ⟨fun _ => 0, fun _ => 0⟩ 0 0xFFFFFFF0 8
          (List.replicate 20 (ch 'a') ++ [ch '%', ch '%', 0])
          ⟨fun _ => 0, []⟩ = some result ∧
        result.value = 21 ∧ result.memory.bytes 4 = ch '%' ∧
        ¬ Leaves 0xFFFFFFF0 8
          (formatText ⟨fun _ => 0, fun _ => 0⟩ 0
            (List.replicate 20 (ch 'a') ++ [ch '%', ch '%', 0]))
          ⟨fun _ => 0, []⟩ result) ∧
    vsnprintf ⟨fun _ => 4096, longString⟩ 0 0xC0000000 8
      [ch '%', ch 's', 0] ⟨fun _ => 0, []⟩ = none ∧
    ∃ result,
      vsnprintf ⟨fun _ => 0, fun _ => 0⟩ 0 4096 8
        (List.replicate (2 ^ 31) (ch 'a') ++ [0]) ⟨fun _ => 0, []⟩ =
          some result ∧
      result.memory.bytes 4104 = ch 'a' := by
  refine ⟨⟨?_, ?_⟩, ?_, ?_⟩
  · apply @SupportedFormat.of_check _ _ _ 4
    decide +kernel
  · have run : (vsnprintf ⟨fun _ => 0, fun _ => 0⟩ 0 0xFFFFFFF0 8
        (List.replicate 20 (ch 'a') ++ [ch '%', ch '%', 0])
        ⟨fun _ => 0, []⟩).map (fun result =>
          (result.value, result.memory.bytes 4)) = some (21, ch '%') := by
      decide +kernel
    obtain ⟨result, isResult, observed⟩ := Option.map_eq_some_iff.mp run
    obtain ⟨value, written⟩ := Prod.mk.inj observed
    refine ⟨result, isResult, value, written, ?_⟩
    intro leaves
    have same := leaves.writes.unchanged 4 (by decide)
    rw [written] at same
    exact absurd same (by decide)
  · exact vsnprintf_string_eq_none longString_length (by decide) (by decide)
      (by decide)
  · exact literal_behind_buffer (by decide) (by decide) (by decide) (by decide)
      (by decide)

end Hlos.Libs
