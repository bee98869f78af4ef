import Hlos.Libs.FormatRun

/-!
# The text of a format

What a format prints with its arguments, said without a buffer: the literal
parts and the texts of the conversions one behind the other.  A turn of the
loop prints its part wherever the cursor stands, as long as the cursor does not
wrap around.
-/

namespace Hlos.Libs

open Hlos.Lib Hlos.Lib.Output Hlos.Include

/-- The text of one token. -/
def tokenText (args : Arguments) (r : Reading) (fmt : List Byte)
    (spec : PrintfSpec) : List Byte :=
  let word := args.words r.ap
  match spec.type with
  | .none => r.fmt.take (r.fmt.length - fmt.length)
  | .width | .precision | .ptr | .nrchars => []
  | .percentChar | .invalid => [ch '%']
  | .char => printed fun limit => printChar limit word spec
  | .str => printed fun limit => string limit args.bytes word spec
  | type => printed fun limit => number limit (fetch args type r.num r.ap).1 spec

/-- The texts of all tokens that follow. -/
def remainingText (args : Arguments) : (fuel : Nat) → Reading → List Byte
  | 0, _ => []
  | fuel + 1, r =>
      if r.fmt.head? = some 0 then []
      else
        match formatDecode r.fmt r.spec with
        | none => []
        | some (fmt, spec) =>
            tokenText args r fmt spec ++
              remainingText args fuel
                (takeArguments args { r with fmt := fmt, spec := spec })

def formatText (args : Arguments) (num : BitVec 64) (fmt : List Byte) :
    List Byte :=
  remainingText args (2 * fmt.length + 1) (startReading fmt num)

/-! ## The supported formats -/

/-- In this turn no qualifier is read, a decimal argument is below a hundred
million, and the length of a literal part or of a string is an `int`. -/
structure SupportedTurn (args : Arguments) (r : Reading) : Prop where
  unqualified : Unqualified r.fmt r.spec
  decimal : ∀ fmt spec, formatDecode r.fmt r.spec = some (fmt, spec) →
    spec.type.isInteger = true → spec.base = 10 →
    numberMagnitude (fetch args spec.type r.num r.ap).1 spec < 100000000
  literals : ∀ fmt spec, formatDecode r.fmt r.spec = some (fmt, spec) →
    spec.type = .none → r.fmt.length - fmt.length < 2 ^ 31
  strings : ∀ fmt spec, formatDecode r.fmt r.spec = some (fmt, spec) →
    spec.type = .str →
    strnlen (stringSource args.bytes (args.words r.ap))
      (spec.precision.signExtend 32).toNat < 2 ^ 31

/-- Every turn that the loop takes is supported. -/
def SupportedFormat (args : Arguments) (num : BitVec 64) (fmt : List Byte) :
    Prop :=
  ∀ r, (formatMachine args).Reaches (startReading fmt num) r →
    r.fmt.head? ≠ some 0 → SupportedTurn args r

/-- No turn stores a count, as `%n` does. -/
def NoCount (args : Arguments) (num : BitVec 64) (fmt : List Byte) : Prop :=
  ∀ r, (formatMachine args).Reaches (startReading fmt num) r →
    r.fmt.head? ≠ some 0 → ∀ rest spec,
      formatDecode r.fmt r.spec = some (rest, spec) → spec.type ≠ .nrchars

/-! ## Texts of conversions -/

/-- The conversion prints a text, which is not longer than memory. -/
def PrintsShort (run : Word → Output → Option Output) : Prop :=
  ∃ text, Prints run text ∧ text.length < 2 ^ 32 - 1

theorem PrintsShort.printed {run : Word → Output → Option Output}
    (prints : PrintsShort run) : Prints run (Output.printed run) := by
  obtain ⟨text, isText, short⟩ := prints
  rw [isText.printed_eq short]
  exact isText

theorem printChar_prints (arg : Word) (spec : PrintfSpec) :
    PrintsShort fun limit => printChar limit arg spec := by
  have ends : charWidthLeft 0 = false := by decide
  obtain ⟨lead, left, leadRun⟩ := exists_padRun ends spec.fieldWidth
    (spec.flags &&& LEFT = 0)
  obtain ⟨trail, left', trailRun⟩ := exists_padRun ends left true
  refine ⟨List.replicate lead (ch ' ') ++ (arg.setWidth 8 ::
    List.replicate trail (ch ' ')), ?_, ?_⟩
  · intro limit o
    change (padIf _ _ _ _ _ _).bind _ = _
    rw [leadRun.eq]
    change (padIf _ _ _ _ left _).bind _ = _
    rw [trailRun.eq, emitAll_append]
    rfl
  · have first := leadRun.times_lt
    have second := trailRun.times_lt
    simp only [List.length_append, List.length_cons, List.length_replicate]
    omega

theorem stringLoop_eq (limit : Word) (s : Nat → Byte) (left i : Nat)
    (o : Output) :
    stringLoop limit s left i o =
      emitAll limit ((List.range' i left).map s) o := by
  induction left generalizing i o with
  | zero => rfl
  | succ left inductionHypothesis =>
      rw [stringLoop, inductionHypothesis, List.range'_succ, List.map_cons]
      rfl

theorem string_prints {bytes : Nat → Byte} {s : Word} {spec : PrintfSpec}
    (isInt : strnlen (stringSource bytes s)
      (spec.precision.signExtend 32).toNat < 2 ^ 31) :
    PrintsShort fun limit => string limit bytes s spec := by
  let len : Word := BitVec.ofNat 32 (strnlen (stringSource bytes s)
    (spec.precision.signExtend 32).toNat)
  have value : len.toInt = strnlen (stringSource bytes s)
      (spec.precision.signExtend 32).toNat := by
    have isNat : len.toNat = strnlen (stringSource bytes s)
        (spec.precision.signExtend 32).toNat := by
      rw [BitVec.toNat_ofNat]
      omega
    rw [BitVec.toInt_eq_toNat_of_lt (by omega), isNat]
  have ends : shorterThan len 0 = false := by
    apply decide_eq_false
    change ¬ len.toInt < 0
    omega
  obtain ⟨lead, left, leadRun⟩ := exists_padRun ends spec.fieldWidth
    (spec.flags &&& LEFT = 0)
  obtain ⟨trail, left', trailRun⟩ := exists_padRun ends left true
  refine ⟨List.replicate lead (ch ' ') ++
    ((List.range' 0 len.toInt.toNat).map (stringSource bytes s) ++
      List.replicate trail (ch ' ')), ?_, ?_⟩
  · intro limit o
    change (padIf _ (shorterThan len) _ _ _ _).bind _ = _
    rw [leadRun.eq]
    change (padIf _ _ _ _ left (stringLoop _ _ _ _ _)).bind _ = _
    rw [stringLoop_eq, trailRun.eq, emitAll_append, emitAll_append]
    rfl
  · have first := leadRun.times_lt
    have second := trailRun.times_lt
    simp only [List.length_append, List.length_map, List.length_range',
      List.length_replicate]
    omega

theorem number_prints {num : BitVec 64} {spec : PrintfSpec}
    (known : spec.base = 8 ∨ spec.base = 10 ∨ spec.base = 16)
    (decimal : spec.base = 10 → numberMagnitude num spec < 100000000) :
    PrintsShort fun limit => number limit num spec := by
  have printable : Printable (numberSign num spec).num spec.base := by
    refine ⟨known, ?_⟩
    rw [numberSign_num]
    exact decimal
  obtain ⟨text, prints, short⟩ := exists_numberText printable
  exact ⟨text, prints, by omega⟩

/-! ## Literal text -/

/-- The text fits behind the cursor, and the limit is not so far away that
pointer differences become negative. -/
structure Room (limit : Word) (o : Output) (count : Nat) : Prop where
  cursor : o.cursor.toNat + count < 2 ^ 32
  limit : limit.toNat < o.cursor.toNat + 2 ^ 31

theorem memcpy_eq {limit : Word} {text : List Byte} {o : Output}
    (inside : o.cursor.toNat + text.length ≤ limit.toNat) :
    memcpy o.cursor text o.memory = (emitAll limit text o).memory := by
  have bound := limit.isLt
  induction text generalizing o with
  | nil => rfl
  | cons c text inductionRest =>
      rw [List.length_cons] at inside
      have next : (emit limit c o).cursor.toNat = o.cursor.toNat + 1 :=
        emit_cursor_toNat c (by omega)
      have stored : (emit limit c o).memory =
          o.memory.store8 o.cursor.toNat c := emit_memory_of_lt c (by omega)
      rw [emitAll, ← inductionRest (by omega), stored]
      rfl

/-- What is printed behind the limit leaves no trace. -/
theorem emitAll_take_memory {limit : Word} {text : List Byte} {o : Output}
    (room : o.cursor.toNat + text.length < 2 ^ 32)
    (below : o.cursor.toNat < limit.toNat) :
    (emitAll limit (text.take (limit.toNat - o.cursor.toNat)) o).memory =
      (emitAll limit text o).memory := by
  by_cases fits : text.length ≤ limit.toNat - o.cursor.toNat
  · rw [List.take_of_length_le fits]
  · have length :
        (text.take (limit.toNat - o.cursor.toNat)).length =
          limit.toNat - o.cursor.toNat :=
      List.length_take_of_le (by omega)
    have cursor : (emitAll limit
        (text.take (limit.toNat - o.cursor.toNat)) o).cursor.toNat =
          limit.toNat := by
      rw [emitAll_cursor_toNat (by omega), length]
      omega
    have rest : (text.drop (limit.toNat - o.cursor.toNat)).length =
        text.length - (limit.toNat - o.cursor.toNat) := List.length_drop
    conv =>
      rhs
      rw [← List.take_append_drop (limit.toNat - o.cursor.toNat) text,
        emitAll_append]
    exact (emitAll_memory_of_beyond (by omega) cursor.ge).symm

/-- The room behind the cursor is a positive `int`. -/
theorem roomLeft_toInt {limit cursor : Word}
    (below : cursor.toNat < limit.toNat)
    (near : limit.toNat < cursor.toNat + 2 ^ 31) :
    (limit - cursor).toInt = (limit.toNat - cursor.toNat : Nat) := by
  have space : (limit - cursor).toNat = limit.toNat - cursor.toNat :=
    BitVec.toNat_sub_of_le (Nat.le_of_lt below)
  rw [BitVec.toInt_eq_toNat_of_lt (by omega), space]

/-- The copied characters are those that fit. -/
theorem copyLiteral_eq {limit : Word} {oldFmt : List Byte} {read : Nat}
    {o : Output} (available : read ≤ oldFmt.length) (isInt : read < 2 ^ 31)
    (room : Room limit o read) :
    copyLiteral limit oldFmt read o =
      some (emitAll limit (oldFmt.take read) o) := by
  have fits := room.cursor
  have near := room.limit
  have length : (oldFmt.take read).length = read :=
    List.length_take_of_le available
  rw [← length] at fits
  have cursor : o.cursor + BitVec.ofNat 32 read =
      (emitAll limit (oldFmt.take read) o).cursor := by
    rw [emitAll_cursor, length]
  by_cases below : o.cursor < limit
  · have less : o.cursor.toNat < limit.toNat := below
    have space : (limit - o.cursor).toNat = limit.toNat - o.cursor.toNat :=
      BitVec.toNat_sub_of_le (Nat.le_of_lt less)
    have copy : (BitVec.ofNat 32 read).toNat = read := by
      rw [BitVec.toNat_ofNat]
      omega
    have copyInt : (BitVec.ofNat 32 read).toInt = (BitVec.ofNat 32 read).toNat :=
      BitVec.toInt_eq_toNat_of_lt (by omega)
    have count : (if (limit - o.cursor).toInt < (BitVec.ofNat 32 read).toInt
        then limit - o.cursor else BitVec.ofNat 32 read).toNat =
          min (limit.toNat - o.cursor.toNat) read := by
      rw [roomLeft_toInt less near, copyInt]
      split <;> omega
    have stored := @memcpy_eq limit
      ((oldFmt.take read).take (limit.toNat - o.cursor.toNat)) o
      (by rw [List.length_take, length]; omega)
    rw [emitAll_take_memory fits less, List.take_take] at stored
    rw [copyLiteral, if_pos below]
    change (if (if (limit - o.cursor).toInt < (BitVec.ofNat 32 read).toInt
      then limit - o.cursor else BitVec.ofNat 32 read).toNat ≤ _ then
        some (Output.mk _ (memcpy _ (oldFmt.take (if (limit - o.cursor).toInt <
          (BitVec.ofNat 32 read).toInt then limit - o.cursor
          else BitVec.ofNat 32 read).toNat) _)) else none) = _
    rw [count, if_pos (by omega), stored, cursor]
  · have beyond : limit.toNat ≤ o.cursor.toNat := Nat.not_lt.mp below
    rw [copyLiteral, if_neg below, cursor,
      ← emitAll_memory_of_beyond fits beyond]

/-! ## Turns and runs -/

/-- The state of the loop, with its output. -/
def Reading.state (r : Reading) (out : Output) (counts : List (Word × Word)) :
    PrintState :=
  ⟨r.fmt, r.ap, r.spec, r.num, out, counts⟩

section Turns

variable {args : Arguments} {buf limit : Word} {r : Reading}
  {fmt : List Byte} {spec : PrintfSpec} {out : Output}

theorem tokenText_integer (integer : spec.type.isInteger = true) :
    tokenText args r fmt spec = printed fun limit =>
      number limit (fetch args spec.type r.num r.ap).1 spec := by
  cases spec with
  | mk type => cases type <;> cases integer <;> rfl

theorem takeArguments_integer (integer : spec.type.isInteger = true) :
    takeArguments args { r with fmt := fmt, spec := spec } = { r with
      fmt := fmt, spec := spec
      num := (fetch args spec.type r.num r.ap).1
      ap := (fetch args spec.type r.num r.ap).2 } := by
  cases spec with
  | mk type => cases type <;> cases integer <;> rfl

theorem takeArguments_none (isNone : spec.type = .none) :
    takeArguments args { r with fmt := fmt, spec := spec } =
      { r with fmt := fmt, spec := spec } := by
  simp only [takeArguments, isNone]

theorem takeArguments_word (isWord : spec.type = .char ∨ spec.type = .str) :
    takeArguments args { r with fmt := fmt, spec := spec } =
      { r with fmt := fmt, spec := spec, ap := r.ap + 1 } := by
  cases isWord with
  | inl isChar => simp only [takeArguments, isChar]
  | inr isStr => simp only [takeArguments, isStr]

theorem vsnTurn_none {s : PrintState}
    (decoded : formatDecode s.fmt s.spec = some (fmt, spec))
    (isNone : spec.type = .none) :
    vsnTurn args buf limit s =
      (copyLiteral limit s.fmt (s.fmt.length - fmt.length) s.out).map
        fun out => { s with fmt := fmt, spec := spec, out := out } := by
  rw [vsnTurn, decoded]
  cases spec
  cases isNone
  exact Option.map_eq_bind.symm

theorem vsnTurn_char {s : PrintState}
    (decoded : formatDecode s.fmt s.spec = some (fmt, spec))
    (isChar : spec.type = .char) :
    vsnTurn args buf limit s =
      (printChar limit (args.words s.ap) spec s.out).map fun out =>
        { s with fmt := fmt, spec := spec, out := out, ap := s.ap + 1 } := by
  rw [vsnTurn, decoded]
  cases spec
  cases isChar
  exact Option.map_eq_bind.symm

theorem vsnTurn_str {s : PrintState}
    (decoded : formatDecode s.fmt s.spec = some (fmt, spec))
    (isStr : spec.type = .str) :
    vsnTurn args buf limit s =
      (string limit args.bytes (args.words s.ap) spec s.out).map fun out =>
        { s with fmt := fmt, spec := spec, out := out, ap := s.ap + 1 } := by
  rw [vsnTurn, decoded]
  cases spec
  cases isStr
  exact Option.map_eq_bind.symm

/-- The tokens that print nothing, or a percent sign. -/
def FormatType.isPlain : FormatType → Bool
  | width | precision | ptr | percentChar | invalid | nrchars => true
  | _ => false

theorem FormatType.kinds (type : FormatType) :
    type.isInteger = true ∨ type.isPlain = true ∨ type = .none ∨
      type = .char ∨ type = .str := by
  cases type <;> decide

theorem vsnTurn_plain
    (decoded : formatDecode r.fmt r.spec = some (fmt, spec))
    (isPlain : spec.type.isPlain = true) (counts : List (Word × Word)) :
    ∃ counts', (spec.type ≠ .nrchars → counts' = counts) ∧
      vsnTurn args buf limit (r.state out counts) =
        some ((takeArguments args { r with fmt := fmt, spec := spec }).state
          (emitAll limit (tokenText args r fmt spec) out) counts') := by
  have turn : vsnTurn args buf limit (r.state out counts) =
      (formatDecode r.fmt r.spec).bind _ := rfl
  rw [decoded] at turn
  cases spec with
  | mk type =>
      cases type with
      | nrchars => exact ⟨_, fun other => absurd rfl other, turn⟩
      | width => exact ⟨counts, fun _ => rfl, turn⟩
      | precision => exact ⟨counts, fun _ => rfl, turn⟩
      | ptr => exact ⟨counts, fun _ => rfl, turn⟩
      | percentChar => exact ⟨counts, fun _ => rfl, turn⟩
      | invalid => exact ⟨counts, fun _ => rfl, turn⟩
      | _ => cases isPlain

/-- A turn prints the text of its token. -/
theorem vsnTurn_prints
    (decoded : formatDecode r.fmt r.spec = some (fmt, spec))
    (known : spec.type.isInteger = true →
      spec.base = 8 ∨ spec.base = 10 ∨ spec.base = 16)
    (supported : SupportedTurn args r)
    (room : Room limit out (tokenText args r fmt spec).length)
    (counts : List (Word × Word)) :
    ∃ counts', (spec.type ≠ .nrchars → counts' = counts) ∧
      vsnTurn args buf limit (r.state out counts) =
        some ((takeArguments args { r with fmt := fmt, spec := spec }).state
          (emitAll limit (tokenText args r fmt spec) out) counts') := by
  rcases FormatType.kinds spec.type with
    integer | plain | isNone | isChar | isStr
  · have decimal := supported.decimal fmt spec decoded integer
    have text := (number_prints (known integer) decimal).printed limit out
    refine ⟨counts, fun _ => rfl, ?_⟩
    rw [tokenText_integer integer, takeArguments_integer integer,
      @vsnTurn_integer args buf limit (r.state out counts) fmt spec decoded
        integer]
    exact congrArg (Option.map _) text
  · exact vsnTurn_plain decoded plain counts
  · have turn := @vsnTurn_none args buf limit fmt spec (r.state out counts)
      decoded isNone
    have literal : tokenText args r fmt spec =
        r.fmt.take (r.fmt.length - fmt.length) := by
      rw [tokenText, isNone]
    have taken := @takeArguments_none args r fmt spec isNone
    have length : (r.fmt.take (r.fmt.length - fmt.length)).length =
        r.fmt.length - fmt.length :=
      List.length_take_of_le (Nat.sub_le _ _)
    rw [literal, length] at room
    have copied := copyLiteral_eq (Nat.sub_le _ _)
      (supported.literals fmt spec decoded isNone) room
    refine ⟨counts, fun _ => rfl, ?_⟩
    rw [literal, taken]
    exact turn.trans (congrArg (Option.map _) copied)
  · have turn := @vsnTurn_char args buf limit fmt spec (r.state out counts)
      decoded isChar
    have isText : tokenText args r fmt spec =
        printed fun limit => printChar limit (args.words r.ap) spec := by
      rw [tokenText, isChar]
    have taken := @takeArguments_word args r fmt spec (Or.inl isChar)
    have text := (printChar_prints (args.words r.ap) spec).printed limit out
    refine ⟨counts, fun _ => rfl, ?_⟩
    rw [isText, taken]
    exact turn.trans (congrArg (Option.map _) text)
  · have turn := @vsnTurn_str args buf limit fmt spec (r.state out counts)
      decoded isStr
    have isText : tokenText args r fmt spec = printed fun limit =>
        string limit args.bytes (args.words r.ap) spec := by
      rw [tokenText, isStr]
    have taken := @takeArguments_word args r fmt spec (Or.inr isStr)
    have isInt' := supported.strings fmt spec decoded isStr
    have text := (string_prints isInt').printed limit out
    refine ⟨counts, fun _ => rfl, ?_⟩
    rw [isText, taken]
    exact turn.trans (congrArg (Option.map _) text)

theorem remainingText_step {fuel : Nat} (notEnd : r.fmt.head? ≠ some 0)
    (decoded : formatDecode r.fmt r.spec = some (fmt, spec)) :
    remainingText args (fuel + 1) r =
      tokenText args r fmt spec ++ remainingText args fuel
        (takeArguments args { r with fmt := fmt, spec := spec }) := by
  rw [remainingText, if_neg notEnd, decoded]

theorem vsnLoop_ended {s : PrintState} (ended : s.fmt.head? = some 0)
    (fuel : Nat) : vsnLoop args buf limit (fuel + 1) s = some s := by
  rw [vsnLoop]
  cases isFmt : s.fmt with
  | nil =>
      rw [isFmt] at ended
      cases ended
  | cons c rest =>
      rw [isFmt] at ended
      exact if_pos (Option.some.inj ended)

theorem vsnLoop_turn {s : PrintState} {fuel : Nat}
    (notEnd : s.fmt.head? ≠ some 0) (notEmpty : s.fmt ≠ []) :
    vsnLoop args buf limit (fuel + 1) s =
      (vsnTurn args buf limit s).bind (vsnLoop args buf limit fuel) := by
  rw [vsnLoop]
  cases isFmt : s.fmt with
  | nil => exact absurd isFmt notEmpty
  | cons c rest =>
      have nonzero : c ≠ 0 := by
        intro zero
        rw [isFmt, zero] at notEnd
        exact notEnd rfl
      exact if_neg nonzero

theorem vsnLoop_step {s s' : PrintState} {fuel : Nat}
    (notEnd : s.fmt.head? ≠ some 0) (notEmpty : s.fmt ≠ [])
    (turn : vsnTurn args buf limit s = some s') :
    vsnLoop args buf limit (fuel + 1) s = vsnLoop args buf limit fuel s' := by
  rw [vsnLoop_turn notEnd notEmpty, turn]
  rfl

theorem Room.first {count more : Nat} (room : Room limit out (count + more)) :
    Room limit out count :=
  ⟨by have cursor := room.cursor; omega, room.limit⟩

theorem Room.behind {text : List Byte} {more : Nat}
    (room : Room limit out (text.length + more)) :
    Room limit (emitAll limit text out) more := by
  have cursor := room.cursor
  have near := room.limit
  have moved : (emitAll limit text out).cursor.toNat =
      out.cursor.toNat + text.length := emitAll_cursor_toNat (by omega)
  constructor
  · omega
  · omega

/-- The loop prints the text of the format, and ends at the end of the
string. -/
theorem vsnLoop_prints {num : BitVec 64} {format : List Byte} {fuel : Nat}
    (supported : SupportedFormat args num format)
    (reached : (formatMachine args).Reaches (startReading format num) r)
    (terminated : (0 : Byte) ∈ r.fmt) (enough : turnsLeft r.fmt r.spec < fuel)
    (room : Room limit out (remainingText args fuel r).length)
    (counts : List (Word × Word)) :
    ∃ (r' : Reading) (counts' : List (Word × Word)),
      r'.fmt.head? = some 0 ∧
      (NoCount args num format → counts' = counts) ∧
      vsnLoop args buf limit fuel (r.state out counts) =
        some (r'.state (emitAll limit (remainingText args fuel r) out)
          counts') := by
  induction fuel generalizing r out counts with
  | zero => cases enough
  | succ fuel inductionHypothesis =>
      by_cases ended : r.fmt.head? = some 0
      · refine ⟨r, counts, ended, fun _ => rfl, ?_⟩
        rw [remainingText, if_pos ended]
        exact vsnLoop_ended ended fuel
      · obtain ⟨fmt, spec, decoded, remains, fewer, known⟩ :=
          formatDecode_progress terminated ended
            (supported r reached ended).unqualified
        have text := @remainingText_step args r fmt spec fuel ended decoded
        rw [text, List.length_append] at room
        obtain ⟨counts', same, turn⟩ := @vsnTurn_prints args buf limit r fmt spec out
          decoded known (supported r reached ended) room.first counts
        have next := takeArguments_fmt args { r with fmt := fmt, spec := spec }
        have left := takeArguments_turnsLeft args
          { r with fmt := fmt, spec := spec }
        change _ = turnsLeft fmt spec at left
        change _ = fmt at next
        have read : readTurn args r =
            some (takeArguments args { r with fmt := fmt, spec := spec }) := by
          rw [readTurn, decoded]
          rfl
        obtain ⟨r', counts'', atEnd, later, run⟩ :=
          @inductionHypothesis
            (takeArguments args { r with fmt := fmt, spec := spec })
            (emitAll limit (tokenText args r fmt spec) out)
            (@Machine.Reaches.step _ _ _ _ _ _ () reached ended read)
            (by rw [next]; exact remains.terminated)
            (by omega) room.behind counts'
        have notEmpty : r.fmt ≠ [] := List.ne_nil_of_mem terminated
        refine ⟨r', counts'', atEnd, ?_, ?_⟩
        · intro noCount
          exact (later noCount).trans
            (same (noCount r reached ended fmt spec decoded))
        · rw [text, emitAll_append, ← run]
          exact vsnLoop_step ended notEmpty turn

end Turns

end Hlos.Libs
