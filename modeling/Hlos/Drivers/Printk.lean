import Hlos.Drivers.Screen
import Hlos.Libs.NumberLine
import Mathlib.Data.List.TakeWhile

/-!
# `printk`

The kernel's output from the format to the screen: `vscnprintf` formats into a
static buffer of 1024 bytes, and `console_vga_write` shows what stands there.
The state of the console is kept apart from memory, and so is what `%n` stores;
the results are about formats without it.
-/

namespace Hlos.Drivers

open Hlos.Lib Hlos.Include Hlos.Libs

def LOG_LINE_MAX : Word := 1024

/-- The characters that a pointer runs over. -/
def charsAt (str : Word) (count : Nat) (m : Memory) : List Byte :=
  (List.range count).map fun index => m.load8 (str.toNat + index)

structure PrintkState where
  memory : Memory
  console : Console
  counts : List (Word × Word)

/-- `console_vga_write` looks at `text_len + 1` characters at most. -/
def printk (textbuf : Word) (args : Arguments) (num : BitVec 64)
    (fmt : List Byte) (s : PrintkState) : Option (Word × PrintkState) := do
  let (text_len, result) ← vscnprintf args num textbuf LOG_LINE_MAX fmt s.memory
  let console ← consoleVgaWrite
    (charsAt textbuf (text_len.toNat + 1) result.memory) text_len s.console
  return (text_len, ⟨result.memory, console, result.counts ++ s.counts⟩)

/-- The arguments of a call. -/
structure PrintkCall where
  args : Arguments
  num : BitVec 64
  fmt : List Byte

namespace PrintkCall

/-- The text of the call, in full. -/
def text (call : PrintkCall) : List Byte :=
  formatText call.args call.num call.fmt

/-- What reaches the screen: the part that fits, up to a zero in it. -/
def shown (call : PrintkCall) : List Byte :=
  (call.text.take 1023).takeWhile (· ≠ 0)

structure Supported (textbuf : Word) (call : PrintkCall) : Prop where
  terminated : (0 : Byte) ∈ call.fmt
  format : SupportedFormat call.args call.num call.fmt
  noCount : NoCount call.args call.num call.fmt
  fits : textbuf.toNat + call.text.length + 1 < 2 ^ 32

end PrintkCall

/-- Calls one after the other, with the values that they return. -/
def printkCalls (textbuf : Word) :
    List PrintkCall → PrintkState → Option (List Word × PrintkState)
  | [], s => some ([], s)
  | call :: rest, s => do
      let (value, s) ← printk textbuf call.args call.num call.fmt s
      let (values, s) ← printkCalls textbuf rest s
      return (value :: values, s)

/-- The buffer. -/
def textArea (textbuf : Word) : Set Nat :=
  {position | textbuf.toNat ≤ position ∧ position < textbuf.toNat + 1024}

/-- A text is added to what the screen shows, only the area is written, and no
count is stored. -/
structure Printed (area : Set Nat) (old text : List Byte)
    (s s' : PrintkState) : Prop where
  screen : Shows s'.console (linesOf (old ++ text)) (topLine (old ++ text))
  writes : Memory.WritesWithin area s.memory s'.memory
  counts : s'.counts = s.counts

namespace Printed

variable {area : Set Nat} {old text more : List Byte} {s s₁ s' : PrintkState}

theorem nothing (screen : Shows s.console (linesOf old) (topLine old)) :
    Printed area old [] s s :=
  ⟨by rwa [List.append_nil], Memory.WritesWithin.refl _ _, rfl⟩

theorem trans (first : Printed area old text s s₁)
    (second : Printed area (old ++ text) more s₁ s') :
    Printed area old (text ++ more) s s' :=
  ⟨by rw [← List.append_assoc]; exact second.screen,
    first.writes.trans second.writes, second.counts.trans first.counts⟩

end Printed

/-! ## From the buffer to the screen -/

theorem written_terminated {text rest : List Byte} :
    written (text ++ 0 :: rest) text.length = text.takeWhile (· ≠ 0) := by
  induction text with
  | nil => rfl
  | cons c text inductionHypothesis =>
      rw [List.cons_append, written]
      by_cases isZero : c = 0
      · simp [isZero]
      · rw [if_pos ⟨isZero, by simp⟩, List.length_cons, Nat.add_sub_cancel,
          inductionHypothesis, List.takeWhile_cons_of_pos (by simpa using isZero)]

variable {textbuf : Word} {call : PrintkCall}

/-- The buffer holds the part of the text that fits, and a zero. -/
theorem charsAt_leaves {text : List Byte} {before : Memory}
    {result : PrintResult} (leaves : Leaves textbuf LOG_LINE_MAX text before result) :
    charsAt textbuf (min text.length 1023 + 1) result.memory =
      text.take 1023 ++ [0] := by
  have ends := leaves.terminator (by decide)
  apply List.ext_getElem?
  intro index
  rw [charsAt, List.getElem?_map]
  rcases Nat.lt_trichotomy index (min text.length 1023) with
    inside | isEnd | behind
  · have char := leaves.characters index inside
    rw [List.getElem?_range (by omega),
      List.getElem?_append_left (by rw [List.length_take]; omega),
      List.getElem?_take_of_lt (by omega), char]
    rfl
  · subst isEnd
    rw [List.getElem?_range (by omega),
      List.getElem?_append_right (by rw [List.length_take]; omega),
      List.length_take]
    have isLast : min text.length 1023 - min 1023 text.length = 0 := by omega
    rw [isLast]
    exact congrArg some ends
  · rw [List.getElem?_eq_none (by rw [List.length_range]; omega),
      List.getElem?_eq_none (by
        rw [List.length_append, List.length_take, List.length_singleton]
        omega)]
    rfl

/-- One call leaves its text in the buffer and adds it to the screen. -/
theorem printk_spec (supported : call.Supported textbuf) {s : PrintkState}
    {before : List Byte} (shows_ : Shows s.console (linesOf before) (topLine before)) :
    ∃ value s', printk textbuf call.args call.num call.fmt s =
        some (value, s') ∧
      value.toNat = min call.text.length 1023 ∧
      Printed (textArea textbuf) before call.shown s s' := by
  obtain ⟨result, run, leaves, noCounts⟩ := @vsnprintf_leaves call.args call.num call.fmt
    textbuf LOG_LINE_MAX s.memory supported.terminated supported.format
    (by decide) supported.fits
  obtain ⟨value, counted, isValue⟩ := vscnprintf_count run
  have isLength : value.toNat = min call.text.length 1023 := by
    rw [isValue, leaves.value]
    rfl
  have inBuffer : charsAt textbuf (min call.text.length 1023 + 1)
      result.memory = call.text.take 1023 ++ [0] := charsAt_leaves leaves
  have length : (call.text.take 1023).length = min call.text.length 1023 := by
    rw [List.length_take, Nat.min_comm]
  have isShown : written (call.text.take 1023 ++ [0])
      (min call.text.length 1023) = call.shown := by
    rw [← length]
    exact written_terminated
  obtain ⟨console, wrote, shows'⟩ :=
    writeCalls_shows [(call.text.take 1023 ++ [0], value)] s.console before
      shows_
  rw [writtenText, List.flatMap_singleton, isLength, isShown] at shows'
  have wrote : consoleVgaWrite (call.text.take 1023 ++ [0]) value s.console =
      some console := by
    simpa [writeCalls] using wrote
  refine ⟨value, ⟨result.memory, console, result.counts ++ s.counts⟩, ?_,
    isLength, shows', leaves.writes,
    congrArg (· ++ s.counts) (noCounts supported.noCount)⟩
  simp only [printk, counted, Option.bind_eq_bind, Option.bind_some, isLength,
    inBuffer, wrote]
  rfl

theorem printkCalls_spec (calls : List PrintkCall) (before : List Byte)
    (s : PrintkState)
    (supported : ∀ call, call ∈ calls → call.Supported textbuf)
    (shows_ : Shows s.console (linesOf before) (topLine before)) :
    ∃ values s', printkCalls textbuf calls s = some (values, s') ∧
      values.map BitVec.toNat =
        calls.map (fun call => min call.text.length 1023) ∧
      Printed (textArea textbuf) before (calls.flatMap PrintkCall.shown)
        s s' := by
  induction calls generalizing before s with
  | nil => exact ⟨[], s, rfl, rfl, Printed.nothing shows_⟩
  | cons call rest inductionRest =>
      obtain ⟨value, s₁, run, isValue, printed⟩ :=
        printk_spec (supported call List.mem_cons_self) shows_
      obtain ⟨values, s', restRun, areValues, restPrinted⟩ :=
        inductionRest _ s₁
          (fun other member => supported other (List.mem_cons_of_mem _ member))
          printed.screen
      refine ⟨value :: values, s', ?_, ?_, printed.trans restPrinted⟩
      · simp [printkCalls, run, restRun]
      · rw [List.map_cons, List.map_cons, isValue, areValues]

/-- The kernel's output reaches the screen: after `console_init` and any calls
of `printk` with supported formats the screen shows the texts one behind the
other, each cut to 1023 characters.  The calls return how many these are, write
to the buffer only and store no count. -/
theorem printk_shows (calls : List PrintkCall)
    (supported : ∀ call, call ∈ calls → call.Supported textbuf)
    (s : PrintkState) :
    ∃ console values s', consoleInit s.console = some console ∧
      printkCalls textbuf calls { s with console := console } =
        some (values, s') ∧
      values.map BitVec.toNat =
        calls.map (fun call => min call.text.length 1023) ∧
      Shows s'.console (linesOf (calls.flatMap PrintkCall.shown))
        (topLine (calls.flatMap PrintkCall.shown)) ∧
      Memory.WritesWithin (textArea textbuf) s.memory s'.memory ∧
      s'.counts = s.counts := by
  obtain ⟨console, init, shows_⟩ := consoleInit_shows s.console
  obtain ⟨values, s', run, areValues, printed⟩ :=
    printkCalls_spec calls [] { s with console := console } supported shows_
  exact ⟨console, values, s', init, run, areValues, printed.screen,
    printed.writes, printed.counts⟩

/-! ## Messages -/

section Messages

variable {before behind : List Byte} {value : Word} {m : Memory}
  {num : BitVec 64} {s : PrintkState}

/-- What a format stands for reaches the screen, cut to the buffer. -/
theorem printk_renders {format : Format} {args : Arguments} {text : List Byte}
    (supported : format.Supported args)
    (isText : ∀ rendered, format.Renders args rendered → rendered = text)
    (noZero : (0 : Byte) ∉ text)
    (fits : textbuf.toNat + text.length + 1 < 2 ^ 32)
    {old : List Byte} (shows_ : Shows s.console (linesOf old) (topLine old)) :
    ∃ count s', printk textbuf args num format.chars s = some (count, s') ∧
      Printed (textArea textbuf) old (text.take 1023) s s' := by
  obtain ⟨⟨isSupported, noCount⟩, renders⟩ := Format.formatText supported num
  have rendered : (PrintkCall.mk args num format.chars).text = text :=
    isText _ renders
  have call : PrintkCall.Supported textbuf ⟨args, num, format.chars⟩ :=
    ⟨by simp [Format.chars], isSupported, noCount,
      by rw [rendered]; exact fits⟩
  have isShown : PrintkCall.shown ⟨args, num, format.chars⟩ =
      text.take 1023 := by
    rw [PrintkCall.shown, rendered, List.takeWhile_eq_self_iff]
    intro c member
    apply decide_eq_true
    rintro rfl
    exact noZero (List.mem_of_mem_take member)
  obtain ⟨count, s', run, _, printed⟩ := printk_spec call shows_
  rw [isShown] at printed
  exact ⟨count, s', run, printed⟩

/-- The line with a number. -/
def messageText (before behind : List Byte) (value : Word) : List Byte :=
  before ++ (numeralText value.toNat ++ behind)

/-- A short message with a number below a hundred million reaches the
screen. -/
theorem printk_message (isBefore : Literal before) (isBehind : Literal behind)
    (short : before.length + behind.length ≤ 1000)
    (small : value.toNat < 100000000) (room : textbuf.toNat + 1024 ≤ 2 ^ 32)
    {old : List Byte} (shows_ : Shows s.console (linesOf old) (topLine old)) :
    ∃ count s', printk textbuf (oneArgument value m) num
        (numberLine before behind).chars s = some (count, s') ∧
      Printed (textArea textbuf) old (messageText before behind value)
        s s' := by
  have digits := numeralText_length_le small
  have length : (messageText before behind value).length ≤ 1008 := by
    simp only [messageText, List.length_append]
    omega
  have positive : value.toInt.natAbs < 100000000 := by
    rw [BitVec.toInt_eq_toNat_of_lt (by omega)]
    exact small
  have noZero : (0 : Byte) ∉ messageText before behind value := by
    simp only [messageText, List.mem_append, not_or]
    exact ⟨isBefore.noZero, numeralText_noZero _, isBehind.noZero⟩
  obtain ⟨count, s', run, printed⟩ :=
    @printk_renders textbuf num s (numberLine before behind)
      (oneArgument value m) (messageText before behind value)
      (numberLine_supported isBefore isBehind positive)
      (fun _ => numberLine_renders small) noZero (by omega) old shows_
  rw [List.take_of_length_le (by omega)] at printed
  exact ⟨count, s', run, printed⟩

/-- From a hundred million on `printk` does not return. -/
theorem printk_message_eq_none (isBefore : Literal before)
    (large : 100000000 ≤ value.toInt.natAbs) :
    printk textbuf (oneArgument value m) num (numberLine before behind).chars
      s = none := by
  rw [printk, vscnprintf, numberLine_stuck isBefore large num (by decide)]
  rfl

end Messages

/-- `printk("n=%d\n", word)`. -/
def exampleCall (word : Word) : PrintkCall :=
  ⟨⟨fun _ => word, fun _ => 0⟩, 0,
    [ch 'n', ch '=', ch '%', ch 'd', 0x0A, 0]⟩

theorem printk_shows_numbers :
    ∃ console values s',
      consoleInit ⟨0, 0, fun _ => 0, []⟩ = some console ∧
      printkCalls 0xC0107000 [exampleCall 7, exampleCall 8]
        ⟨⟨fun _ => 1, []⟩, console, []⟩ = some (values, s') ∧
      Shows s'.console
        (linesOf [ch 'n', ch '=', ch '7', 0x0A, ch 'n', ch '=', ch '8', 0x0A])
        0 := by
  have supported : ∀ call, call ∈ [exampleCall 7, exampleCall 8] →
      call.Supported 0xC0107000 := by
    intro call member
    rcases List.mem_pair.mp member with rfl | rfl <;>
      exact ⟨by decide, @SupportedFormat.of_check _ _ _ 4 (by decide +kernel),
        @NoCount.of_check _ _ _ 4 (by decide +kernel), by decide +kernel⟩
  obtain ⟨console, values, s', init, run, _, shows_, _, _⟩ :=
    printk_shows _ supported ⟨⟨fun _ => 1, []⟩, ⟨0, 0, fun _ => 0, []⟩, []⟩
  have isShown : [exampleCall 7, exampleCall 8].flatMap PrintkCall.shown =
      [ch 'n', ch '=', ch '7', 0x0A, ch 'n', ch '=', ch '8', 0x0A] := by
    decide +kernel
  rw [isShown] at shows_
  exact ⟨console, values, s', init, run, shows_⟩

end Hlos.Drivers
