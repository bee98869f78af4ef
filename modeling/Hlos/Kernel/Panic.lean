import Hlos.Drivers.Printk
import Hlos.Kernel.Ksym

/-!
# `kernel/panic.c`

`panic` prints its message and the functions on the stack, found by the chain
of frame pointers and the symbol table.
-/

set_option linter.style.nameCheck false

namespace Hlos.Kernel

open Hlos.Lib Hlos.Lib.Output Hlos.Include Hlos.Libs Hlos.Drivers

/-- The arguments of a call. -/
def callArguments (values : List Word) (m : Memory) : Arguments :=
  ⟨fun index => values.getD index 0, m.bytes⟩

def traceBefore : List Byte := [ch ' ', ch ' ', ch ' ', ch '[', ch '0', ch 'x']

def traceMiddle : List Byte := [ch ']', ch ' ']

/-- `"   [0x%x] %s\n"`. -/
def traceFormat : Format where
  segments := [⟨traceBefore, ⟨plainHead, .int .x⟩⟩,
    ⟨traceMiddle, ⟨plainHead, .str⟩⟩]
  last := [0x0A]

def panicBefore : List Byte :=
  [ch '*', ch '*', ch '*', ch ' ', ch 'S', ch 'y', ch 's', ch 't', ch 'e',
    ch 'm', ch ' ', ch 'p', ch 'a', ch 'n', ch 'i', ch 'c', ch ':', ch ' ']

/-- `"*** System panic: %s\n"`. -/
def panicFormat : Format where
  segments := [⟨panicBefore, ⟨plainHead, .str⟩⟩]
  last := [0x0A]

/-- `"***\n"`. -/
def starsFormat : Format := ⟨[], [ch '*', ch '*', ch '*', 0x0A]⟩

/-- The loop over the frames. -/
def traceLoop (k : Kallsyms) (textbuf : Word) (num : BitVec 64) :
    (fuel : Nat) → (ebp : Word) → PrintkState → Option PrintkState
  | 0, _, _ => none
  | fuel + 1, ebp, s =>
      if ebp = 0 then some s
      else do
        let eip := s.memory.load32 (ebp + 4).toNat
        let name ← ksymLookupName eip k
        let (_, s) ← printk textbuf (callArguments [eip, name] s.memory) num
          traceFormat.chars s
        traceLoop k textbuf num fuel (s.memory.load32 ebp.toNat) s

/-- `panic` up to the endless loop at its end; `ebp` is the frame pointer in
`print_stack_trace`. -/
def panic (k : Kallsyms) (textbuf : Word) (num : BitVec 64) (fuel : Nat)
    (ebp msg : Word) (s : PrintkState) : Option PrintkState := do
  let (_, s) ← printk textbuf (callArguments [msg] s.memory) num
    panicFormat.chars s
  let s ← traceLoop k textbuf num fuel ebp s
  let (_, s) ← printk textbuf (callArguments [] s.memory) num starsFormat.chars s
  return s

/-! ## Strings and frames outside the output -/

/-- The buffer of `printk` and the cells of the screen. -/
def outputArea (textbuf : Word) : Set Nat :=
  textArea textbuf ∪
    {position | 0xC00B8000 ≤ position ∧ position < 0xC00B8FA0}

instance (textbuf : Word) : DecidablePred (· ∈ outputArea textbuf) :=
  fun position => inferInstanceAs (Decidable
    ((textbuf.toNat ≤ position ∧ position < textbuf.toNat + 1024) ∨
      (0xC00B8000 ≤ position ∧ position < 0xC00B8FA0)))

/-- A string argument that the output does not overwrite. -/
structure StringArgument (textbuf : Word) (m : Memory) (s : Word)
    (chars : List Byte) : Prop where
  isString : IsString (stringSource m.bytes s) chars
  apart : ∀ index, index ≤ chars.length →
    (s + BitVec.ofNat 32 index).toNat ∉ outputArea textbuf
  short : chars.length < 2 ^ 31
  fits : textbuf.toNat + chars.length + 32 < 2 ^ 32

/-- A return address with the name of its function. -/
structure Frame where
  eip : Word
  name : Word
  chars : List Byte

/-- The frames from a frame pointer on, up to the null pointer. -/
inductive FrameChain (k : Kallsyms) (textbuf : Word) (m : Memory) :
    (ebp : Word) → List Frame → Prop where
  | nil : FrameChain k textbuf m 0 []
  | cons {ebp : Word} {frame : Frame} {rest : List Frame} : ebp ≠ 0 →
      m.load32 (ebp + 4).toNat = frame.eip →
      (∀ offset, offset < 4 → ebp.toNat + offset ∉ outputArea textbuf ∧
        (ebp + 4).toNat + offset ∉ outputArea textbuf) →
      ksymLookupName frame.eip k = some frame.name →
      StringArgument textbuf m frame.name frame.chars →
      FrameChain k textbuf m (m.load32 ebp.toNat) rest →
      FrameChain k textbuf m ebp (frame :: rest)

section Strings

variable {k : Kallsyms} {textbuf : Word} {m m' : Memory}

theorem not_textArea {position : Nat} (outside : position ∉ outputArea textbuf) :
    position ∉ textArea textbuf :=
  fun inside => outside (Or.inl inside)

theorem StringArgument.of_writes {s : Word} {chars : List Byte}
    (argument : StringArgument textbuf m s chars)
    (writes : Memory.WritesWithin (textArea textbuf) m m') :
    StringArgument textbuf m' s chars := by
  have same : ∀ index, index ≤ chars.length →
      stringSource m'.bytes s index = stringSource m.bytes s index := by
    intro index inside
    rw [stringSource, stringSource,
      writes.unchanged _ (not_textArea (argument.apart index inside))]
  refine ⟨⟨?_, ?_, argument.isString.noZero⟩, argument.apart, argument.short,
    argument.fits⟩
  · intro index inside
    rw [same index (Nat.le_of_lt inside)]
    exact argument.isString.reads index inside
  · rw [same _ (Nat.le_refl _)]
    exact argument.isString.ends

theorem FrameChain.of_writes {ebp : Word} {frames : List Frame}
    (chain : FrameChain k textbuf m ebp frames)
    (writes : Memory.WritesWithin (textArea textbuf) m m') :
    FrameChain k textbuf m' ebp frames := by
  induction chain with
  | nil => exact FrameChain.nil
  | cons nonzero isEip apart lookup name _ inductionHypothesis =>
      rw [← writes.load32_eq fun offset small =>
        not_textArea (apart offset small).1] at inductionHypothesis
      rw [← writes.load32_eq fun offset small =>
        not_textArea (apart offset small).2] at isEip
      exact FrameChain.cons nonzero isEip apart lookup (name.of_writes writes)
        inductionHypothesis

end Strings

/-! ## What is printed -/

/-- The line of a frame. -/
def Frame.line (frame : Frame) : List Byte :=
  traceBefore ++ (hexText frame.eip.toNat ++
    (traceMiddle ++ (frame.chars ++ [0x0A])))

def panicLine (msg : List Byte) : List Byte :=
  panicBefore ++ (msg ++ [0x0A])

/-- What of a line is shown. -/
def cutLine (line : List Byte) : List Byte := line.take 1023

/-- The trace on the screen. -/
def traceText (frames : List Frame) : List Byte :=
  frames.flatMap fun frame => cutLine frame.line

def panicText (msg : List Byte) (frames : List Frame) : List Byte :=
  cutLine (panicLine msg) ++ (traceText frames ++ starsFormat.last)

section Lines

variable {textbuf : Word} {m : Memory} {num : BitVec 64} {s : PrintkState}
  {old : List Byte}

theorem lineFeed_literal : Literal [0x0A] := by
  constructor <;> decide

/-- A line of the trace. -/
theorem printk_frame {frame : Frame}
    (name : StringArgument textbuf s.memory frame.name frame.chars)
    (shows_ : Shows s.console (linesOf old) (topLine old)) :
    ∃ count s', printk textbuf
        (callArguments [frame.eip, frame.name] s.memory) num traceFormat.chars
        s = some (count, s') ∧
      Printed (textArea textbuf) old (cutLine frame.line) s s' := by
  have supported : traceFormat.Supported
      (callArguments [frame.eip, frame.name] s.memory) :=
    ⟨.cons (by constructor <;> decide) plainHex_supported
      (.cons (by constructor <;> decide)
        (plainStr_supported name.short name.isString) (.nil _)),
      lineFeed_literal⟩
  have isText : ∀ rendered, traceFormat.Renders
      (callArguments [frame.eip, frame.name] s.memory) rendered →
        rendered = frame.line := by
    rintro rendered ⟨segments, renders, rfl⟩
    cases renders with
    | cons hex renders =>
        cases renders with
        | cons str none =>
            cases none
            rw [plainHex_renders hex, plainStr_renders str name.isString]
            simp [Frame.line, traceFormat, callArguments]
  have digits := hexText_length_le frame.eip
  have length : frame.line.length ≤ frame.chars.length + 17 := by
    simp only [Frame.line, List.length_append, traceBefore, traceMiddle,
      List.length_cons, List.length_nil]
    omega
  have noZero : (0 : Byte) ∉ frame.line := by
    have before : (0 : Byte) ∉ traceBefore := by decide
    have middle : (0 : Byte) ∉ traceMiddle := by decide
    have behind : (0 : Byte) ∉ [(0x0A : Byte)] := by decide
    simp only [Frame.line, List.mem_append, not_or]
    exact ⟨before, hexText_noZero _, middle, name.isString.noZero, behind⟩
  have fits := name.fits
  exact printk_renders supported isText noZero (by omega) shows_

/-- The message. -/
theorem printk_panic {msg : Word} {chars : List Byte}
    (argument : StringArgument textbuf s.memory msg chars)
    (shows_ : Shows s.console (linesOf old) (topLine old)) :
    ∃ count s', printk textbuf (callArguments [msg] s.memory) num
        panicFormat.chars s = some (count, s') ∧
      Printed (textArea textbuf) old (cutLine (panicLine chars)) s s' := by
  have supported : panicFormat.Supported (callArguments [msg] s.memory) :=
    ⟨.cons (by constructor <;> decide)
      (plainStr_supported argument.short argument.isString) (.nil _),
      lineFeed_literal⟩
  have isText : ∀ rendered, panicFormat.Renders
      (callArguments [msg] s.memory) rendered → rendered = panicLine chars := by
    rintro rendered ⟨segments, renders, rfl⟩
    cases renders with
    | cons str none =>
        cases none
        rw [plainStr_renders str argument.isString]
        simp [panicLine, panicFormat]
  have length : (panicLine chars).length = chars.length + 19 := by
    simp only [panicLine, List.length_append, panicBefore, List.length_cons,
      List.length_nil]
    omega
  have noZero : (0 : Byte) ∉ panicLine chars := by
    have before : (0 : Byte) ∉ panicBefore := by decide
    have behind : (0 : Byte) ∉ [(0x0A : Byte)] := by decide
    simp only [panicLine, List.mem_append, not_or]
    exact ⟨before, argument.isString.noZero, behind⟩
  have fits := argument.fits
  exact printk_renders supported isText noZero (by omega) shows_

theorem printk_stars (room : textbuf.toNat + 1024 ≤ 2 ^ 32)
    (shows_ : Shows s.console (linesOf old) (topLine old)) :
    ∃ count s', printk textbuf (callArguments [] s.memory) num
        starsFormat.chars s = some (count, s') ∧
      Printed (textArea textbuf) old starsFormat.last s s' := by
  have supported : starsFormat.Supported (callArguments [] s.memory) :=
    ⟨.nil _, by constructor <;> decide⟩
  have isText : ∀ rendered, starsFormat.Renders
      (callArguments [] s.memory) rendered → rendered = starsFormat.last := by
    rintro rendered ⟨segments, renders, rfl⟩
    cases renders
    rfl
  have length : starsFormat.last.length = 4 := rfl
  exact printk_renders supported isText (by decide) (by omega) shows_

/-! ## The trace -/

/-- The loop prints one line for each frame and ends with the chain. -/
theorem traceLoop_shows {k : Kallsyms} {ebp : Word} {frames : List Frame}
    (chain : FrameChain k textbuf s.memory ebp frames) {fuel : Nat}
    (enough : frames.length < fuel)
    (shows_ : Shows s.console (linesOf old) (topLine old)) :
    ∃ s', traceLoop k textbuf num fuel ebp s = some s' ∧
      Printed (textArea textbuf) old (traceText frames) s s' := by
  induction frames generalizing ebp fuel s old with
  | nil =>
      obtain ⟨fuel, rfl⟩ := Nat.exists_eq_succ_of_ne_zero (Nat.ne_zero_of_lt enough)
      cases chain
      exact ⟨s, if_pos rfl, Printed.nothing shows_⟩
  | cons frame rest inductionRest =>
      obtain ⟨fuel, rfl⟩ := Nat.exists_eq_succ_of_ne_zero (Nat.ne_zero_of_lt enough)
      cases chain with
      | cons nonzero isEip apart lookup name next =>
          obtain ⟨count, s₁, run, printed⟩ :=
            @printk_frame textbuf num s old frame name shows_
          have same : s₁.memory.load32 ebp.toNat = s.memory.load32 ebp.toNat :=
            printed.writes.load32_eq fun offset small =>
              not_textArea (apart offset small).1
          have next' := next.of_writes printed.writes
          rw [← same] at next'
          obtain ⟨s', restRun, restPrinted⟩ :=
            inductionRest next' (Nat.lt_of_succ_lt_succ enough) printed.screen
          refine ⟨s', ?_, printed.trans restPrinted⟩
          rw [traceLoop, if_neg nonzero, isEip]
          simp only [lookup, Option.bind_eq_bind, Option.bind_some, run]
          exact restRun

end Lines

/-- `panic` shows the message, one line for each frame up to the null frame
pointer, with the return address and the name found for it, and the stars.
The frames are read while `printk` writes; it writes to its buffer only. -/
theorem panic_shows {k : Kallsyms} {textbuf ebp msg : Word} {s : PrintkState}
    {chars old : List Byte} {frames : List Frame} {fuel : Nat}
    (room : textbuf.toNat + 1024 ≤ 2 ^ 32)
    (message : StringArgument textbuf s.memory msg chars)
    (chain : FrameChain k textbuf s.memory ebp frames)
    (enough : frames.length < fuel)
    (shows_ : Shows s.console (linesOf old) (topLine old)) (num : BitVec 64) :
    ∃ s', panic k textbuf num fuel ebp msg s = some s' ∧
      Shows s'.console (linesOf (old ++ panicText chars frames))
        (topLine (old ++ panicText chars frames)) ∧
      Memory.WritesWithin (textArea textbuf) s.memory s'.memory ∧
      s'.counts = s.counts := by
  obtain ⟨_, s₁, messageRun, printed₁⟩ :=
    @printk_panic textbuf num s old msg chars message shows_
  obtain ⟨s₂, traceRun, printed₂⟩ :=
    @traceLoop_shows textbuf num s₁ _ k ebp frames
      (chain.of_writes printed₁.writes) fuel enough printed₁.screen
  obtain ⟨_, s', starsRun, printed₃⟩ :=
    @printk_stars textbuf num s₂ _ room printed₂.screen
  have printed := printed₁.trans (printed₂.trans printed₃)
  refine ⟨s', ?_, printed.screen, printed.writes, printed.counts⟩
  simp [panic, messageRun, traceRun, starsRun]

/-! ## Two frames -/

/-- The message, two names and two frames. -/
def exampleAreas : List (Nat × List Byte) :=
  [(0xC0105000, [ch 'B', ch 'U', ch 'G', 0]),
    (0xC0105010, [ch 'r', ch 'u', ch 'n', 0]),
    (0xC0105020, [ch 'm', ch 'a', ch 'i', ch 'n', 0]),
    (0xC0108F00, [0x10, 0x8F, 0x10, 0xC0, 0x20, 0x00, 0x10, 0xC0]),
    (0xC0108F10, [0, 0, 0, 0, 0x45, 0x00, 0x10, 0xC0])]

def exampleStack : Memory where
  bytes position := (exampleAreas.findSome? fun area =>
    if area.1 ≤ position then area.2[position - area.1]? else none).getD 0
  log := []

/-- `run` at `0xC0100010` and `main` at `0xC0100040`. -/
def exampleKallsyms : Kallsyms where
  num := 2
  addr index := if index = 0 then 0xC0100010 else 0xC0100040
  name index := if index = 0 then 0xC0105010 else 0xC0105020

def exampleFrames : List Frame :=
  [⟨0xC0100020, 0xC0105010, [ch 'r', ch 'u', ch 'n']⟩,
    ⟨0xC0100045, 0xC0105020, [ch 'm', ch 'a', ch 'i', ch 'n']⟩]

theorem exampleMessage_string :
    StringArgument 0xC0107000 exampleStack 0xC0105000
      [ch 'B', ch 'U', ch 'G'] :=
  ⟨⟨by decide +kernel, by decide +kernel, by decide⟩, by decide +kernel,
    by decide, by decide⟩

theorem exampleFrames_chain :
    FrameChain exampleKallsyms 0xC0107000 exampleStack 0xC0108F00
      exampleFrames := by
  refine .cons (by decide) (by decide +kernel) (by decide +kernel)
    (by decide +kernel) ?_ ?_
  · exact ⟨⟨by decide +kernel, by decide +kernel, by decide⟩,
      by decide +kernel, by decide, by decide⟩
  have next : exampleStack.load32 (0xC0108F00 : Word).toNat = 0xC0108F10 := by
    decide +kernel
  have last : exampleStack.load32 (0xC0108F10 : Word).toNat = 0 := by
    decide +kernel
  rw [next]
  refine .cons (by decide) (by decide +kernel) (by decide +kernel)
    (by decide +kernel) ?_ ?_
  · exact ⟨⟨by decide +kernel, by decide +kernel, by decide⟩,
      by decide +kernel, by decide, by decide⟩
  rw [last]
  exact .nil

theorem panic_shows_twoFrames :
    ∃ console s', consoleInit ⟨0, 0, fun _ => 0, []⟩ = some console ∧
      panic exampleKallsyms 0xC0107000 0 3 0xC0108F00 0xC0105000
        ⟨exampleStack, console, []⟩ = some s' ∧
      Shows s'.console
        (linesOf (panicText [ch 'B', ch 'U', ch 'G'] exampleFrames)) 0 := by
  obtain ⟨console, init, shows_⟩ := consoleInit_shows ⟨0, 0, fun _ => 0, []⟩
  obtain ⟨s', run, shows', _⟩ := @panic_shows exampleKallsyms 0xC0107000
    0xC0108F00 0xC0105000 ⟨exampleStack, console, []⟩ [ch 'B', ch 'U', ch 'G']
    [] exampleFrames 3 (by decide) exampleMessage_string exampleFrames_chain
    (by decide) shows_ 0
  have top : topLine ([] ++ panicText [ch 'B', ch 'U', ch 'G'] exampleFrames) =
      0 := by
    decide +kernel
  rw [top] at shows'
  exact ⟨console, s', init, run, shows'⟩

end Hlos.Kernel
