import Hlos.Drivers.Screen

/-!
# The hardware cursor

Every call ends with `move_cursor`, which sends the position of the cursor to
two registers of the VGA controller.  A line that is completed in the last row
leaves the cursor below the screen until the next character scrolls, and that
position is sent as it is.

The cursor does not depend on what the video memory holds, so that it can be
followed from the boot state on, before the first `console_init`.
-/

namespace Hlos.Drivers

open Hlos.Lib Hlos.Include

/-! ## What the controller holds -/

/-- The index register and the data registers of the controller after the
writes, which are listed newest first. -/
def crtRegisters :
    List (BitVec 16 × BitVec 8) → BitVec 8 × (BitVec 8 → BitVec 8)
  | [] => (0, fun _ => 0)
  | (port, value) :: earlier =>
      let registers := crtRegisters earlier
      if port = 0x3D4 then (value, registers.2)
      else if port = 0x3D5 then
        (registers.1, Function.update registers.2 registers.1 value)
      else registers

/-- The cell of the hardware cursor. -/
def hardwareCursor (s : Console) : Nat :=
  let registers := (crtRegisters s.ports).2
  (registers 14).toNat * 256 + (registers 15).toNat

/-- The next printable character is stored in the cell, after the scroll that
it may cause. -/
def StoresNextAt (s : Console) (cell : Nat) : Prop :=
  ∀ c, c ≠ 0x0A → c ≠ 0x0D → ∃ s₁ s₂, scrollDelayed s = some s₁ ∧
    placeChar c s₁ = some s₂ ∧
    ∀ i, s₂.video i = if i = cell then cellValue c else s₁.video i

def CursorOnScreen (s : Console) : Prop :=
  hardwareCursor s < 80 * 25 ∧ StoresNextAt s (hardwareCursor s)

/-- The location register has 16 bits, so that every position that the console
can have is sent unchanged. -/
theorem hardwareCursor_moveCursor {s : Console}
    (small : s.ypos.toNat * 80 + s.xpos.toNat < 2 ^ 16) :
    hardwareCursor (moveCursor s) = s.ypos.toNat * 80 + s.xpos.toNat := by
  have different : (15 : BitVec 8) ≠ 14 := by decide
  simp only [hardwareCursor, moveCursor, outb, crtRegisters]
  simp only [BitVec.reduceEq, if_true, if_false, Function.update_self,
    Function.update_of_ne different.symm]
  simp only [BitVec.toNat_setWidth, BitVec.toNat_ushiftRight,
    BitVec.toNat_ofNat, Nat.shiftRight_eq_div_pow]
  omega

/-- The position decides whether the cursor that is sent lies on the screen. -/
theorem Positioned.cursorOnScreen_iff {s : Console} {lines : CharLines}
    {top : Nat} (at_ : Positioned s lines top) :
    CursorOnScreen (moveCursor s) ↔ s.ypos.toNat ≤ 24 := by
  have xposLt := at_.xpos_lt
  have yposLe := at_.ypos_le
  have sent := @hardwareCursor_moveCursor s (by omega)
  rw [CursorOnScreen, sent]
  constructor
  · intro onScreen
    have below := onScreen.1
    omega
  · intro onScreen
    refine ⟨by omega, ?_⟩
    intro c notNewline notReturn
    have still : Drivers.scrollDelayed (moveCursor s) =
        some (moveCursor s) := by
      apply if_neg
      change ¬ 25 ≤ s.ypos.toNat
      omega
    obtain ⟨s₂, placed, _, cells⟩ :=
      at_.moved.store onScreen notNewline notReturn
    refine ⟨moveCursor s, s₂, still, placed, ?_⟩
    rw [Nat.mul_comm s.ypos.toNat]
    exact cells

/-! ## Calls in any order -/

/-- A call of the console. -/
inductive ConsoleCall where
  | init
  | write (str : List (BitVec 8)) (n : Word)
deriving DecidableEq, Repr

def runCall : ConsoleCall → Console → Option Console
  | .init, s => consoleInit s
  | .write str n, s => consoleVgaWrite str n s

def runConsole : List ConsoleCall → Console → Option Console
  | [], s => some s
  | call :: rest, s => do
      let s ← runCall call s
      runConsole rest s

/-- The text since the last `console_init`, behind an earlier text. -/
def liveText : List ConsoleCall → (text : List (BitVec 8)) → List (BitVec 8)
  | [], text => text
  | .init :: rest, _ => liveText rest []
  | .write str n :: rest, text => liveText rest (text ++ written str n.toNat)

/-- The last character completes a line, and 24 lines or more were complete
before it. -/
def EndsBelowScreen (text : List (BitVec 8)) : Prop :=
  24 ≤ (linesOf text.dropLast).count ∧
    (linesOf text.dropLast).count < (linesOf text).count

/-- A call ends with `move_cursor`. -/
theorem runCall_positioned (call : ConsoleCall) (s : Console)
    (text : List (BitVec 8))
    (at_ : Positioned s (linesOf text) (topLine text)) :
    ∃ s₁, runCall call s = some (moveCursor s₁) ∧
      Positioned s₁ (linesOf (liveText [call] text))
        (topLine (liveText [call] text)) := by
  cases call with
  | init =>
      obtain ⟨s₁, run, _⟩ :=
        @cellLoop_spec 0 (fun _ _ => blankCell) 2000 0 s (fun _ => blankCell)
          (by decide) (fun _ _ _ _ _ => rfl)
      have run : cellLoop 0 (fun _ _ => blankCell) (maxXpos * maxYpos) 0 s =
          some s₁ := run
      refine ⟨{ s₁ with xpos := 0, ypos := 0 }, ?_, rfl, Nat.zero_le 25,
        fun _ => rfl, rfl, Nat.succ_pos 79⟩
      rw [runCall, consoleInit, run]
      rfl
  | write str n =>
      obtain ⟨s₁, run, at₁, _⟩ := writeLoop_positioned str n.toNat s text at_
      refine ⟨s₁, ?_, at₁⟩
      rw [runCall, consoleVgaWrite, run]
      rfl

theorem liveText_cons (call : ConsoleCall) (rest : List ConsoleCall)
    (text : List (BitVec 8)) :
    liveText (call :: rest) text = liveText rest (liveText [call] text) := by
  cases call with
  | init => rfl
  | write str n => rfl

/-- After at least one call the cursor that was sent last is that of the
current position. -/
theorem runConsole_positioned (call : ConsoleCall) (rest : List ConsoleCall)
    (s : Console) (text : List (BitVec 8))
    (at_ : Positioned s (linesOf text) (topLine text)) :
    ∃ s₁, runConsole (call :: rest) s = some (moveCursor s₁) ∧
      Positioned s₁ (linesOf (liveText (call :: rest) text))
        (topLine (liveText (call :: rest) text)) := by
  induction rest generalizing call s text with
  | nil =>
      obtain ⟨s₁, run, at₁⟩ := runCall_positioned call s text at_
      refine ⟨s₁, ?_, at₁⟩
      rw [runConsole, run]
      rfl
  | cons next rest inductionRest =>
      obtain ⟨s₁, run, at₁⟩ := runCall_positioned call s text at_
      obtain ⟨s₂, restRun, at₂⟩ := inductionRest next (moveCursor s₁) _
        at₁.moved
      rw [liveText_cons call]
      refine ⟨s₂, ?_, at₂⟩
      rw [runConsole, run]
      exact restRun

theorem count_le_dropLast (text : List (BitVec 8)) :
    (linesOf text).count ≤ (linesOf text.dropLast).count + 1 := by
  rcases List.eq_nil_or_concat text with rfl | ⟨front, c, rfl⟩
  · exact Nat.zero_le _
  · rw [List.concat_eq_append, linesOf_concat, List.dropLast_concat, putChar]
    split
    · rw [TextLines.count_breakLine]
    · split
      · exact Nat.le_succ _
      · rw [TextLines.count_append]
        split <;> omega

/-- The cursor rests below the screen when the last character completed a line
in the last row. -/
theorem Positioned.ypos_le_iff {s : Console} {text : List (BitVec 8)}
    (at_ : Positioned s (linesOf text) (topLine text)) :
    s.ypos.toNat ≤ 24 ↔ ¬ EndsBelowScreen text := by
  have position := at_.ypos
  have low := at_.ypos_le
  have atMostOne := count_le_dropLast text
  unfold topLine at position
  unfold EndsBelowScreen
  omega

/-- The state at boot: the static cursor variables are zero. -/
def AtBoot (s : Console) : Prop := s.xpos = 0 ∧ s.ypos = 0

theorem AtBoot.positioned {s : Console} (boot : AtBoot s) :
    Positioned s (linesOf []) (topLine []) := by
  have xpos : s.xpos.toNat = 0 := by
    rw [boot.1]
    rfl
  have ypos : s.ypos.toNat = 0 := by
    rw [boot.2]
    rfl
  refine ⟨ypos, by omega, by omega, xpos, by omega⟩

/-- At the end of every call, whatever came before, the cursor that is sent
lies on the screen, where the next character is stored, unless the last
character completed a line in the last row. -/
theorem cursor_on_screen_iff {s : Console} (boot : AtBoot s)
    {calls : List ConsoleCall} (someCall : calls ≠ []) :
    ∃ s', runConsole calls s = some s' ∧
      (CursorOnScreen s' ↔ ¬ EndsBelowScreen (liveText calls [])) := by
  obtain ⟨call, rest, rfl⟩ := List.exists_cons_of_ne_nil someCall
  obtain ⟨s₁, run, at₁⟩ := runConsole_positioned call rest s [] boot.positioned
  refine ⟨moveCursor s₁, run, ?_⟩
  rw [at₁.cursorOnScreen_iff, at₁.ypos_le_iff]

theorem cursor_on_screen_iff_hello :
    ∃ s', runConsole [.init, .write [0x68, 0x69, 0x0A] 3]
        ⟨0, 0, fun _ => 0, []⟩ = some s' ∧
      (CursorOnScreen s' ↔ ¬ EndsBelowScreen
        (liveText [.init, .write [0x68, 0x69, 0x0A] 3] [])) :=
  cursor_on_screen_iff ⟨rfl, rfl⟩ (by simp)

/-- After 25 newlines the location 2000 is sent. -/
theorem cursor_below_screen :
    ¬ ∀ (s : Console) (calls : List ConsoleCall), AtBoot s → calls ≠ [] →
      ∃ s', runConsole calls s = some s' ∧ CursorOnScreen s' := by
  intro general
  have boot : AtBoot ⟨0, 0, fun _ => 0, []⟩ := ⟨rfl, rfl⟩
  let call : ConsoleCall := .write (List.replicate 25 0x0A) 25
  obtain ⟨s', run, onScreen⟩ :=
    general ⟨0, 0, fun _ => 0, []⟩ [.init, call] boot (by simp)
  obtain ⟨s₁, run₁, at₁⟩ :=
    runConsole_positioned .init [call] _ [] boot.positioned
  rw [run] at run₁
  rw [Option.some.inj run₁, at₁.cursorOnScreen_iff, at₁.ypos_le_iff] at onScreen
  exact onScreen ⟨by decide, by decide⟩

end Hlos.Drivers
