import Mathlib.Data.List.Induction
import Hlos.Drivers.Console
import Hlos.Lib.TextLines

/-!
# What the screen shows

The text written since `console_init`, cut into lines of at most 80
characters, is compared with the video memory.  Scrolling is delayed until the
next character arrives.  The first line on the screen therefore depends on the
number of lines that were complete before the last character.
-/

namespace Hlos.Drivers

open Hlos.Lib Hlos.Include

abbrev CharLines : Type := TextLines (BitVec 8)

/-- Newline ends a line, carriage return is ignored, any other character is
appended. -/
def putChar (lines : CharLines) (c : BitVec 8) : CharLines :=
  if c = 0x0A then lines.breakLine
  else if c = 0x0D then lines
  else TextLines.append 80 lines c

/-- The lines of a text. -/
def linesOf (text : List (BitVec 8)) : CharLines :=
  text.foldl putChar TextLines.empty

/-- The first line on the screen. -/
def topLine (text : List (BitVec 8)) : Nat :=
  (linesOf text.dropLast).count - 24

/-- A cell with attribute 7 that shows the character, if there is one. -/
def shownCell : Option (BitVec 8) → BitVec 16
  | some c => (7 : BitVec 8) ++ c
  | none => blankCell

/-- The screen shows the lines from `topLine` on, and the cursor stands at the
end of the text. -/
structure Displays (s : Console) (text : List (BitVec 8)) : Prop where
  cells : ∀ row column, row < 25 → column < 80 →
    s.video (80 * row + column) =
      shownCell ((linesOf text).charAt (topLine text + row) column)
  ypos : s.ypos.toNat + topLine text = (linesOf text).count
  ypos_le : s.ypos.toNat ≤ 25
  xpos : s.xpos.toNat = (linesOf text).current.length
  xpos_lt : s.xpos.toNat < 80

/-- The characters that a call of `console_vga_write` takes from its
string. -/
def written : (str : List (BitVec 8)) → (n : Nat) → List (BitVec 8)
  | [], _ => []
  | c :: str, n => if c ≠ 0 ∧ 0 < n then c :: written str (n - 1) else []

/-- A string and a length. -/
abbrev WriteCall : Type := List (BitVec 8) × Word

/-- Calls of `console_vga_write` one after the other. -/
def writeCalls : List WriteCall → Console → Option Console
  | [], s => some s
  | call :: rest, s => do
      let s ← consoleVgaWrite call.1 call.2 s
      writeCalls rest s

def writtenText (calls : List WriteCall) : List (BitVec 8) :=
  calls.flatMap fun call => written call.1 call.2.toNat

/-! ## Screens with a top line -/

/-- The cell in which the console stores a character. -/
def storedCell : Option (BitVec 8) → BitVec 16
  | some c => cellValue c
  | none => blankCell

/-- The cells show the lines from `top` on. -/
def CellsShow (s : Console) (lines : CharLines) (top : Nat) : Prop :=
  ∀ row column, row < 25 → column < 80 →
    s.video (80 * row + column) = storedCell (lines.charAt (top + row) column)

/-- The screen shows the lines from `top` on.  Where the cursor rests below
the screen, the current line is empty. -/
structure Shows (s : Console) (lines : CharLines) (top : Nat) : Prop where
  cells : ∀ row column, row < 25 → column < 80 →
    s.video (80 * row + column) = storedCell (lines.charAt (top + row) column)
  ypos : s.ypos.toNat + top = lines.count
  ypos_le : s.ypos.toNat ≤ 25
  resting : s.ypos.toNat = 25 → lines.current = []
  xpos : s.xpos.toNat = lines.current.length
  xpos_lt : s.xpos.toNat < 80

/-- The cursor stands behind the lines; `top` lines have been scrolled off. -/
structure Positioned (s : Console) (lines : CharLines) (top : Nat) : Prop where
  ypos : s.ypos.toNat + top = lines.count
  ypos_le : s.ypos.toNat ≤ 25
  resting : s.ypos.toNat = 25 → lines.current = []
  xpos : s.xpos.toNat = lines.current.length
  xpos_lt : s.xpos.toNat < 80

section Steps

variable {s : Console} {lines : CharLines} {top : Nat}

theorem Positioned.shows (at_ : Positioned s lines top)
    (cells : CellsShow s lines top) : Shows s lines top :=
  ⟨cells, at_.ypos, at_.ypos_le, at_.resting, at_.xpos, at_.xpos_lt⟩

theorem Shows.positioned (shows_ : Shows s lines top) :
    Positioned s lines top :=
  ⟨shows_.ypos, shows_.ypos_le, shows_.resting, shows_.xpos, shows_.xpos_lt⟩

/-- `move_cursor` changes neither the cells nor the position. -/
theorem Positioned.moved (at_ : Positioned s lines top) :
    Positioned (moveCursor s) lines top :=
  ⟨at_.ypos, at_.ypos_le, at_.resting, at_.xpos, at_.xpos_lt⟩

theorem Positioned.congr (at_ : Positioned s lines top) {s' : Console}
    (same : SameButVideo s s') : Positioned s' lines top := by
  constructor
  · rw [same.ypos]
    exact at_.ypos
  · rw [same.ypos]
    exact at_.ypos_le
  · rw [same.ypos]
    exact at_.resting
  · rw [same.xpos]
    exact at_.xpos
  · rw [same.xpos]
    exact at_.xpos_lt

/-- A scroll moves the lines up.  The current line is empty then, and so is the
last row. -/
theorem CellsShow.scroll (shown : CellsShow s lines top) {s' : Console}
    (resting : lines.current = []) (atEnd : lines.count = top + 25)
    (cells : ∀ row column, row < 25 → column < 80 →
      s'.video (80 * row + column) =
        if row = 24 then blankCell else s.video (80 * (row + 1) + column)) :
    CellsShow s' lines (top + 1) := by
  intro row column rowBound columnBound
  rw [cells row column rowBound columnBound]
  by_cases last : row = 24
  · have none_ : lines.charAt (top + 1 + row) column = none := by
      apply TextLines.charAt_eq_none
      rw [resting]
      exact Or.inr ⟨by omega, Nat.zero_le _⟩
    rw [if_pos last, none_]
    rfl
  · have sameLine : top + (row + 1) = top + 1 + row := by omega
    rw [if_neg last, shown (row + 1) column (by omega) columnBound, sameLine]

/-- A delayed scroll brings the cursor back onto the screen. -/
theorem Positioned.scrollDelayed (at_ : Positioned s lines top) :
    ∃ s', Drivers.scrollDelayed s = some s' ∧
      Positioned s' lines (max top (lines.count - 24)) ∧
      s'.ypos.toNat ≤ 24 ∧
      (CellsShow s lines top →
        CellsShow s' lines (max top (lines.count - 24))) := by
  have position := at_.ypos
  have low := at_.ypos_le
  unfold Drivers.scrollDelayed
  by_cases resting : s.ypos.toNat ≥ maxYpos
  · have isRest : s.ypos.toNat = 25 := Nat.le_antisymm low resting
    have next : max top (lines.count - 24) = top + 1 := by omega
    obtain ⟨s', run, xpos, ypos, _, cells⟩ := scroll_spec s
    rw [if_pos resting, next]
    refine ⟨s', run, ⟨by omega, by omega, by omega, ?_, ?_⟩, by omega,
      fun shown => shown.scroll (at_.resting isRest) (by omega) cells⟩
    · rw [xpos]
      exact at_.xpos
    · rw [xpos]
      exact at_.xpos_lt
  · have onScreen : s.ypos.toNat ≤ 24 := by
      change ¬ 25 ≤ s.ypos.toNat at resting
      omega
    have same : max top (lines.count - 24) = top := by omega
    rw [if_neg resting, same]
    exact ⟨s, rfl, at_, onScreen, id⟩

theorem coordinate_succ {x : BitVec 8} (bound : x.toNat < 80) :
    (x + 1).toNat = x.toNat + 1 :=
  BitVec.toNat_add_of_lt (by
    change x.toNat + 1 < 256
    omega)

/-- A completed line moves the cursor to the start of the next row. -/
theorem Positioned.nextRow (at_ : Positioned s lines top)
    (onScreen : s.ypos.toNat ≤ 24) {lines' : CharLines}
    (ended : lines'.current = []) (oneMore : lines'.count = lines.count + 1) :
    Positioned { s with xpos := 0, ypos := s.ypos + 1 } lines' top := by
  have position := at_.ypos
  have below := coordinate_succ (onScreen.trans_lt (by decide))
  refine ⟨?_, ?_, fun _ => ended, ?_, ?_⟩
  · change (s.ypos + 1).toNat + top = _
    omega
  · change (s.ypos + 1).toNat ≤ 25
    omega
  · rw [ended]
    rfl
  · change (0 : BitVec 8).toNat < 80
    decide

/-- The cell at the cursor. -/
def cursorCell (s : Console) : Nat := 80 * s.ypos.toNat + s.xpos.toNat

/-- A printable character is stored at the cursor. -/
theorem Positioned.store (at_ : Positioned s lines top)
    (onScreen : s.ypos.toNat ≤ 24) {c : BitVec 8} (notNewline : c ≠ 0x0A)
    (notReturn : c ≠ 0x0D) :
    ∃ s', Drivers.placeChar c s = some s' ∧
      Positioned s' (TextLines.append 80 lines c) top ∧
      ∀ i, s'.video i =
        if i = cursorCell s then cellValue c else s.video i := by
  have xpos := at_.xpos
  have xposLt := at_.xpos_lt
  obtain ⟨s₁, store, same, cells⟩ := @storeCell_eq (cursorCell s)
    (by unfold cursorCell; omega) (cellValue c) s
  have stored : storeCell (maxXpos * s.ypos.toNat + s.xpos.toNat)
      (cellValue c) s = some s₁ := store
  have at₁ := at_.congr same
  have right := coordinate_succ at₁.xpos_lt
  have length := at₁.xpos
  have onScreen₁ : s₁.ypos.toNat ≤ 24 := by
    rw [same.ypos]
    exact onScreen
  have count := TextLines.count_append 80 lines c
  rw [Drivers.placeChar, if_neg notNewline, if_pos notReturn, stored]
  by_cases ends : lines.current.length + 1 = 80
  · have wraps : 80 ≤ (s₁.xpos + 1).toNat := by omega
    have line : (TextLines.append 80 lines c).current = [] := by
      rw [TextLines.append, if_pos ends]
      rfl
    rw [if_pos ends] at count
    exact ⟨_, if_pos wraps, at₁.nextRow onScreen₁ line count, cells⟩
  · have fits : ¬ 80 ≤ (s₁.xpos + 1).toNat := by omega
    have line : (TextLines.append 80 lines c).current =
        lines.current ++ [c] := by
      rw [TextLines.append, if_neg ends]
    rw [if_neg ends] at count
    refine ⟨{ s₁ with xpos := s₁.xpos + 1 }, if_neg fits,
      ⟨?_, at₁.ypos_le, ?_, ?_, Nat.not_le.mp fits⟩, cells⟩
    · rw [count]
      exact at₁.ypos
    · intro resting
      change s₁.ypos.toNat = 25 at resting
      omega
    · change (s₁.xpos + 1).toNat = _
      rw [right, length, line, List.length_append, List.length_singleton]

/-- The store shows the character behind the current line. -/
theorem Positioned.cellsShow_append (at_ : Positioned s lines top)
    {s' : Console} {c : BitVec 8}
    (cells : ∀ i, s'.video i =
      if i = cursorCell s then cellValue c else s.video i)
    (shown : CellsShow s lines top) :
    CellsShow s' (TextLines.append 80 lines c) top := by
  have position := at_.ypos
  have xpos := at_.xpos
  have xposLt := at_.xpos_lt
  intro row column rowBound columnBound
  rw [cells, TextLines.charAt_append]
  unfold cursorCell
  by_cases here : top + row = lines.count ∧ column = lines.current.length
  · rw [if_pos here, if_pos (by omega)]
    rfl
  · rw [if_neg here, if_neg (by omega)]
    exact shown row column rowBound columnBound

theorem Positioned.placeChar (at_ : Positioned s lines top)
    (onScreen : s.ypos.toNat ≤ 24) (c : BitVec 8) :
    ∃ s', Drivers.placeChar c s = some s' ∧
      Positioned s' (putChar lines c) top ∧
      (CellsShow s lines top → CellsShow s' (putChar lines c) top) := by
  rw [putChar]
  by_cases newline : c = 0x0A
  · rw [Drivers.placeChar, if_pos newline, if_pos newline]
    refine ⟨_, rfl, at_.nextRow onScreen rfl (TextLines.count_breakLine lines),
      ?_⟩
    intro shown row column rowBound columnBound
    rw [TextLines.charAt_breakLine]
    exact shown row column rowBound columnBound
  · rw [if_neg newline]
    by_cases carriage : c = 0x0D
    · rw [Drivers.placeChar, if_neg newline, if_neg (not_not.mpr carriage),
        if_pos carriage]
      exact ⟨s, rfl, at_, id⟩
    · obtain ⟨s', placed, at', cells⟩ := at_.store onScreen newline carriage
      rw [if_neg carriage]
      exact ⟨s', placed, at', at_.cellsShow_append cells⟩

/-- One turn of the loop of `console_vga_write`. -/
theorem Positioned.writeChar (at_ : Positioned s lines top) (c : BitVec 8) :
    ∃ s', Drivers.writeChar c s = some s' ∧
      Positioned s' (putChar lines c) (max top (lines.count - 24)) ∧
      (CellsShow s lines top →
        CellsShow s' (putChar lines c) (max top (lines.count - 24))) := by
  obtain ⟨s₁, scrolled, at₁, onScreen, shown₁⟩ := at_.scrollDelayed
  obtain ⟨s', placed, at', shown'⟩ := at₁.placeChar onScreen c
  refine ⟨s', ?_, at', fun shown => shown' (shown₁ shown)⟩
  rw [Drivers.writeChar, scrolled]
  exact placed

end Steps

/-! ## Texts -/

theorem linesOf_concat (text : List (BitVec 8)) (c : BitVec 8) :
    linesOf (text ++ [c]) = putChar (linesOf text) c :=
  List.foldl_append

theorem count_le_putChar (lines : CharLines) (c : BitVec 8) :
    lines.count ≤ (putChar lines c).count := by
  unfold putChar
  split
  · rw [TextLines.count_breakLine]
    exact Nat.le_succ _
  · split
    · exact Nat.le_refl _
    · rw [TextLines.count_append]
      split <;> omega

/-- The top line follows the completed lines. -/
theorem topLine_concat (text : List (BitVec 8)) (c : BitVec 8) :
    topLine (text ++ [c]) = max (topLine text) ((linesOf text).count - 24) := by
  have fewer : topLine text ≤ (linesOf text).count - 24 := by
    rcases List.eq_nil_or_concat text with rfl | ⟨front, last, rfl⟩
    · exact Nat.zero_le _
    · rw [List.concat_eq_append, linesOf_concat, topLine, List.dropLast_concat]
      exact Nat.sub_le_sub_right (count_le_putChar _ _) 24
  rw [Nat.max_eq_right fewer, topLine, List.dropLast_concat]

/-- A whole call extends the text, whatever the cells show. -/
theorem writeLoop_positioned (str : List (BitVec 8)) (n : Nat) (s : Console)
    (text : List (BitVec 8))
    (at_ : Positioned s (linesOf text) (topLine text)) :
    ∃ s', writeLoop str n s = some s' ∧
      Positioned s' (linesOf (text ++ written str n))
        (topLine (text ++ written str n)) ∧
      (CellsShow s (linesOf text) (topLine text) →
        CellsShow s' (linesOf (text ++ written str n))
          (topLine (text ++ written str n))) := by
  induction str generalizing n s text with
  | nil =>
      rw [written, List.append_nil]
      exact ⟨s, rfl, at_, id⟩
  | cons c str inductionStr =>
      rw [writeLoop, written]
      by_cases more : c ≠ 0 ∧ 0 < n
      · rw [if_pos more, if_pos more]
        obtain ⟨s₁, step, at₁, shown₁⟩ := at_.writeChar c
        rw [← linesOf_concat, ← topLine_concat] at at₁ shown₁
        obtain ⟨s', rest, at', shown'⟩ := inductionStr (n - 1) s₁ _ at₁
        rw [List.append_assoc] at at' shown'
        refine ⟨s', ?_, at', fun shown => shown' (shown₁ shown)⟩
        rw [step]
        exact rest
      · rw [if_neg more, if_neg more, List.append_nil]
        exact ⟨s, rfl, at_, id⟩

theorem writeLoop_shows (str : List (BitVec 8)) (n : Nat) (s : Console)
    (text : List (BitVec 8)) (shows_ : Shows s (linesOf text) (topLine text)) :
    ∃ s', writeLoop str n s = some s' ∧
      Shows s' (linesOf (text ++ written str n))
        (topLine (text ++ written str n)) := by
  obtain ⟨s', run, at', shown⟩ :=
    writeLoop_positioned str n s text shows_.positioned
  exact ⟨s', run, at'.shows (shown shows_.cells)⟩

theorem writeCalls_shows (calls : List WriteCall) (s : Console)
    (text : List (BitVec 8)) (shows_ : Shows s (linesOf text) (topLine text)) :
    ∃ s', writeCalls calls s = some s' ∧
      Shows s' (linesOf (text ++ writtenText calls))
        (topLine (text ++ writtenText calls)) := by
  induction calls generalizing s text with
  | nil =>
      rw [writtenText, List.flatMap_nil, List.append_nil]
      exact ⟨s, rfl, shows_⟩
  | cons call rest inductionRest =>
      obtain ⟨s₁, run, shows₁⟩ :=
        writeLoop_shows call.1 call.2.toNat s text shows_
      obtain ⟨s', restRun, shows'⟩ := inductionRest (moveCursor s₁) _
        (shows₁.positioned.moved.shows shows₁.cells)
      rw [List.append_assoc] at shows'
      refine ⟨s', ?_, shows'⟩
      rw [writeCalls, consoleVgaWrite, run]
      exact restRun

theorem consoleInit_shows (s : Console) :
    ∃ s', consoleInit s = some s' ∧
      Shows s' (linesOf []) (topLine []) := by
  obtain ⟨s', run, xpos, ypos, cells⟩ := consoleInit_spec s
  refine ⟨s', run, ?_, ?_, ?_, fun _ => rfl, ?_, ?_⟩
  · intro row column rowBound columnBound
    have nothing : (linesOf []).charAt (topLine [] + row) column = none :=
      TextLines.charAt_empty _ _
    rw [cells _ (by omega), nothing]
    rfl
  · rw [ypos]
    rfl
  · rw [ypos]
    decide
  · rw [xpos]
    rfl
  · rw [xpos]
    decide

/-! ## ASCII texts -/

theorem cellValue_ascii {c : BitVec 8} (ascii : c.toNat < 128) :
    cellValue c = (7 : BitVec 8) ++ c := by
  have table : ∀ c : BitVec 8, c.toNat < 128 →
      cellValue c = (7 : BitVec 8) ++ c := by
    decide +kernel
  exact table c ascii

theorem mem_putChar {lines : CharLines} {c : BitVec 8} {line column : Nat}
    {found : BitVec 8}
    (isFound : (putChar lines c).charAt line column = some found) :
    found = c ∨ lines.charAt line column = some found := by
  unfold putChar at isFound
  split at isFound
  · rw [TextLines.charAt_breakLine] at isFound
    exact Or.inr isFound
  · split at isFound
    · exact Or.inr isFound
    · rw [TextLines.charAt_append] at isFound
      split at isFound
      · exact Or.inl (Option.some.inj isFound).symm
      · exact Or.inr isFound

/-- The lines consist of characters of the text. -/
theorem charAt_linesOf_mem {text : List (BitVec 8)} {line column : Nat}
    {found : BitVec 8}
    (isFound : (linesOf text).charAt line column = some found) :
    found ∈ text := by
  induction text using List.reverseRecOn with
  | nil =>
      have nothing : (linesOf []).charAt line column = none :=
        TextLines.charAt_empty _ _
      rw [nothing] at isFound
      cases isFound
  | append_singleton text c inductionText =>
      rw [linesOf_concat] at isFound
      cases mem_putChar isFound with
      | inl isLast => simp [isLast]
      | inr old => exact List.mem_append_left _ (inductionText old)

/-- After `console_init` and any calls of `console_vga_write` that write ASCII
characters, the screen shows the end of the text. -/
theorem console_refinement (s : Console) (calls : List WriteCall)
    (ascii : ∀ c, c ∈ writtenText calls → c.toNat < 128) :
    ∃ s₁ s', consoleInit s = some s₁ ∧ writeCalls calls s₁ = some s' ∧
      Displays s' (writtenText calls) := by
  obtain ⟨s₁, init, shows₁⟩ := consoleInit_shows s
  obtain ⟨s', run, shows'⟩ := writeCalls_shows calls s₁ [] shows₁
  rw [List.nil_append] at shows'
  refine ⟨s₁, s', init, run, ?_, shows'.ypos, shows'.ypos_le, shows'.xpos,
    shows'.xpos_lt⟩
  intro row column rowBound columnBound
  rw [shows'.cells row column rowBound columnBound]
  cases found : (linesOf (writtenText calls)).charAt
      (topLine (writtenText calls) + row) column with
  | none => rfl
  | some c => exact cellValue_ascii (ascii c (charAt_linesOf_mem found))

theorem console_refinement_hello :
    ∃ s₁ s', consoleInit ⟨0, 0, fun _ => 0, []⟩ = some s₁ ∧
      writeCalls [([0x68, 0x69, 0x0A], 2), ([0x0A, 0x21], 7)] s₁ = some s' ∧
      Displays s' [0x68, 0x69, 0x0A, 0x21] :=
  console_refinement ⟨0, 0, fun _ => 0, []⟩
    [([0x68, 0x69, 0x0A], 2), ([0x0A, 0x21], 7)] (by decide)

/-! ## Attributes -/

/-- The character stands on the screen after the text. -/
def OnScreen (text : List (BitVec 8)) (c : BitVec 8) : Prop :=
  ∃ row column, row < 25 ∧ column < 80 ∧
    (linesOf text).charAt (topLine text + row) column = some c

/-- Every cell has the attribute byte 7, and the byte that was written there
last as its low half. -/
def AttributesStable (s : Console) (text : List (BitVec 8)) : Prop :=
  ∀ row column, row < 25 → column < 80 →
    s.video (80 * row + column) >>> 8 = 7 ∧
      ∀ c, (linesOf text).charAt (topLine text + row) column = some c →
        (s.video (80 * row + column)).setWidth 8 = c

/-- The sign of a character spoils the attribute, never the low half. -/
theorem cellValue_stable_iff : ∀ c : BitVec 8,
    (cellValue c >>> 8 = 7 ∧ (cellValue c).setWidth 8 = c) ↔
      c.toNat < 128 := by
  decide +kernel

theorem storedCell_stable_iff (found : Option (BitVec 8)) :
    (storedCell found >>> 8 = 7 ∧
        ∀ c, found = some c → (storedCell found).setWidth 8 = c) ↔
      ∀ c, found = some c → c.toNat < 128 := by
  cases found with
  | none =>
      constructor
      · intro _ c impossible
        cases impossible
      · intro _
        refine ⟨by decide, ?_⟩
        intro c impossible
        cases impossible
  | some shown =>
      constructor
      · intro stable c isShown
        rw [← Option.some.inj isShown, ← cellValue_stable_iff]
        exact ⟨stable.1, stable.2 shown rfl⟩
      · intro ascii
        have stable := (cellValue_stable_iff shown).mpr (ascii shown rfl)
        refine ⟨stable.1, ?_⟩
        intro c isShown
        rw [← Option.some.inj isShown]
        exact stable.2

/-- A screen that shows a text has stable attributes exactly when all
characters on it are ASCII. -/
theorem Shows.attributesStable_iff {s : Console} {text : List (BitVec 8)}
    (shows_ : Shows s (linesOf text) (topLine text)) :
    AttributesStable s text ↔ ∀ c, OnScreen text c → c.toNat < 128 := by
  have cell : ∀ row column, row < 25 → column < 80 →
      ((s.video (80 * row + column) >>> 8 = 7 ∧
          ∀ c, (linesOf text).charAt (topLine text + row) column = some c →
            (s.video (80 * row + column)).setWidth 8 = c) ↔
        ∀ c, (linesOf text).charAt (topLine text + row) column = some c →
          c.toNat < 128) := by
    intro row column rowBound columnBound
    rw [shows_.cells row column rowBound columnBound]
    exact storedCell_stable_iff _
  constructor
  · intro stable c shown
    obtain ⟨row, column, rowBound, columnBound, found⟩ := shown
    exact (cell row column rowBound columnBound).mp
      (stable row column rowBound columnBound) c found
  · intro ascii row column rowBound columnBound
    apply (cell row column rowBound columnBound).mpr
    intro c found
    exact ascii c ⟨row, column, rowBound, columnBound, found⟩

theorem OnScreen.mem {text : List (BitVec 8)} {c : BitVec 8}
    (shown : OnScreen text c) : c ∈ text := by
  obtain ⟨_, _, _, _, found⟩ := shown
  exact charAt_linesOf_mem found

/-- After any calls the attributes are stable exactly when no byte of 128 or
more is on the screen, and so in every run that writes none. -/
theorem screen_attributes_iff (s : Console) :
    ∃ s₁, consoleInit s = some s₁ ∧ ∀ calls,
      ∃ s', writeCalls calls s₁ = some s' ∧
        (AttributesStable s' (writtenText calls) ↔
          ∀ c, OnScreen (writtenText calls) c → c.toNat < 128) ∧
        ((∀ c, c ∈ writtenText calls → c.toNat < 128) →
          AttributesStable s' (writtenText calls)) := by
  obtain ⟨s₁, init, shows₁⟩ := consoleInit_shows s
  refine ⟨s₁, init, ?_⟩
  intro calls
  obtain ⟨s', run, shows'⟩ := writeCalls_shows calls s₁ [] shows₁
  rw [List.nil_append] at shows'
  refine ⟨s', run, shows'.attributesStable_iff, ?_⟩
  intro ascii
  exact shows'.attributesStable_iff.mpr fun c shown => ascii c shown.mem

/-- The byte `0x80` is stored with the attribute `0xFF`. -/
theorem screen_attributes_spoiled :
    ¬ ∀ (s : Console) (calls : List WriteCall),
      ∃ s₁ s', consoleInit s = some s₁ ∧ writeCalls calls s₁ = some s' ∧
        AttributesStable s' (writtenText calls) := by
  intro general
  obtain ⟨s₁, s', init, run, stable⟩ :=
    general ⟨0, 0, fun _ => 0, []⟩ [([0x80], 1)]
  obtain ⟨s₂, init₂, shows₂⟩ := consoleInit_shows ⟨0, 0, fun _ => 0, []⟩
  rw [init] at init₂
  rw [← Option.some.inj init₂] at shows₂
  obtain ⟨s₃, run₃, shows₃⟩ := writeCalls_shows [([0x80], 1)] s₁ [] shows₂
  rw [run] at run₃
  rw [← Option.some.inj run₃] at shows₃
  have ascii := shows₃.attributesStable_iff.mp stable 0x80
    ⟨0, 0, by decide, by decide, by decide⟩
  exact absurd ascii (by decide)

end Hlos.Drivers
