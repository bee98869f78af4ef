import Hlos.Include.Page

/-!
# `drivers/console.c`

The text console.  Video memory is an array of 2000 cells; a store to any
other index has no result.  The values sent to the VGA controller are kept,
newest first.

A string is the list of its characters up to the terminating zero.  `char` is
signed.
-/

namespace Hlos.Drivers

open Hlos.Include

def maxXpos : Nat := 80

def maxYpos : Nat := 25

/-- The cursor, video memory and the writes to I/O ports. -/
structure Console where
  xpos : BitVec 8
  ypos : BitVec 8
  video : Nat → BitVec 16
  ports : List (BitVec 16 × BitVec 8)

/-- `video_memory[i] = value`. -/
def storeCell (i : Nat) (value : BitVec 16) (s : Console) : Option Console :=
  if i < maxXpos * maxYpos then
    some { s with video := Function.update s.video i value }
  else none

def outb (port : BitVec 16) (value : BitVec 8) (s : Console) : Console :=
  { s with ports := (port, value) :: s.ports }

def moveCursor (s : Console) : Console :=
  let cursorLocation : BitVec 16 :=
    BitVec.ofNat 16 (s.ypos.toNat * 80 + s.xpos.toNat)
  let s := outb 0x3D4 14 s
  let s := outb 0x3D5 ((cursorLocation >>> 8).setWidth 8) s
  let s := outb 0x3D4 15 s
  outb 0x3D5 (cursorLocation.setWidth 8) s

def blankCell : BitVec 16 := 0x720

/-- A loop that stores to the cells from `base + i` on, `left` times. -/
def cellLoop (base : Nat) (value : Nat → Console → BitVec 16) :
    (left i : Nat) → Console → Option Console
  | 0, _, s => some s
  | left + 1, i, s => do
      let s ← storeCell (base + i) (value i s) s
      cellLoop base value left (i + 1) s

def consoleInit (s : Console) : Option Console := do
  let s ← cellLoop 0 (fun _ _ => blankCell) (maxXpos * maxYpos) 0 s
  return moveCursor { s with xpos := 0, ypos := 0 }

/-- The loop that moves the rows up; it runs while `k` is below `max_ypos`,
and the first argument is the difference. -/
def scrollLoop : (left k j : Nat) → Console → Option Console
  | 0, _, j, s => cellLoop (maxXpos * j) (fun _ _ => blankCell) maxXpos 0 s
  | left + 1, k, j, s => do
      let s ← cellLoop (maxXpos * j) (fun i s => s.video (maxXpos * k + i))
        maxXpos 0 s
      scrollLoop left (k + 1) (j + 1) s

def scroll (s : Console) : Option Console := do
  let s ← scrollLoop (maxYpos - 1) 1 0 s
  return { s with ypos := BitVec.ofNat 8 (maxYpos - 1) }

/-- `(0x7 << 8) | (unsigned short) c`. -/
def cellValue (c : BitVec 8) : BitVec 16 :=
  ((0x7 : BitVec 16) <<< 8) ||| c.signExtend 16

/-- The body of the loop of `console_vga_write` behind the scroll. -/
def placeChar (c : BitVec 8) (s : Console) : Option Console :=
  if c = 0x0A then
    some { s with xpos := 0, ypos := s.ypos + 1 }
  else if c ≠ 0x0D then do
    let s ← storeCell (maxXpos * s.ypos.toNat + s.xpos.toNat) (cellValue c) s
    let s := { s with xpos := s.xpos + 1 }
    if s.xpos.toNat ≥ maxXpos then
      return { s with xpos := 0, ypos := s.ypos + 1 }
    else
      return s
  else
    some s

/-- The delayed scroll at the head of the loop. -/
def scrollDelayed (s : Console) : Option Console :=
  if s.ypos.toNat ≥ maxYpos then scroll s else some s

def writeChar (c : BitVec 8) (s : Console) : Option Console := do
  let s ← scrollDelayed s
  placeChar c s

/-- The loop of `console_vga_write`.  It stops at the end of the string or
after `n` characters. -/
def writeLoop : (str : List (BitVec 8)) → (n : Nat) → Console → Option Console
  | [], _, s => some s
  | c :: str, n, s =>
      if c ≠ 0 ∧ 0 < n then do
        let s ← writeChar c s
        writeLoop str (n - 1) s
      else
        some s

def consoleVgaWrite (str : List (BitVec 8)) (n : Word) (s : Console) :
    Option Console := do
  let s ← writeLoop str n.toNat s
  return moveCursor s

/-! ## Loops over cells -/

/-- Nothing but the video memory differs. -/
structure SameButVideo (s s' : Console) : Prop where
  xpos : s'.xpos = s.xpos
  ypos : s'.ypos = s.ypos
  ports : s'.ports = s.ports

theorem SameButVideo.trans {s s' s'' : Console} (first : SameButVideo s s')
    (second : SameButVideo s' s'') : SameButVideo s s'' :=
  ⟨second.xpos.trans first.xpos, second.ypos.trans first.ypos,
    second.ports.trans first.ports⟩

theorem storeCell_eq {i : Nat} (bound : i < 2000) (value : BitVec 16)
    (s : Console) :
    ∃ s', storeCell i value s = some s' ∧ SameButVideo s s' ∧
      ∀ cell, s'.video cell = if cell = i then value else s.video cell := by
  refine ⟨_, if_pos bound, ⟨rfl, rfl, rfl⟩, ?_⟩
  intro cell
  exact Function.update_apply _ _ _ _

/-- The loop fills its cells, if no value depends on a cell that was filled
before. -/
theorem cellLoop_spec {base : Nat} {value : Nat → Console → BitVec 16}
    (left i : Nat) (s : Console) (result : Nat → BitVec 16)
    (room : base + i + left ≤ 2000)
    (values : ∀ index, i ≤ index → index < i + left → ∀ s',
      (∀ cell, cell < base + i ∨ base + i + left ≤ cell →
        s'.video cell = s.video cell) →
      value index s' = result index) :
    ∃ s', cellLoop base value left i s = some s' ∧ SameButVideo s s' ∧
      ∀ cell, s'.video cell =
        if base + i ≤ cell ∧ cell < base + i + left then result (cell - base)
        else s.video cell := by
  induction left generalizing i s with
  | zero =>
      refine ⟨s, rfl, ⟨rfl, rfl, rfl⟩, ?_⟩
      intro cell
      rw [if_neg (by omega)]
  | succ left inductionHypothesis =>
      obtain ⟨s₁, store, same₁, cells₁⟩ :=
        @storeCell_eq (base + i) (by omega) (value i s) s
      have first : value i s = result i :=
        values i (Nat.le_refl i) (by omega) s (fun _ _ => rfl)
      obtain ⟨s', rest, same', cells'⟩ :=
        inductionHypothesis (i + 1) s₁ (by omega) (by
          intro index low high other agrees
          apply values index (by omega) (by omega)
          intro cell outside
          rw [agrees cell (by omega), cells₁, if_neg (by omega)])
      refine ⟨s', ?_, same₁.trans same', ?_⟩
      · rw [cellLoop, store]
        exact rest
      · intro cell
        rw [cells', cells₁, first]
        by_cases here : cell = base + i
        · have index : cell - base = i := by omega
          rw [if_neg (by omega), if_pos here, if_pos (by omega), index]
        · rw [if_neg here]
          by_cases inside : base + (i + 1) ≤ cell ∧
              cell < base + (i + 1) + left
          · rw [if_pos inside, if_pos (by omega)]
          · rw [if_neg inside, if_neg (by omega)]

/-- The loop over one row of the screen. -/
theorem rowLoop_spec {j : Nat} {value : Nat → Console → BitVec 16}
    (s : Console) (result : Nat → BitVec 16) (room : j < 25)
    (values : ∀ index, index < 80 → ∀ s',
      (∀ row column, row ≠ j → column < 80 →
        s'.video (80 * row + column) = s.video (80 * row + column)) →
      value index s' = result index) :
    ∃ s', cellLoop (maxXpos * j) value maxXpos 0 s = some s' ∧
      SameButVideo s s' ∧
      ∀ row column, column < 80 →
        s'.video (80 * row + column) =
          if row = j then result column
          else s.video (80 * row + column) := by
  obtain ⟨s', run, same, cells⟩ :=
    @cellLoop_spec (80 * j) value 80 0 s result (by omega) (by
      intro index _ bound other agrees
      apply values index (by omega)
      intro row column different columnBound
      exact agrees _ (by omega))
  refine ⟨s', run, same, ?_⟩
  intro row column bound
  rw [cells]
  by_cases here : row = j
  · have index : 80 * row + column - 80 * j = column := by omega
    rw [if_pos here, if_pos (by omega), index]
  · rw [if_neg here, if_neg (by omega)]

/-- The rows behind `j` move up by one, and the last one becomes blank. -/
theorem scrollLoop_spec (left j : Nat) (s : Console) (room : j + left < 25) :
    ∃ s', scrollLoop left (j + 1) j s = some s' ∧ SameButVideo s s' ∧
      ∀ row column, column < 80 →
        s'.video (80 * row + column) =
          if j ≤ row ∧ row < j + left then s.video (80 * (row + 1) + column)
          else if row = j + left then blankCell
          else s.video (80 * row + column) := by
  induction left generalizing j s with
  | zero =>
      obtain ⟨s', run, same, cells⟩ :=
        @rowLoop_spec j (fun _ _ => blankCell) s (fun _ => blankCell)
          (by omega) (fun _ _ _ _ => rfl)
      refine ⟨s', run, same, ?_⟩
      intro row column bound
      have notMoved : ¬ (j ≤ row ∧ row < j + 0) := by omega
      rw [if_neg notMoved]
      exact cells row column bound
  | succ left inductionHypothesis =>
      obtain ⟨s₁, copy, same₁, cells₁⟩ :=
        @rowLoop_spec j (fun i s => s.video (maxXpos * (j + 1) + i)) s
          (fun i => s.video (80 * (j + 1) + i)) (by omega)
          (fun index bound other agrees =>
            agrees (j + 1) index (by omega) bound)
      obtain ⟨s', rest, same', cells'⟩ :=
        inductionHypothesis (j + 1) s₁ (by omega)
      refine ⟨s', ?_, same₁.trans same', ?_⟩
      · rw [scrollLoop, copy]
        exact rest
      · intro row column bound
        have below := cells₁ (row + 1) column bound
        have here := cells₁ row column bound
        have regroup : j + 1 + left = j + (left + 1) := by omega
        rw [cells' row column bound, below, here, regroup]
        by_cases first : row = j
        · subst first
          simp
        · by_cases moved : j + 1 ≤ row ∧ row < j + (left + 1)
          · have wasMoved : j ≤ row ∧ row < j + (left + 1) := by omega
            have notFirst : row + 1 ≠ j := by omega
            rw [if_pos moved, if_pos wasMoved, if_neg notFirst]
          · have notMoved : ¬ (j ≤ row ∧ row < j + (left + 1)) := by omega
            rw [if_neg moved, if_neg notMoved, if_neg first]

/-- A scroll moves all rows up by one. -/
theorem scroll_spec (s : Console) :
    ∃ s', scroll s = some s' ∧ s'.xpos = s.xpos ∧ s'.ypos.toNat = 24 ∧
      s'.ports = s.ports ∧
      ∀ row column, row < 25 → column < 80 →
        s'.video (80 * row + column) =
          if row = 24 then blankCell
          else s.video (80 * (row + 1) + column) := by
  obtain ⟨s', run, same, cells⟩ := scrollLoop_spec 24 0 s (by decide)
  refine ⟨{ s' with ypos := BitVec.ofNat 8 24 }, ?_, same.xpos, rfl,
    same.ports, ?_⟩
  · have run : scrollLoop (maxYpos - 1) 1 0 s = some s' := run
    rw [scroll, run]
    rfl
  · intro row column rowBound columnBound
    change s'.video _ = _
    have moved := cells row column columnBound
    by_cases last : row = 24
    · have notMoved : ¬ (0 ≤ row ∧ row < 0 + 24) := by omega
      rw [if_neg notMoved, if_pos (by omega)] at moved
      rw [if_pos last, moved]
    · rw [if_pos (by omega)] at moved
      rw [if_neg last, moved]

/-- `console_init` clears the screen. -/
theorem consoleInit_spec (s : Console) :
    ∃ s', consoleInit s = some s' ∧ s'.xpos = 0 ∧ s'.ypos = 0 ∧
      ∀ cell, cell < 2000 → s'.video cell = blankCell := by
  obtain ⟨s', run, _, cells⟩ :=
    @cellLoop_spec 0 (fun _ _ => blankCell) 2000 0 s (fun _ => blankCell)
      (by decide) (fun _ _ _ _ _ => rfl)
  have run : cellLoop 0 (fun _ _ => blankCell) (maxXpos * maxYpos) 0 s =
      some s' := run
  refine ⟨moveCursor { s' with xpos := 0, ypos := 0 }, ?_, rfl, rfl, ?_⟩
  · rw [consoleInit, run]
    rfl
  · intro cell bound
    change s'.video cell = blankCell
    rw [cells, if_pos (by omega)]

end Hlos.Drivers
