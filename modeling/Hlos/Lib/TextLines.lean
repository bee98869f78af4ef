import Mathlib.Data.List.Basic

/-!
# Texts cut into lines

A text is written line by line.  A line ends where it is broken, and where it
reaches the width of the screen.  `charAt` looks up an item by its line and
its column, with the unfinished line as the last one.
-/

namespace Hlos.Lib

universe u

/-- The completed lines, oldest first, and the line that is being written. -/
structure TextLines (α : Type u) where
  completed : List (List α)
  current : List α
deriving DecidableEq, Repr

namespace TextLines

variable {α : Type u}

def empty : TextLines α := ⟨[], []⟩

/-- The number of completed lines. -/
def count (lines : TextLines α) : Nat := lines.completed.length

/-- End the current line. -/
def breakLine (lines : TextLines α) : TextLines α :=
  ⟨lines.completed ++ [lines.current], []⟩

/-- Add an item to the current line, which ends if it reaches the width. -/
def append (width : Nat) (lines : TextLines α) (item : α) : TextLines α :=
  if lines.current.length + 1 = width then
    breakLine ⟨lines.completed, lines.current ++ [item]⟩
  else
    ⟨lines.completed, lines.current ++ [item]⟩

def charAt (lines : TextLines α) (line column : Nat) : Option α :=
  (lines.completed ++ [lines.current])[line]?.bind fun items => items[column]?

theorem charAt_empty (line column : Nat) :
    (empty : TextLines α).charAt line column = none := by
  cases line <;> simp [charAt, empty]

theorem count_breakLine (lines : TextLines α) :
    lines.breakLine.count = lines.count + 1 :=
  List.length_append

theorem count_append (width : Nat) (lines : TextLines α) (item : α) :
    (append width lines item).count =
      if lines.current.length + 1 = width then lines.count + 1
      else lines.count := by
  unfold append
  split
  · exact count_breakLine _
  · rfl

/-- A line that has just been broken shows nothing new. -/
theorem charAt_breakLine (lines : TextLines α) (line column : Nat) :
    lines.breakLine.charAt line column = lines.charAt line column := by
  unfold charAt breakLine
  by_cases old : line < (lines.completed ++ [lines.current]).length
  · rw [List.getElem?_append_left old]
  · have behind : (lines.completed ++ [lines.current])[line]? = none :=
      List.getElem?_eq_none (Nat.not_lt.mp old)
    rw [behind, List.getElem?_append_right (Nat.not_lt.mp old)]
    cases line - (lines.completed ++ [lines.current]).length <;> simp

/-- Beyond the current line and beyond its last item there is nothing. -/
theorem charAt_eq_none {lines : TextLines α} {line column : Nat}
    (behind : lines.count < line ∨
      (lines.count = line ∧ lines.current.length ≤ column)) :
    lines.charAt line column = none := by
  unfold count at behind
  unfold charAt
  cases behind with
  | inl below =>
      rw [List.getElem?_eq_none]
      · rfl
      · rw [List.length_append]
        exact below
  | inr last =>
      obtain ⟨rfl, beyond⟩ := last
      rw [List.getElem?_concat_length]
      exact List.getElem?_eq_none beyond

/-- The appended item is found behind the current line. -/
theorem charAt_append (width : Nat) (lines : TextLines α) (item : α)
    (line column : Nat) :
    (append width lines item).charAt line column =
      if line = lines.count ∧ column = lines.current.length then some item
      else lines.charAt line column := by
  have longer :
      charAt ⟨lines.completed, lines.current ++ [item]⟩ line column =
        if line = lines.count ∧ column = lines.current.length then some item
        else lines.charAt line column := by
    unfold charAt count
    by_cases old : line < lines.completed.length
    · have different : line ≠ lines.completed.length := Nat.ne_of_lt old
      rw [List.getElem?_append_left old, List.getElem?_append_left old,
        if_neg fun both => different both.1]
    · by_cases last : line = lines.completed.length
      · subst last
        rw [List.getElem?_concat_length, List.getElem?_concat_length]
        simp only [Option.bind_some, true_and]
        by_cases newest : column = lines.current.length
        · rw [if_pos newest, newest, List.getElem?_concat_length]
        · rw [if_neg newest]
          by_cases before : column < lines.current.length
          · exact List.getElem?_append_left before
          · rw [List.getElem?_eq_none, List.getElem?_eq_none]
            · exact Nat.not_lt.mp before
            · rw [List.length_append, List.length_singleton]
              omega
      · have behind : lines.completed.length + 1 ≤ line := by omega
        rw [if_neg fun both => last both.1, List.getElem?_eq_none,
          List.getElem?_eq_none]
        · rw [List.length_append]
          exact behind
        · rw [List.length_append]
          exact behind
  unfold append
  split
  · rw [charAt_breakLine, longer]
  · exact longer

end TextLines

end Hlos.Lib
