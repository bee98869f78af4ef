import Mathlib.Data.List.Nodup
import Mathlib.Data.List.Perm.Basic
import Mathlib.Logic.Equiv.Basic

/-!
# Tables indexed by numbers

An in-place algorithm on an array sees a function on the indices below a
count.  Exchanging two entries permutes the table.  `SettledBelow` is the
invariant of a selection sort: everything before an index is in its place.
-/

namespace Hlos.Lib

universe u

variable {α : Type u}

/-- The entries of a table in index order. -/
def tableOf (count : Nat) (entry : Nat → α) : List α :=
  (List.range count).map entry

theorem mem_tableOf {count : Nat} {entry : Nat → α} {item : α} :
    item ∈ tableOf count entry ↔
      ∃ index, index < count ∧ entry index = item := by
  simp [tableOf]

theorem tableOf_succ (count : Nat) (entry : Nat → α) :
    tableOf (count + 1) entry = tableOf count entry ++ [entry count] := by
  simp [tableOf, List.range_succ]

theorem tableOf_congr {count : Nat} {entry other : Nat → α}
    (same : ∀ index, index < count → entry index = other index) :
    tableOf count entry = tableOf count other := by
  apply List.map_congr_left
  intro index member
  exact same index (List.mem_range.mp member)

/-- The table with two entries exchanged. -/
def swapAt (entry : Nat → α) (left right : Nat) : Nat → α :=
  fun index => entry (Equiv.swap left right index)

theorem swapAt_eq_update (entry : Nat → α) (left right : Nat) :
    swapAt entry left right =
      Function.update (Function.update entry right (entry left)) left
        (entry right) := by
  funext index
  unfold swapAt
  rw [Equiv.swap_apply_def]
  by_cases isLeft : index = left
  · simp [isLeft]
  · by_cases isRight : index = right
    · subst isRight
      simp [isLeft]
    · simp [isLeft, isRight]

theorem swapAt_self (entry : Nat → α) (index : Nat) :
    swapAt entry index index = entry := by
  funext other
  simp [swapAt]

/-- Exchanging two entries permutes the table. -/
theorem tableOf_swapAt_perm {count left right : Nat} (entry : Nat → α)
    (leftBound : left < count) (rightBound : right < count) :
    (tableOf count (swapAt entry left right)).Perm (tableOf count entry) := by
  have bounded : ∀ index, index < count →
      Equiv.swap left right index < count := by
    intro index bound
    rw [Equiv.swap_apply_def]
    split
    · exact rightBound
    · split
      · exact leftBound
      · exact bound
  have indices :
      ((List.range count).map (Equiv.swap left right)).Perm
        (List.range count) := by
    have nodup : ((List.range count).map (Equiv.swap left right)).Nodup :=
      List.nodup_range.map (Equiv.swap left right).injective
    apply (List.perm_ext_iff_of_nodup nodup List.nodup_range).mpr
    intro index
    simp only [List.mem_map, List.mem_range]
    constructor
    · rintro ⟨source, bound, rfl⟩
      exact bounded source bound
    · intro bound
      exact ⟨Equiv.swap left right index, bounded index bound,
        Equiv.swap_apply_self left right index⟩
  have mapped := indices.map entry
  rw [List.map_map] at mapped
  exact mapped

/-- Entries before `done` are at most all later ones. -/
def SettledBelow (key : Nat → Nat) (done count : Nat) : Prop :=
  ∀ left right, left < done → left < right → right < count →
    key left ≤ key right

theorem SettledBelow.zero (key : Nat → Nat) (count : Nat) :
    SettledBelow key 0 count := by
  intro left right bound
  omega

/-- Putting a least remaining entry into its place. -/
theorem SettledBelow.select {key : Nat → Nat} {done count least : Nat}
    (settled : SettledBelow key done count) (low : done ≤ least)
    (high : least < count)
    (isLeast : ∀ index, done ≤ index → index < count →
      key least ≤ key index) :
    SettledBelow (swapAt key done least) (done + 1) count := by
  have moved : ∀ index, done ≤ index → index < count →
      ∃ source, done ≤ source ∧ source < count ∧
        swapAt key done least index = key source := by
    intro index above below
    refine ⟨Equiv.swap done least index, ?_, ?_, rfl⟩
    · rw [Equiv.swap_apply_def]
      split <;> [omega; (split <;> omega)]
    · rw [Equiv.swap_apply_def]
      split <;> [omega; (split <;> omega)]
  have fixed : ∀ index, index < done →
      swapAt key done least index = key index := by
    intro index below
    unfold swapAt
    rw [Equiv.swap_apply_of_ne_of_ne (by omega) (by omega)]
  have atDone : swapAt key done least done = key least := by
    unfold swapAt
    rw [Equiv.swap_apply_left]
  intro left right leftBound order rightBound
  by_cases old : left < done
  · rw [fixed left old]
    by_cases rightOld : right < done
    · rw [fixed right rightOld]
      exact settled left right old order rightBound
    · obtain ⟨source, above, below, value⟩ :=
        moved right (by omega) rightBound
      rw [value]
      exact settled left source old (by omega) below
  · have isDone : left = done := by omega
    subst isDone
    obtain ⟨source, above, below, value⟩ := moved right (by omega) rightBound
    rw [atDone, value]
    exact isLeast source above below

/-- A settled table is sorted. -/
theorem SettledBelow.sorted {key : Nat → Nat} {done count : Nat}
    (settled : SettledBelow key done count) (all : count ≤ done + 1) :
    ∀ left right, left ≤ right → right < count → key left ≤ key right := by
  intro left right order bound
  by_cases same : left = right
  · exact Nat.le_of_eq (by rw [same])
  · exact settled left right (by omega) (by omega) bound

theorem pairwise_tableOf {count : Nat} {entry : Nat → α}
    {relation : α → α → Prop}
    (related : ∀ left right, left < right → right < count →
      relation (entry left) (entry right)) :
    (tableOf count entry).Pairwise relation := by
  rw [tableOf, List.pairwise_map]
  apply List.pairwise_lt_range.imp_of_mem
  intro left right _ rightMember order
  exact related left right order (List.mem_range.mp rightMember)

end Hlos.Lib
