import Mathlib.Data.List.Basic

/-!
# Scanning a text from the left

A scan takes the leading items that its step accepts and stops at the first
one that it refuses.  It has no result when it runs off the end of the text.
-/

namespace Hlos.Lib

universe u v

variable {α : Type u} {σ : Type v}

/-- Read items as long as the step has a result. -/
def scan (step : α → σ → Option σ) : List α → σ → Option (List α × σ)
  | [], _ => none
  | item :: rest, state =>
      match step item state with
      | some next => scan step rest next
      | none => some (item :: rest, state)

/-- The step accepts the items one after the other, from one state to
another. -/
inductive Accepts (step : α → σ → Option σ) : List α → σ → σ → Prop where
  | nil (state : σ) : Accepts step [] state state
  | cons {item : α} {items : List α} {state next last : σ} :
      step item state = some next → Accepts step items next last →
      Accepts step (item :: items) state last

section Scan

variable {step : α → σ → Option σ}

theorem scan_of_refused {item : α} {state : σ} (rest : List α)
    (refused : step item state = none) :
    scan step (item :: rest) state = some (item :: rest, state) := by
  rw [scan, refused]

theorem scan_append {items : List α} {state last : σ} {stop : α}
    (rest : List α) (accepted : Accepts step items state last)
    (refused : step stop last = none) :
    scan step (items ++ stop :: rest) state = some (stop :: rest, last) := by
  induction accepted with
  | nil => exact scan_of_refused rest refused
  | cons taken _ inductionRest =>
      rw [List.cons_append, scan, taken]
      exact inductionRest refused

/-- A text with an item that no state accepts is not overrun. -/
theorem scan_of_mem {stop : α} (refused : ∀ state, step stop state = none)
    {items : List α} (member : stop ∈ items) (state : σ) :
    ∃ rest last, scan step items state = some (rest, last) ∧
      rest <:+ items ∧ stop ∈ rest := by
  induction items generalizing state with
  | nil => cases member
  | cons item items inductionRest =>
      cases taken : step item state with
      | none =>
          exact ⟨_, _, scan_of_refused items taken, List.suffix_refl _, member⟩
      | some next =>
          have later : stop ∈ items := by
            cases List.mem_cons.mp member with
            | inl same =>
                rw [← same, refused] at taken
                cases taken
            | inr inItems => exact inItems
          obtain ⟨rest, last, run, suffix, kept⟩ := inductionRest later next
          refine ⟨rest, last, ?_, suffix.trans (List.suffix_cons _ _), kept⟩
          rw [scan, taken]
          exact run

/-- What a scan leaves stands behind items that were accepted. -/
theorem exists_accepts_of_scan {items rest : List α} {state last : σ}
    (run : scan step items state = some (rest, last)) :
    ∃ taken, items = taken ++ rest ∧ Accepts step taken state last := by
  induction items generalizing state with
  | nil => cases run
  | cons item items inductionRest =>
      rw [scan] at run
      cases taken : step item state with
      | none =>
          rw [taken] at run
          cases run
          exact ⟨[], rfl, Accepts.nil _⟩
      | some next =>
          rw [taken] at run
          rcases inductionRest run with ⟨more, isItems, accepted⟩
          exact ⟨item :: more, congrArg (item :: ·) isItems,
            Accepts.cons taken accepted⟩

theorem refused_of_scan {items rest : List α} {item : α} {state last : σ}
    (run : scan step items state = some (item :: rest, last)) :
    step item last = none := by
  induction items generalizing state with
  | nil => cases run
  | cons first items inductionRest =>
      rw [scan] at run
      cases taken : step first state with
      | none =>
          rw [taken] at run
          cases run
          exact taken
      | some next =>
          rw [taken] at run
          exact inductionRest run

end Scan

end Hlos.Lib
