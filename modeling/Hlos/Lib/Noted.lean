import Mathlib.Control.Monad.Writer

/-!
# Computations that note what they do

A computation that may have no result, and that notes events on the way.
Forgetting the notes leaves a plain computation with the same result.
-/

namespace Hlos.Lib

universe u

abbrev Noted (ε α : Type u) : Type u := WriterT (List ε) Option α

namespace Noted

variable {ε α β : Type u} {p : ε → Prop}

def note (event : ε) : Noted ε PUnit := tell [event]

/-- The result without the notes; `simp` pushes it through a computation. -/
def result (m : Noted ε α) : Option α := m.run.map Prod.fst

@[simp]
theorem result_pure (a : α) : result (pure a : Noted ε α) = some a := rfl

@[simp]
theorem result_lift (m : Option α) : result (liftM m : Noted ε α) = m := by
  cases m <;> rfl

@[simp]
theorem result_bind (m : Noted ε α) (f : α → Noted ε β) :
    result (m >>= f) = (result m).bind fun a => result (f a) := by
  change Option.map Prod.fst (Option.bind m _) = (Option.map Prod.fst m).bind _
  cases m with
  | none => rfl
  | some first =>
      exact Option.map_map Prod.fst (fun second => (second.1, first.2 ++ second.2))
        (f first.1).run

@[simp]
theorem result_ite (c : Prop) [Decidable c] (m n : Noted ε α) :
    result (if c then m else n) = if c then result m else result n :=
  apply_ite result c m n

@[simp]
theorem result_note (event : ε) : result (note event) = some ⟨⟩ := rfl

theorem exists_run {m : Noted ε α} {a : α} (returned : result m = some a) :
    ∃ events, m.run = some (a, events) := by
  obtain ⟨⟨_, events⟩, run, rfl⟩ := Option.map_eq_some_iff.mp returned
  exact ⟨events, run⟩

/-! ## Rules for the notes -/

/-- Everything that is noted on the way to a result has the property. -/
def NotesOnly (p : ε → Prop) (m : Noted ε α) : Prop :=
  ∀ a events, m.run = some (a, events) → ∀ event ∈ events, p event

theorem NotesOnly.pure (a : α) : NotesOnly p (Pure.pure a : Noted ε α) := by
  rintro _ _ ⟨⟩ event member
  cases member

theorem NotesOnly.lift (m : Option α) :
    NotesOnly p (liftM m : Noted ε α) := by
  intro a events run event member
  obtain ⟨_, _, pair⟩ := Option.map_eq_some_iff.mp run
  cases pair
  cases member

theorem NotesOnly.note {event : ε} (holds : p event) :
    NotesOnly p (Noted.note event) := by
  rintro _ _ ⟨⟩ noted member
  rwa [List.mem_singleton.mp member]

/-- The second computation is looked at only where the first one ends. -/
theorem NotesOnly.bind {m : Noted ε α} {f : α → Noted ε β}
    (first : NotesOnly p m)
    (rest : ∀ a, result m = some a → NotesOnly p (f a)) :
    NotesOnly p (m >>= f) := by
  intro b events run event member
  obtain ⟨⟨a, before⟩, runFirst, runRest⟩ := Option.bind_eq_some_iff.mp run
  obtain ⟨⟨_, behind⟩, runSecond, pair⟩ := Option.map_eq_some_iff.mp runRest
  cases pair
  have returned : result m = some a := congrArg (Option.map Prod.fst) runFirst
  rcases List.mem_append.mp member with earlier | later
  · exact first a before runFirst event earlier
  · exact rest a returned b behind runSecond event later

theorem NotesOnly.ite {c : Prop} [Decidable c] {m n : Noted ε α}
    (holds : NotesOnly p m) (fails : ¬ c → NotesOnly p n) :
    NotesOnly p (if c then m else n) := by
  split
  · exact holds
  · next differs => exact fails differs

theorem NotesOnly.note_bind {event : ε} {f : PUnit → Noted ε β}
    (holds : p event) (rest : NotesOnly p (f ⟨⟩)) :
    NotesOnly p (Noted.note event >>= f) :=
  NotesOnly.bind (NotesOnly.note holds) fun _ _ => rest

theorem NotesOnly.lift_bind {m : Option α} {f : α → Noted ε β}
    (rest : ∀ a, NotesOnly p (f a)) :
    NotesOnly p ((liftM m : Noted ε α) >>= f) :=
  NotesOnly.bind (NotesOnly.lift m) fun a _ => rest a

end Noted

end Hlos.Lib
