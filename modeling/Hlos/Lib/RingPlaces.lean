import Hlos.Lib.NodeStore
import Hlos.Lib.RingSurgery

/-!
# Places in the rings of a store

A place is the gap between two neighbouring nodes of a ring.  Read from the
node behind a place, a ring has the place at its front, so an edit stated for
the front of a ring applies at every place of it.

`Rewires` is what a call may do to a store: it succeeds, changes the links of
the listed nodes only and ends in a state with a given property.
-/

namespace Hlos.Lib

namespace NodeRegion

variable {P σ : Type} [DecidableEq P] [NodeStore P σ]
variable {R : NodeRegion P σ} {s : σ} {head : P}

theorem RingAt.rotate {node : P} {before after : List P}
    (at_ : R.RingAt s head (before ++ node :: after)) :
    R.RingAt s node (after ++ head :: before) where
  ring := Ring.rotate_iff.mp at_.ring
  nodup := (Ring.rotate_perm head node before after).nodup_iff.mpr at_.nodup
  nodes := fun q member =>
    at_.nodes q
      ((Ring.rotate_perm head node before after).mem_iff.mp member)

theorem RingAt.behind_mem {before after : List P}
    (_ : R.RingAt s head (before ++ after)) :
    Ring.behind head before ∈ head :: (before ++ after) := by
  rcases List.eq_nil_or_concat before with rfl | ⟨front, last, rfl⟩
  · simp [Ring.behind]
  · simp [Ring.behind]

theorem RingAt.ahead_mem {before after : List P}
    (_ : R.RingAt s head (before ++ after)) :
    Ring.ahead head after ∈ head :: (before ++ after) := by
  cases after <;> simp [Ring.ahead]

/-- Read a ring from the node behind one of its places. -/
theorem RingAt.at_place {before after : List P}
    (at_ : R.RingAt s head (before ++ after)) :
    ∃ rest, R.RingAt s (Ring.behind head before) (after ++ rest) ∧
      (Ring.behind head before :: (after ++ rest)).Perm
        (head :: (before ++ after)) ∧
      ∀ (s' : σ) (middle : List P),
        R.RingAt s' (Ring.behind head before) (middle ++ (after ++ rest)) →
          R.RingAt s' head (before ++ (middle ++ after)) := by
  rcases List.eq_nil_or_concat before with rfl | ⟨front, last, rfl⟩
  · refine ⟨[], by simpa [Ring.behind] using at_, ?_, ?_⟩
    · simp [Ring.behind]
    · intro s' middle moved
      simpa [Ring.behind] using moved
  · rw [List.concat_eq_append] at at_ ⊢
    have isLast : Ring.behind head (front ++ [last]) = last := by
      simp [Ring.behind]
    rw [isLast]
    rw [List.append_assoc, List.singleton_append] at at_
    refine ⟨head :: front, at_.rotate, ?_, ?_⟩
    · simpa using Ring.rotate_perm head last front after
    · intro s' middle moved
      rw [← List.append_assoc] at moved
      simpa using moved.rotate

/-- A ring of the edited links is a ring of the edited state. -/
theorem Edit.ringAt {s' : σ} {next' prev' : P → P} {items : List P}
    (edit : R.Edit s s' next' prev') (ring : Ring next' prev' head items)
    (nodup : (head :: items).Nodup)
    (nodes : ∀ q, q ∈ head :: items → R.node q) :
    R.RingAt s' head items where
  ring := ring.transport
    (fun q member => edit.next_eq q (nodes q member))
    (fun q member => edit.prev_eq q (nodes q member))
  nodup := nodup
  nodes := nodes

theorem Edit.untouched {s' : σ} {next' prev' : P → P} {written : List P}
    (edit : R.Edit s s' next' prev')
    (same : ∀ q, q ∉ written → next' q = R.next s q ∧ prev' q = R.prev s q) :
    R.Untouched written s s' := by
  intro q isNode absent
  rw [edit.next_eq q isNode, edit.prev_eq q isNode]
  exact same q absent

/-- The result is a state with the property `post`, and only the links of the
nodes in `written` differ from `s`. -/
def Rewires (R : NodeRegion P σ) (written : List P) (s : σ)
    (result : Option σ) (post : σ → Prop) : Prop :=
  ∃ s', result = some s' ∧ R.keeps s s' ∧ R.Untouched written s s' ∧ post s'

theorem Untouched.mono {written wider : List P} {s' : σ}
    (untouched : R.Untouched written s s') (within : written ⊆ wider) :
    R.Untouched wider s s' :=
  fun q isNode absent =>
    untouched q isNode (fun member => absent (within member))

theorem Untouched.trans {written : List P} {s' s'' : σ}
    (first : R.Untouched written s s') (second : R.Untouched written s' s'') :
    R.Untouched written s s'' := by
  intro q isNode absent
  rw [(second q isNode absent).1, (second q isNode absent).2]
  exact first q isNode absent

theorem Rewires.refl {written : List P} {post : σ → Prop} (holds : post s) :
    R.Rewires written s (some s) post :=
  ⟨s, rfl, R.keeps_refl s, fun _ _ _ => ⟨rfl, rfl⟩, holds⟩

theorem Rewires.mono {written wider : List P} {result : Option σ}
    {post post' : σ → Prop} (rewires : R.Rewires written s result post)
    (within : written ⊆ wider)
    (weaken : ∀ s', R.Untouched written s s' → post s' → post' s') :
    R.Rewires wider s result post' := by
  obtain ⟨s', run, keeps, untouched, holds⟩ := rewires
  exact ⟨s', run, keeps, untouched.mono within, weaken s' untouched holds⟩

/-- One call after another. -/
theorem Rewires.bind {written : List P} {call : Option σ}
    {continuation : σ → Option σ} {post post' : σ → Prop}
    (first : R.Rewires written s call post)
    (second : ∀ s', R.Untouched written s s' → post s' →
      R.Rewires written s' (continuation s') post') :
    R.Rewires written s (call >>= continuation) post' := by
  obtain ⟨s', run, keeps, untouched, holds⟩ := first
  obtain ⟨s'', run', keeps', untouched', holds'⟩ := second s' untouched holds
  refine ⟨s'', ?_, R.keeps_trans keeps keeps', untouched.trans untouched',
    holds'⟩
  simp [run, run']

end NodeRegion

end Hlos.Lib
