import Hlos.Lib.Ring

/-!
# Stores of linked nodes

`NodeStore` is the interface a memory offers to code that follows and rewrites
the two links of a node.  Every access may fail, so that a store can refuse an
address outside the objects it holds.

A `NodeRegion` is a set of nodes on which such a store behaves: the accesses
succeed, the nodes do not overlap, and a write to one link leaves every other
link of the region alone.  `keeps` records what a write leaves unchanged
besides the links.
-/

namespace Hlos.Lib

/-- Reading and writing the links of a node; `null` is the pointer to none. -/
class NodeStore (P : outParam Type) (σ : Type) where
  null : P
  getPrev : P → σ → Option P
  getNext : P → σ → Option P
  setPrev : P → P → σ → Option σ
  setNext : P → P → σ → Option σ

/-- Nodes of a store that are accessible and pairwise separate. -/
structure NodeRegion (P σ : Type) [DecidableEq P] [NodeStore P σ] where
  node : P → Prop
  next : σ → P → P
  prev : σ → P → P
  keeps : σ → σ → Prop
  keeps_refl : ∀ s, keeps s s
  keeps_trans : ∀ {s t u}, keeps s t → keeps t u → keeps s u
  getPrev_eq :
    ∀ {p}, node p → ∀ s : σ, NodeStore.getPrev p s = some (prev s p)
  getNext_eq :
    ∀ {p}, node p → ∀ s : σ, NodeStore.getNext p s = some (next s p)
  setPrev_eq :
    ∀ {p value}, node p → (node value ∨ value = NodeStore.null σ) →
      ∀ s : σ, ∃ s', NodeStore.setPrev p value s = some s' ∧ keeps s s' ∧
        (∀ q, node q → next s' q = next s q) ∧
        ∀ q, node q → prev s' q = Function.update (prev s) p value q
  setNext_eq :
    ∀ {p value}, node p → (node value ∨ value = NodeStore.null σ) →
      ∀ s : σ, ∃ s', NodeStore.setNext p value s = some s' ∧ keeps s s' ∧
        (∀ q, node q → next s' q = Function.update (next s) p value q) ∧
        ∀ q, node q → prev s' q = prev s q

namespace NodeRegion

variable {P σ : Type} [DecidableEq P] [NodeStore P σ]

/-- The state `s'` has the given links on the region and keeps the rest. -/
structure Edit (R : NodeRegion P σ) (s s' : σ)
    (next' prev' : P → P) : Prop where
  keeps : R.keeps s s'
  next_eq : ∀ q, R.node q → R.next s' q = next' q
  prev_eq : ∀ q, R.node q → R.prev s' q = prev' q

theorem Edit.setPrev {R : NodeRegion P σ} {s s' : σ}
    {next' prev' : P → P} {p value : P}
    (edit : R.Edit s s' next' prev') (isNode : R.node p)
    (legal : R.node value ∨ value = NodeStore.null σ) :
    ∃ t, NodeStore.setPrev p value s' = some t ∧
      R.Edit s t next' (Function.update prev' p value) := by
  obtain ⟨t, run, keeps, nextEq, prevEq⟩ := R.setPrev_eq isNode legal s'
  refine ⟨t, run, R.keeps_trans edit.keeps keeps, ?_, ?_⟩
  · intro q qNode
    rw [nextEq q qNode, edit.next_eq q qNode]
  · intro q qNode
    rw [prevEq q qNode, Function.update_apply, Function.update_apply,
      edit.prev_eq q qNode]

theorem Edit.setNext {R : NodeRegion P σ} {s s' : σ}
    {next' prev' : P → P} {p value : P}
    (edit : R.Edit s s' next' prev') (isNode : R.node p)
    (legal : R.node value ∨ value = NodeStore.null σ) :
    ∃ t, NodeStore.setNext p value s' = some t ∧
      R.Edit s t (Function.update next' p value) prev' := by
  obtain ⟨t, run, keeps, nextEq, prevEq⟩ := R.setNext_eq isNode legal s'
  refine ⟨t, run, R.keeps_trans edit.keeps keeps, ?_, ?_⟩
  · intro q qNode
    rw [nextEq q qNode, Function.update_apply, Function.update_apply,
      edit.next_eq q qNode]
  · intro q qNode
    rw [prevEq q qNode, edit.prev_eq q qNode]

theorem Edit.refl (R : NodeRegion P σ) (s : σ) :
    R.Edit s s (R.next s) (R.prev s) :=
  ⟨R.keeps_refl s, fun _ _ => rfl, fun _ _ => rfl⟩

/-- A duplicate-free ring whose nodes all lie in the region. -/
structure RingAt (R : NodeRegion P σ) (s : σ) (head : P)
    (items : List P) : Prop where
  ring : Ring (R.next s) (R.prev s) head items
  nodup : (head :: items).Nodup
  nodes : ∀ q, q ∈ head :: items → R.node q

/-- The links of every region node outside `written` are the same. -/
def Untouched (R : NodeRegion P σ) (written : List P) (s s' : σ) : Prop :=
  ∀ q, R.node q → q ∉ written →
    R.next s' q = R.next s q ∧ R.prev s' q = R.prev s q

/-- Writes outside a ring leave the ring in place. -/
theorem RingAt.frame {R : NodeRegion P σ} {s s' : σ} {head : P}
    {items written : List P} (at_ : R.RingAt s head items)
    (untouched : R.Untouched written s s')
    (apart : ∀ q, q ∈ head :: items → q ∉ written) :
    R.RingAt s' head items where
  ring := by
    apply at_.ring.transport
    · intro node member
      exact (untouched node (at_.nodes node member) (apart node member)).1
    · intro node member
      exact (untouched node (at_.nodes node member) (apart node member)).2
  nodup := at_.nodup
  nodes := at_.nodes

/-- A list head is the head of one ring only. -/
theorem RingAt.unique {R : NodeRegion P σ} {s : σ} {head : P}
    {items others : List P} (at_ : R.RingAt s head items)
    (otherAt : R.RingAt s head others) : items = others :=
  at_.ring.unique otherAt.ring (List.nodup_cons.mp at_.nodup).1
    (List.nodup_cons.mp otherAt.nodup).1

theorem RingAt.next_head_node {R : NodeRegion P σ} {s : σ} {head : P}
    {items : List P} (at_ : R.RingAt s head items) :
    R.next s head ∈ head :: items := by
  rcases at_.ring.next_head_mem with isHead | isItem
  · simp [isHead]
  · exact List.mem_cons_of_mem head isItem

end NodeRegion

end Hlos.Lib
