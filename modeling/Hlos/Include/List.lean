import Hlos.Lib.NodeStore

/-!
# `include/list.h`

The kernel's intrusive lists, over any store of `struct list_head` nodes.  The
buddy zone threads its lists through the frame array and the heap threads its
list through the block headers, and both run the functions of this file.
-/

set_option linter.style.nameCheck false

namespace Hlos.Include

open Hlos.Lib

variable {P σ : Type} [DecidableEq P] [NodeStore P σ]

/-- `list->next = list; list->prev = list`. -/
def initListHead (list : P) (s : σ) : Option σ := do
  let s ← NodeStore.setNext list list s
  NodeStore.setPrev list list s

def __listAdd (new prev next : P) (s : σ) : Option σ := do
  let s ← NodeStore.setPrev next new s
  let s ← NodeStore.setNext new next s
  let s ← NodeStore.setPrev new prev s
  NodeStore.setNext prev new s

/-- Insert `new` right after `head`. -/
def listAdd (new head : P) (s : σ) : Option σ := do
  let next ← NodeStore.getNext head s
  __listAdd new head next s

def __listDel (prev next : P) (s : σ) : Option σ := do
  let s ← NodeStore.setPrev next prev s
  NodeStore.setNext prev next s

/-- Unlink `entry` and set its own links to `NULL`. -/
def listDel (entry : P) (s : σ) : Option σ := do
  let prev ← NodeStore.getPrev entry s
  let next ← NodeStore.getNext entry s
  let s ← __listDel prev next s
  let s ← NodeStore.setNext entry (NodeStore.null σ) s
  NodeStore.setPrev entry (NodeStore.null σ) s

def listEmpty (head : P) (s : σ) : Option Bool := do
  let next ← NodeStore.getNext head s
  return next == head

section Specifications

variable {R : NodeRegion P σ}

theorem initListHead_spec {list : P} (isNode : R.node list) (s : σ) :
    ∃ s', initListHead list s = some s' ∧
      R.Edit s s' (Function.update (R.next s) list list)
        (Function.update (R.prev s) list list) := by
  obtain ⟨s₁, run₁, edit₁⟩ :=
    (NodeRegion.Edit.refl R s).setNext isNode (Or.inl isNode)
  obtain ⟨s₂, run₂, edit₂⟩ := edit₁.setPrev isNode (Or.inl isNode)
  exact ⟨s₂, by simp [initListHead, run₁, run₂], edit₂⟩

theorem listAdd_spec {new head : P} {s : σ}
    (newNode : R.node new) (headNode : R.node head)
    (nextNode : R.node (R.next s head)) :
    ∃ s', listAdd new head s = some s' ∧
      R.Edit s s'
        (Function.update (Function.update (R.next s) new (R.next s head))
          head new)
        (Function.update (Function.update (R.prev s) (R.next s head) new)
          new head) := by
  obtain ⟨s₁, run₁, edit₁⟩ :=
    (NodeRegion.Edit.refl R s).setPrev nextNode (Or.inl newNode)
  obtain ⟨s₂, run₂, edit₂⟩ := edit₁.setNext newNode (Or.inl nextNode)
  obtain ⟨s₃, run₃, edit₃⟩ := edit₂.setPrev newNode (Or.inl headNode)
  obtain ⟨s₄, run₄, edit₄⟩ := edit₃.setNext headNode (Or.inl newNode)
  refine ⟨s₄, ?_, edit₄⟩
  simp [listAdd, __listAdd, R.getNext_eq headNode, run₁, run₂, run₃, run₄]

theorem listDel_spec {entry : P} {s : σ}
    (entryNode : R.node entry) (prevNode : R.node (R.prev s entry))
    (nextNode : R.node (R.next s entry)) :
    ∃ s', listDel entry s = some s' ∧
      R.Edit s s'
        (Function.update
          (Function.update (R.next s) (R.prev s entry) (R.next s entry))
          entry (NodeStore.null σ))
        (Function.update
          (Function.update (R.prev s) (R.next s entry) (R.prev s entry))
          entry (NodeStore.null σ)) := by
  obtain ⟨s₁, run₁, edit₁⟩ :=
    (NodeRegion.Edit.refl R s).setPrev nextNode (Or.inl prevNode)
  obtain ⟨s₂, run₂, edit₂⟩ := edit₁.setNext prevNode (Or.inl nextNode)
  obtain ⟨s₃, run₃, edit₃⟩ := edit₂.setNext entryNode (Or.inr rfl)
  obtain ⟨s₄, run₄, edit₄⟩ := edit₃.setPrev entryNode (Or.inr rfl)
  refine ⟨s₄, ?_, edit₄⟩
  simp [listDel, __listDel, R.getPrev_eq entryNode,
    R.getNext_eq entryNode, run₁, run₂, run₃, run₄]

/-- `initListHead` makes an empty ring and touches no other node. -/
theorem initListHead_ring {list : P} (isNode : R.node list) (s : σ) :
    ∃ s', initListHead list s = some s' ∧ R.keeps s s' ∧
      R.RingAt s' list [] ∧ R.Untouched [list] s s' := by
  obtain ⟨s', run, edit⟩ := initListHead_spec isNode s
  refine ⟨s', run, edit.keeps, ⟨?_, by simp, by simpa using isNode⟩, ?_⟩
  · rw [Ring.nil_iff, edit.next_eq list isNode, edit.prev_eq list isNode]
    simp
  · intro q qNode absent
    have different : q ≠ list := by simpa using absent
    rw [edit.next_eq q qNode, edit.prev_eq q qNode]
    simp [different]

/-- `listAdd` on a list head pushes the new node in front. -/
theorem listAdd_front {new head : P} {items : List P} {s : σ}
    (at_ : R.RingAt s head items) (newNode : R.node new)
    (isFresh : new ∉ head :: items) :
    ∃ s', listAdd new head s = some s' ∧ R.keeps s s' ∧
      R.RingAt s' head (new :: items) ∧
      R.Untouched (new :: head :: items) s s' := by
  have headNode : R.node head := at_.nodes head (by simp)
  have nextMember := at_.next_head_node
  obtain ⟨s', run, edit⟩ :=
    listAdd_spec newNode headNode (at_.nodes _ nextMember)
  have allNodes : ∀ q, q ∈ head :: new :: items → R.node q := by
    intro q member
    rcases List.mem_cons.mp member with rfl | member
    · exact headNode
    · rcases List.mem_cons.mp member with rfl | member
      · exact newNode
      · exact at_.nodes q (List.mem_cons_of_mem head member)
  refine ⟨s', run, edit.keeps, ⟨?_, ?_, allNodes⟩, ?_⟩
  · apply (at_.ring.insert_front at_.nodup isFresh).transport
    · intro q member
      exact edit.next_eq q (allNodes q member)
    · intro q member
      exact edit.prev_eq q (allNodes q member)
  · have nodup := at_.nodup
    simp only [List.nodup_cons, List.mem_cons, not_or] at nodup isFresh ⊢
    exact ⟨⟨Ne.symm isFresh.1, nodup.1⟩, isFresh.2, nodup.2⟩
  · intro q qNode absent
    simp only [List.mem_cons, not_or] at absent
    have nextNe : q ≠ R.next s head := by
      rintro rfl
      rcases List.mem_cons.mp nextMember with isHead | isItem
      · exact absent.2.1 isHead
      · exact absent.2.2 isItem
    rw [edit.next_eq q qNode, edit.prev_eq q qNode]
    simp [absent.1, absent.2.1, nextNe]

/-- `listAdd` on a listed node puts the new node right behind it. -/
theorem listAdd_after {new head node : P} {before after : List P} {s : σ}
    (at_ : R.RingAt s head (before ++ node :: after)) (newNode : R.node new)
    (isFresh : new ∉ head :: (before ++ node :: after)) :
    ∃ s', listAdd new node s = some s' ∧ R.keeps s s' ∧
      R.RingAt s' head (before ++ node :: new :: after) ∧
      R.Untouched (new :: head :: (before ++ node :: after)) s s' := by
  have nodeMember : node ∈ head :: (before ++ node :: after) := by simp
  have nextMember : R.next s node ∈ head :: (before ++ node :: after) := by
    rw [at_.ring.next_item before after]
    cases after <;> simp
  obtain ⟨s', run, edit⟩ :=
    listAdd_spec newNode (at_.nodes node nodeMember)
      (at_.nodes _ nextMember)
  have samePerm :
      (head :: (before ++ node :: new :: after)).Perm
        (new :: head :: (before ++ node :: after)) := by
    have inner :
        (before ++ node :: new :: after).Perm
          (new :: (before ++ node :: after)) := by
      simpa using
        (@List.perm_middle P new (before ++ [node]) after)
    exact (inner.cons head).trans (List.Perm.swap new head _)
  have allNodes :
      ∀ q, q ∈ head :: (before ++ node :: new :: after) → R.node q := by
    intro q member
    rcases List.mem_cons.mp (samePerm.mem_iff.mp member) with rfl | old
    · exact newNode
    · exact at_.nodes q old
  refine ⟨s', run, edit.keeps, ⟨?_, ?_, allNodes⟩, ?_⟩
  · apply (at_.ring.insert_after at_.nodup isFresh).transport
    · intro q member
      exact edit.next_eq q (allNodes q member)
    · intro q member
      exact edit.prev_eq q (allNodes q member)
  · exact samePerm.nodup_iff.mpr (List.nodup_cons.mpr ⟨isFresh, at_.nodup⟩)
  · intro q qNode absent
    obtain ⟨neNew, notOld⟩ := not_or.mp (fun h => absent (List.mem_cons.mpr h))
    have neNode : q ≠ node := fun same => notOld (same ▸ nodeMember)
    have neNext : q ≠ R.next s node := fun same => notOld (same ▸ nextMember)
    rw [edit.next_eq q qNode, edit.prev_eq q qNode]
    simp [neNew, neNode, neNext]

/-- `listDel` on a listed node unlinks exactly that node. -/
theorem listDel_ring {head node : P} {before after : List P} {s : σ}
    (at_ : R.RingAt s head (before ++ node :: after)) :
    ∃ s', listDel node s = some s' ∧ R.keeps s s' ∧
      R.RingAt s' head (before ++ after) ∧
      R.Untouched (head :: (before ++ node :: after)) s s' := by
  have nodeMember : node ∈ head :: (before ++ node :: after) := by simp
  have nextMember : R.next s node ∈ head :: (before ++ node :: after) := by
    rw [at_.ring.next_item before after]
    cases after <;> simp
  have prevMember : R.prev s node ∈ head :: (before ++ node :: after) := by
    rw [at_.ring.prev_item before after]
    rcases List.eq_nil_or_concat before with rfl | ⟨front, last, rfl⟩ <;> simp
  obtain ⟨s', run, edit⟩ :=
    listDel_spec (at_.nodes node nodeMember) (at_.nodes _ prevMember)
      (at_.nodes _ nextMember)
  have smaller :
      List.Sublist (head :: (before ++ after))
        (head :: (before ++ node :: after)) := by
    simp
  have nodeGone : node ∉ head :: (before ++ after) := by
    have nodup := at_.nodup
    have moved :
        (head :: (before ++ node :: after)).Perm
          (node :: head :: (before ++ after)) :=
      (List.perm_middle.cons head).trans (List.Perm.swap node head _)
    exact (List.nodup_cons.mp (moved.nodup_iff.mp nodup)).1
  have allNodes : ∀ q, q ∈ head :: (before ++ after) → R.node q :=
    fun q member => at_.nodes q (smaller.subset member)
  refine ⟨s', run, edit.keeps,
    ⟨?_, at_.nodup.sublist smaller, allNodes⟩, ?_⟩
  · apply (at_.ring.remove at_.nodup).transport
    · intro q member
      have different : q ≠ node := fun same => nodeGone (same ▸ member)
      rw [edit.next_eq q (allNodes q member)]
      simp [different]
    · intro q member
      have different : q ≠ node := fun same => nodeGone (same ▸ member)
      rw [edit.prev_eq q (allNodes q member)]
      simp [different]
  · intro q qNode absent
    have neNode : q ≠ node := fun same => absent (same ▸ nodeMember)
    have neNext : q ≠ R.next s node := fun same => absent (same ▸ nextMember)
    have nePrev : q ≠ R.prev s node := fun same => absent (same ▸ prevMember)
    rw [edit.next_eq q qNode, edit.prev_eq q qNode]
    simp [neNode, neNext, nePrev]

/-- `listEmpty` answers whether the ring has no items. -/
theorem listEmpty_spec {head : P} {items : List P} {s : σ}
    (at_ : R.RingAt s head items) :
    listEmpty head s = some items.isEmpty := by
  have headNode : R.node head := at_.nodes head (by simp)
  have emptyIff :=
    at_.ring.eq_nil_iff (List.nodup_cons.mp at_.nodup).1
  rw [listEmpty, R.getNext_eq headNode]
  cases items with
  | nil => simpa using emptyIff
  | cons first rest => simpa using emptyIff

end Specifications

end Hlos.Include
