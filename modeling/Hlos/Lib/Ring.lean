import Mathlib.Data.List.Chain
import Mathlib.Data.List.Nodup
import Mathlib.Logic.Function.Basic

/-!
# Circular doubly linked lists

A circular list is a head node together with the items met when the forward
links are followed back to the head.  The two link maps are arbitrary
functions on an arbitrary type of nodes, so the facts below apply to any
memory from which such maps can be read.

Every edit is stated at the front of a ring.  A ring may be rotated to start
at any of its nodes, which reduces edits in the middle to edits at the front.
-/

namespace Hlos.Lib

universe u

variable {P : Type u}

/-- The node `right` follows `left` in both directions. -/
def Linked (next prev : P → P) (left right : P) : Prop :=
  next left = right ∧ prev right = left

/-- Following `next` from `head` meets exactly `items` and returns to `head`,
and `prev` retraces every one of these steps. -/
def Ring (next prev : P → P) (head : P) (items : List P) : Prop :=
  List.IsChain (Linked next prev) (head :: (items ++ [head]))

/-- A chain survives a change of the link maps that agrees on the nodes it
leaves forwards and on the nodes it leaves backwards. -/
theorem chain_transport
    {next prev next' prev' : P → P} {nodes : List P}
    (chain : List.IsChain (Linked next prev) nodes)
    (sameNext : ∀ node, node ∈ nodes.dropLast → next' node = next node)
    (samePrev : ∀ node, node ∈ nodes.tail → prev' node = prev node) :
    List.IsChain (Linked next' prev') nodes := by
  induction nodes with
  | nil => exact List.isChain_nil
  | cons left nodes inductionHypothesis =>
      cases nodes with
      | nil => exact List.isChain_singleton left
      | cons right rest =>
          rw [List.isChain_cons_cons] at chain ⊢
          have linked : Linked next prev left right := chain.1
          refine ⟨⟨?_, ?_⟩, ?_⟩
          · rw [sameNext left (by simp), linked.1]
          · rw [samePrev right (by simp), linked.2]
          · apply inductionHypothesis chain.2
            · intro node member
              exact sameNext node (by simp [member])
            · intro node member
              exact samePrev node (by simpa using Or.inr member)

namespace Ring

variable {next prev next' prev' : P → P} {head : P} {items : List P}

theorem nil_iff :
    Ring next prev head [] ↔ next head = head ∧ prev head = head := by
  simp [Ring, Linked]

theorem cons_iff {first : P} {rest : List P} :
    Ring next prev head (first :: rest) ↔
      Linked next prev head first ∧
        List.IsChain (Linked next prev) (first :: (rest ++ [head])) := by
  rw [Ring, List.cons_append, List.isChain_cons_cons]

/-- The forward link of the head is the first item, or the head itself. -/
theorem next_head (ring : Ring next prev head items) :
    next head = items.head?.getD head := by
  cases items with
  | nil => exact (nil_iff.mp ring).1
  | cons first rest => exact (cons_iff.mp ring).1.1

theorem next_head_mem (ring : Ring next prev head items) :
    next head = head ∨ next head ∈ items := by
  rw [ring.next_head]
  cases items <;> simp

/-- A ring is empty exactly when its head points at itself. -/
theorem eq_nil_iff
    (ring : Ring next prev head items) (headFresh : head ∉ items) :
    next head = head ↔ items = [] := by
  rw [ring.next_head]
  cases items with
  | nil => simp
  | cons first rest =>
      simp only [List.head?_cons, Option.getD_some, reduceCtorEq, iff_false]
      intro same
      exact headFresh (by simp [same])

/-- The same ring, read from another of its nodes. -/
theorem rotate_iff {before after : List P} {node : P} :
    Ring next prev head (before ++ node :: after) ↔
      Ring next prev node (after ++ head :: before) := by
  have fromHead :
      head :: ((before ++ node :: after) ++ [head]) =
        (head :: before) ++ node :: (after ++ [head]) := by simp
  have fromNode :
      node :: ((after ++ head :: before) ++ [node]) =
        (node :: after) ++ head :: (before ++ [node]) := by simp
  rw [Ring, Ring, fromHead, fromNode,
    @List.isChain_split _ _ _ (head :: before),
    @List.isChain_split _ _ _ (node :: after)]
  simpa only [List.cons_append] using And.comm

/-- The forward link of an item is the item after it, or the head. -/
theorem next_item (before after : List P) {node : P}
    (ring : Ring next prev head (before ++ node :: after)) :
    next node = after.head?.getD head := by
  rw [(rotate_iff.mp ring).next_head]
  cases after <;> simp

/-- The backward link of the first item is the head. -/
theorem prev_first {first : P} {rest : List P}
    (ring : Ring next prev head (first :: rest)) :
    prev first = head :=
  (cons_iff.mp ring).1.2

/-- The backward link of an item is the item before it, or the head. -/
theorem prev_item (before after : List P) {node : P}
    (ring : Ring next prev head (before ++ node :: after)) :
    prev node = before.getLast?.getD head := by
  rcases List.eq_nil_or_concat before with rfl | ⟨front, last, rfl⟩
  · exact prev_first ring
  · rw [List.concat_eq_append, List.append_assoc,
      List.singleton_append, rotate_iff] at ring
    rw [List.cons_append] at ring
    simp [prev_first ring]

/-- Two chains of forward links from one node back to the head agree. -/
theorem chain_unique {items others : List P} {start : P}
    (chain : List.IsChain (Linked next prev) (start :: (items ++ [head])))
    (otherChain :
      List.IsChain (Linked next prev) (start :: (others ++ [head])))
    (fresh : head ∉ items) (otherFresh : head ∉ others) :
    items = others := by
  induction items generalizing others start with
  | nil =>
      cases others with
      | nil => rfl
      | cons other others =>
          rw [List.nil_append, List.isChain_cons_cons] at chain
          rw [List.cons_append, List.isChain_cons_cons] at otherChain
          have same : head = other := chain.1.1.symm.trans otherChain.1.1
          exact absurd (by simp [same]) otherFresh
  | cons item rest inductionHypothesis =>
      rw [List.cons_append, List.isChain_cons_cons] at chain
      cases others with
      | nil =>
          rw [List.nil_append, List.isChain_cons_cons] at otherChain
          have same : head = item := otherChain.1.1.symm.trans chain.1.1
          exact absurd (by simp [same]) fresh
      | cons other others =>
          rw [List.cons_append, List.isChain_cons_cons] at otherChain
          have same : item = other := chain.1.1.symm.trans otherChain.1.1
          subst same
          rw [inductionHypothesis chain.2 otherChain.2
            (fun member => fresh (List.mem_cons_of_mem item member))
            (fun member => otherFresh (List.mem_cons_of_mem item member))]

/-- The links determine the items of a ring. -/
theorem unique {others : List P} (ring : Ring next prev head items)
    (otherRing : Ring next prev head others) (fresh : head ∉ items)
    (otherFresh : head ∉ others) : items = others :=
  chain_unique ring otherRing fresh otherFresh

theorem transport
    (ring : Ring next prev head items)
    (sameNext : ∀ node, node ∈ head :: items → next' node = next node)
    (samePrev : ∀ node, node ∈ head :: items → prev' node = prev node) :
    Ring next' prev' head items := by
  apply chain_transport ring
  · intro node member
    rw [← List.cons_append, List.dropLast_concat] at member
    exact sameNext node member
  · intro node member
    apply samePrev node
    simpa [or_comm] using member

/-- The backward link of the head is the last item, or the head itself. -/
theorem prev_head (ring : Ring next prev head items) :
    prev head = items.getLast?.getD head := by
  rcases List.eq_nil_or_concat items with rfl | ⟨front, last, rfl⟩
  · exact (nil_iff.mp ring).2
  · rw [List.concat_eq_append, rotate_iff] at ring
    rw [List.concat_eq_append, List.getLast?_concat]
    exact prev_first ring

/-- Forward links stay in the ring, and the items determine them. -/
theorem next_of_mem {node : P} (ring : Ring next prev head items)
    (member : node ∈ head :: items) :
    next node ∈ head :: items ∧ ∀ {next' prev' : P → P},
      Ring next' prev' head items → next' node = next node := by
  cases List.mem_cons.mp member with
  | inl isHead =>
      subst isHead
      refine ⟨?_, fun other => other.next_head.trans ring.next_head.symm⟩
      cases ring.next_head_mem with
      | inl atHead => exact List.mem_cons.mpr (Or.inl atHead)
      | inr inItems => exact List.mem_cons_of_mem _ inItems
  | inr inItems =>
      rcases List.append_of_mem inItems with ⟨before, after, rfl⟩
      refine ⟨?_, fun other => (other.next_item before after).trans
        (ring.next_item before after).symm⟩
      rw [ring.next_item before after]
      cases after <;> simp

/-- Backward links stay in the ring, and the items determine them. -/
theorem prev_of_mem {node : P} (ring : Ring next prev head items)
    (member : node ∈ head :: items) :
    prev node ∈ head :: items ∧ ∀ {next' prev' : P → P},
      Ring next' prev' head items → prev' node = prev node := by
  cases List.mem_cons.mp member with
  | inl isHead =>
      subst isHead
      refine ⟨?_, fun other => other.prev_head.trans ring.prev_head.symm⟩
      rw [ring.prev_head]
      rcases List.eq_nil_or_concat items with rfl | ⟨front, last, rfl⟩ <;> simp
  | inr inItems =>
      rcases List.append_of_mem inItems with ⟨before, after, rfl⟩
      refine ⟨?_, fun other => (other.prev_item before after).trans
        (ring.prev_item before after).symm⟩
      rw [ring.prev_item before after]
      rcases List.eq_nil_or_concat before with rfl | ⟨front, last, rfl⟩ <;> simp

/-- Walks from the head along the forward links stay in the ring, and the items
determine them. -/
theorem iterate_next (ring : Ring next prev head items)
    (other : Ring next' prev' head items) (count : Nat) :
    next^[count] head ∈ head :: items ∧
      next'^[count] head = next^[count] head := by
  induction count with
  | zero => exact ⟨List.mem_cons_self, rfl⟩
  | succ count inductionHypothesis =>
      have step := ring.next_of_mem inductionHypothesis.1
      rw [Function.iterate_succ_apply', Function.iterate_succ_apply',
        inductionHypothesis.2]
      exact ⟨step.1, step.2 other⟩

theorem iterate_prev (ring : Ring next prev head items)
    (other : Ring next' prev' head items) (count : Nat) :
    prev^[count] head ∈ head :: items ∧
      prev'^[count] head = prev^[count] head := by
  induction count with
  | zero => exact ⟨List.mem_cons_self, rfl⟩
  | succ count inductionHypothesis =>
      have step := ring.prev_of_mem inductionHypothesis.1
      rw [Function.iterate_succ_apply', Function.iterate_succ_apply',
        inductionHypothesis.2]
      exact ⟨step.1, step.2 other⟩

section Edits

variable [DecidableEq P]

/-- The way from the items back to the head does not meet the new links. -/
theorem insert_front_tail {fresh : P}
    (ring : Ring next prev head items)
    (nodup : (head :: items).Nodup)
    (isFresh : fresh ∉ head :: items) :
    List.IsChain
      (Linked
        (Function.update (Function.update next fresh (next head)) head fresh)
        (Function.update (Function.update prev (next head) fresh) fresh head))
      (items ++ [head]) := by
  have headNotItem := (List.nodup_cons.mp nodup).1
  have itemsNodup := (List.nodup_cons.mp nodup).2
  have tailChain :
      List.IsChain (Linked next prev) (items ++ [head]) := by
    simpa using List.IsChain.tail ring
  have notFresh : ∀ node, node ∈ items ++ [head] → node ≠ fresh := by
    intro node member same
    rw [same] at member
    exact isFresh (by simpa [or_comm] using member)
  apply chain_transport tailChain
  · intro node member
    have nodeNeFresh := notFresh node (List.dropLast_subset _ member)
    rw [List.dropLast_concat] at member
    have nodeNeHead : node ≠ head := ne_of_mem_of_not_mem member headNotItem
    simp [nodeNeHead, nodeNeFresh]
  · intro node member
    have nodeNeFresh := notFresh node (List.mem_of_mem_tail member)
    cases items with
    | nil => simp at member
    | cons first rest =>
        have atHead : next head = first := by
          simpa using ring.next_head
        have nodeNeFirst : node ≠ first := by
          intro same
          rw [same] at member
          simp only [List.cons_append, List.tail_cons, List.mem_append,
            List.mem_singleton] at member
          cases member with
          | inl inRest => exact (List.nodup_cons.mp itemsNodup).1 inRest
          | inr isHead => exact headNotItem (by simp [isHead])
        simp [nodeNeFresh, atHead, nodeNeFirst]

/-- Link a fresh node in right after the head. -/
theorem insert_front {fresh : P}
    (ring : Ring next prev head items)
    (nodup : (head :: items).Nodup)
    (isFresh : fresh ∉ head :: items) :
    Ring
      (Function.update (Function.update next fresh (next head)) head fresh)
      (Function.update (Function.update prev (next head) fresh) fresh head)
      head (fresh :: items) := by
  have freshNeHead : fresh ≠ head := List.ne_of_not_mem_cons isFresh
  have closing := insert_front_tail ring nodup isFresh
  rw [cons_iff]
  refine ⟨⟨by simp, by simp⟩, ?_⟩
  cases items with
  | nil =>
      have atHead : next head = head := (nil_iff.mp ring).1
      have headNeFresh : head ≠ fresh := Ne.symm freshNeHead
      simp [Linked, atHead, freshNeHead, headNeFresh]
  | cons first rest =>
      have atHead : next head = first := by
        simpa using ring.next_head
      have firstNeFresh : first ≠ fresh := by
        intro same
        exact isFresh (by simp [same])
      rw [List.cons_append, List.isChain_cons_cons]
      refine ⟨⟨?_, ?_⟩, closing⟩
      · simp [freshNeHead, atHead]
      · simp [firstNeFresh, atHead]

/-- Unlink the first item. -/
theorem remove_front {first : P}
    (ring : Ring next prev head (first :: items))
    (nodup : (head :: first :: items).Nodup) :
    Ring
      (Function.update next head (next first))
      (Function.update prev (next first) head)
      head items := by
  obtain ⟨headFresh, restNodup⟩ := List.nodup_cons.mp nodup
  obtain ⟨firstFresh, itemsNodup⟩ := List.nodup_cons.mp restNodup
  have restRing := (cons_iff.mp ring).2
  cases items with
  | nil =>
      have closes : next first = head := by
        simpa using ring.next_item [] []
      simp [nil_iff, closes]
  | cons second rest =>
      have atFirst : next first = second := by
        simpa using ring.next_item [] (second :: rest)
      have headNeSecond : head ≠ second := by
        rintro rfl
        exact headFresh (by simp)
      rw [cons_iff]
      refine ⟨⟨by simp [atFirst], by simp [atFirst]⟩, ?_⟩
      have restChain :
          List.IsChain (Linked next prev) (second :: (rest ++ [head])) := by
        rw [List.cons_append, List.isChain_cons_cons] at restRing
        exact restRing.2
      apply chain_transport restChain
      · intro node member
        rw [← List.cons_append, List.dropLast_concat] at member
        have nodeNeHead : node ≠ head := by
          rintro rfl
          exact headFresh (List.mem_cons_of_mem first member)
        simp [nodeNeHead]
      · intro node member
        simp only [List.tail_cons, List.mem_append,
          List.mem_singleton] at member
        have nodeNeSecond : node ≠ second := by
          rintro rfl
          rcases member with inRest | isHead
          · exact (List.nodup_cons.mp itemsNodup).1 inRest
          · exact headNeSecond isHead.symm
        simp [atFirst, nodeNeSecond]

/-- Link a fresh node in after an arbitrary item. -/
theorem insert_after {before after : List P} {node fresh : P}
    (ring : Ring next prev head (before ++ node :: after))
    (nodup : (head :: (before ++ node :: after)).Nodup)
    (isFresh : fresh ∉ head :: (before ++ node :: after)) :
    Ring
      (Function.update (Function.update next fresh (next node)) node fresh)
      (Function.update (Function.update prev (next node) fresh) fresh node)
      head (before ++ node :: fresh :: after) := by
  have rotated := rotate_iff.mp ring
  have samePerm :
      (node :: (after ++ head :: before)).Perm
        (head :: (before ++ node :: after)) := by
    simpa using
      (@List.perm_append_comm P (node :: after) (head :: before))
  have inserted :=
    rotated.insert_front (samePerm.nodup_iff.mpr nodup)
      (fun member => isFresh (samePerm.mem_iff.mp member))
  rw [← List.cons_append, ← rotate_iff] at inserted
  exact inserted

/-- Unlink an arbitrary item. -/
theorem remove {before after : List P} {node : P}
    (ring : Ring next prev head (before ++ node :: after))
    (nodup : (head :: (before ++ node :: after)).Nodup) :
    Ring
      (Function.update next (prev node) (next node))
      (Function.update prev (next node) (prev node))
      head (before ++ after) := by
  have atNode := ring.prev_item before after
  rcases List.eq_nil_or_concat before with rfl | ⟨front, last, rfl⟩
  · rw [atNode]
    exact remove_front ring nodup
  · rw [List.concat_eq_append] at ring nodup atNode ⊢
    have atLast : prev node = last := by
      rw [atNode]
      simp
    rw [List.append_assoc, List.singleton_append] at ring nodup ⊢
    have samePerm :
        (last :: node :: (after ++ head :: front)).Perm
          (head :: (front ++ last :: node :: after)) := by
      simpa using
        (@List.perm_append_comm P (last :: node :: after) (head :: front))
    have rotated : Ring next prev last (node :: (after ++ head :: front)) := by
      simpa using rotate_iff.mp ring
    have removed :=
      rotated.remove_front (samePerm.nodup_iff.mpr nodup)
    rw [atLast, rotate_iff]
    exact removed

end Edits

end Ring

end Hlos.Lib
