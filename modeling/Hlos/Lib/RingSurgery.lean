import Hlos.Lib.Ring

/-!
# Splicing, cutting and replacing in rings

These edits move a whole segment of nodes at once.  Inside a segment no link
changes, so each edit is settled by the few links at the ends of the segments.
-/

namespace Hlos.Lib

namespace Ring

universe u

variable {P : Type u}
variable {next prev next' prev' : P → P} {head : P} {items : List P}

/-- The node behind which the items after `before` stand: the last item of
`before`, or the head when there is none. -/
def behind (head : P) (before : List P) : P :=
  before.getLast?.getD head

/-- The node before which the items ahead of `after` stand. -/
def ahead (head : P) (after : List P) : P :=
  after.head?.getD head

theorem linked_between {before after : List P}
    (ring : Ring next prev head (before ++ after)) :
    Linked next prev (behind head before) (ahead head after) := by
  rw [Ring, List.append_assoc, ← List.cons_append] at ring
  apply (List.isChain_append.mp ring).2.2
  · rcases List.eq_nil_or_concat before with rfl | ⟨front, last, rfl⟩
    · simp [behind]
    · simp [behind, List.getLast?_cons]
  · cases after <;> simp [ahead]

/-- The nodes of a ring, listed from another of them. -/
theorem rotate_perm (head node : P) (before after : List P) :
    (node :: (after ++ head :: before)).Perm
      (head :: (before ++ node :: after)) := by
  simpa using
    (@List.perm_append_comm P (node :: after) (head :: before))

theorem items_chain (ring : Ring next prev head items) :
    List.IsChain (Linked next prev) items :=
  (List.isChain_append.mp (List.isChain_cons.mp ring).2).1

/-- A linked segment survives a change of the forward link of its last node and
of the backward link of its first node. -/
theorem segment_transport {nodes : List P}
    (chain : List.IsChain (Linked next prev) nodes) (nodup : nodes.Nodup)
    (sameNext : ∀ node, node ∈ nodes → nodes.getLast? ≠ some node →
      next' node = next node)
    (samePrev : ∀ node, node ∈ nodes → nodes.head? ≠ some node →
      prev' node = prev node) :
    List.IsChain (Linked next' prev') nodes := by
  apply chain_transport chain
  · intro node member
    apply sameNext node (List.dropLast_subset nodes member)
    rcases List.eq_nil_or_concat nodes with rfl | ⟨front, last, rfl⟩
    · simp
    · rw [List.concat_eq_append] at nodup member ⊢
      rw [List.dropLast_concat] at member
      have different := (List.nodup_append.mp nodup).2.2 node member last
      simpa [eq_comm] using different
  · intro node member
    apply samePrev node (List.mem_of_mem_tail member)
    cases nodes with
    | nil => simp
    | cons first rest =>
        have firstGone : first ∉ rest := (List.nodup_cons.mp nodup).1
        rw [List.tail_cons] at member
        have different : first ≠ node := by
          rintro rfl
          exact firstGone member
        simpa using different

/-- The items stay linked up to the head when only the backward link of their
first node and links elsewhere change. -/
theorem closing_transport
    (closing : List.IsChain (Linked next prev) (items ++ [head]))
    (nodup : (head :: items).Nodup)
    (sameNext : ∀ node, node ∈ items → next' node = next node)
    (samePrev : ∀ node, node ∈ head :: items →
      node ≠ items.head?.getD head → prev' node = prev node) :
    List.IsChain (Linked next' prev') (items ++ [head]) := by
  have sameMembers : (items ++ [head]).Perm (head :: items) :=
    List.perm_append_singleton head items
  apply segment_transport closing (sameMembers.nodup_iff.mpr nodup)
  · intro node member notLast
    rw [List.getLast?_concat] at notLast
    have neHead : node ≠ head := fun same => notLast (by rw [same])
    exact sameNext node (by simpa [neHead] using member)
  · intro node member notFirst
    apply samePrev node (sameMembers.mem_iff.mp member)
    rintro rfl
    apply notFirst
    cases items <;> simp

theorem of_closing
    (closing : List.IsChain (Linked next prev) (items ++ [head]))
    (entering : Linked next prev head (items.head?.getD head)) :
    Ring next prev head items := by
  rw [Ring, List.isChain_cons]
  refine ⟨?_, closing⟩
  intro node isHead
  have isNext : items.head?.getD head = node := by
    cases items <;> simpa using isHead
  rw [← isNext]
  exact entering

/-- Two linked segments, entered from the head and glued to each other. -/
theorem of_segments {first last : P} {others : List P}
    (segment : List.IsChain (Linked next prev) others)
    (closing : List.IsChain (Linked next prev) (items ++ [head]))
    (isFirst : others.head? = some first)
    (isLast : others.getLast? = some last)
    (entering : Linked next prev head first)
    (leaving : Linked next prev last (items.head?.getD head)) :
    Ring next prev head (others ++ items) := by
  apply of_closing
  · rw [List.append_assoc, List.isChain_append]
    refine ⟨segment, closing, ?_⟩
    intro left isLeft right isRight
    rw [isLast] at isLeft
    obtain rfl : last = left := by simpa using isLeft
    have isNext : items.head?.getD head = right := by
      cases items <;> simpa using isRight
    rw [← isNext]
    exact leaving
  · rw [List.head?_append, isFirst]
    exact entering

theorem of_segment {first last : P}
    (chain : List.IsChain (Linked next prev) items) (nodup : items.Nodup)
    (isFirst : items.head? = some first) (isLast : items.getLast? = some last)
    (entering : Linked next' prev' head first)
    (leaving : Linked next' prev' last head)
    (sameNext : ∀ node, node ∈ items → node ≠ last → next' node = next node)
    (samePrev : ∀ node, node ∈ items → node ≠ first →
      prev' node = prev node) :
    Ring next' prev' head items := by
  have segment : List.IsChain (Linked next' prev') items := by
    apply segment_transport chain nodup
    · intro node member notLast
      apply sameNext node member
      rintro rfl
      exact notLast isLast
    · intro node member notFirst
      apply samePrev node member
      rintro rfl
      exact notFirst isFirst
  have closing : List.IsChain (Linked next' prev') ([] ++ [head]) :=
    List.isChain_singleton head
  simpa using of_segments segment closing isFirst isLast entering leaving

section Edits

variable [DecidableEq P]

theorem splice_front {first last : P} {others : List P}
    (ring : Ring next prev head items)
    (chain : List.IsChain (Linked next prev) others)
    (nodup : (head :: (others ++ items)).Nodup)
    (isFirst : others.head? = some first)
    (isLast : others.getLast? = some last) :
    Ring
      (Function.update (Function.update next head first) last (next head))
      (Function.update (Function.update prev first head) (next head) last)
      head (others ++ items) := by
  obtain ⟨headFresh, allNodup⟩ := List.nodup_cons.mp nodup
  obtain ⟨othersNodup, itemsNodup, apart⟩ := List.nodup_append.mp allNodup
  have headNotItem : head ∉ items :=
    fun member => headFresh (List.mem_append_right others member)
  have firstMember : first ∈ others := List.mem_of_head? isFirst
  have lastMember : last ∈ others := List.mem_of_getLast? isLast
  have outside : ∀ left right, left ∈ others → right ∈ head :: items →
      left ≠ right := by
    rintro left right leftMember rightMember rfl
    cases List.mem_cons.mp rightMember with
    | inl isHead =>
        exact headFresh (List.mem_append_left items (isHead ▸ leftMember))
    | inr inItems => exact apart left leftMember left inItems rfl
  have behind : next head ∈ head :: items :=
    (ring.next_of_mem List.mem_cons_self).1
  have headNeLast : head ≠ last := (outside last head lastMember (by simp)).symm
  refine of_segments ?_ ?_ isFirst isLast ?_ ?_
  · apply segment_transport chain othersNodup
    · intro node member notLast
      have neLast : node ≠ last := by
        rintro rfl
        exact notLast isLast
      have neHead := outside node head member (by simp)
      simp [neLast, neHead]
    · intro node member notFirst
      have neFirst : node ≠ first := by
        rintro rfl
        exact notFirst isFirst
      have neBehind := outside node (next head) member behind
      simp [neFirst, neBehind]
  · apply closing_transport (List.isChain_cons.mp ring).2
      (List.nodup_cons.mpr ⟨headNotItem, itemsNodup⟩)
    · intro node member
      have neLast := (outside last node lastMember (by simp [member])).symm
      have neHead : node ≠ head := ne_of_mem_of_not_mem member headNotItem
      simp [neLast, neHead]
    · intro node member neBehind
      rw [← ring.next_head] at neBehind
      have neFirst := (outside first node firstMember member).symm
      simp [neFirst, neBehind]
  · have neBehind := outside first (next head) firstMember behind
    exact ⟨by simp [headNeLast], by simp [neBehind]⟩
  · rw [← ring.next_head]
    exact ⟨by simp, by simp⟩

theorem cut_front {list first last : P} {front back : List P}
    (ring : Ring next prev head (front ++ back))
    (nodup : (head :: (front ++ back)).Nodup)
    (isFresh : list ∉ head :: (front ++ back))
    (isFirst : front.head? = some first)
    (isLast : front.getLast? = some last) :
    let next' :=
      Function.update (Function.update (Function.update next list first)
        last list) head (next last)
    let prev' :=
      Function.update (Function.update (Function.update prev first list)
        list last) (next last) head
    Ring next' prev' list front ∧ Ring next' prev' head back := by
  obtain ⟨headFresh, allNodup⟩ := List.nodup_cons.mp nodup
  obtain ⟨frontNodup, backNodup, apart⟩ := List.nodup_append.mp allNodup
  have headNotBack : head ∉ back :=
    fun member => headFresh (List.mem_append_right front member)
  have firstMember : first ∈ front := List.mem_of_head? isFirst
  have lastMember : last ∈ front := List.mem_of_getLast? isLast
  have listNeHead : list ≠ head := List.ne_of_not_mem_cons isFresh
  have notList : ∀ node, node ∈ front ++ back → node ≠ list :=
    fun node member => ne_of_mem_of_not_mem member
      (List.not_mem_of_not_mem_cons isFresh)
  have notListFront : ∀ node, node ∈ front → node ≠ list :=
    fun node member => notList node (List.mem_append_left back member)
  have outside : ∀ left right, left ∈ front → right ∈ head :: back →
      left ≠ right := by
    rintro left right leftMember rightMember rfl
    cases List.mem_cons.mp rightMember with
    | inl isHead =>
        exact headFresh (List.mem_append_left back (isHead ▸ leftMember))
    | inr inBack => exact apart left leftMember left inBack rfl
  have atLast : next last = back.head?.getD head := by
    obtain ⟨before, rfl⟩ := List.getLast?_eq_some_iff.mp isLast
    rw [List.append_assoc] at ring
    exact ring.next_item before back
  have behind : next last ∈ head :: back := by
    rw [atLast]
    cases back <;> simp
  have behindNeList : next last ≠ list := by
    cases List.mem_cons.mp behind with
    | inl isHead =>
        rw [isHead]
        exact listNeHead.symm
    | inr inBack => exact notList _ (List.mem_append_right front inBack)
  constructor
  · apply of_segment (List.isChain_append.mp ring.items_chain).1 frontNodup
      isFirst isLast
    · have neBehind := outside first (next last) firstMember behind
      have neLast := (notListFront last lastMember).symm
      have neFirst := notListFront first firstMember
      exact ⟨by simp [listNeHead, neLast], by simp [neBehind, neFirst]⟩
    · have neHead := outside last head lastMember (by simp)
      exact ⟨by simp [neHead], by simp [behindNeList.symm]⟩
    · intro node member neLast
      have neHead := outside node head member (by simp)
      simp [neHead, neLast, notListFront node member]
    · intro node member neFirst
      have neBehind := outside node (next last) member behind
      simp [neBehind, neFirst, notListFront node member]
  · apply of_closing
    · have closing := (List.isChain_cons.mp ring).2
      rw [List.append_assoc] at closing
      apply closing_transport (List.isChain_append.mp closing).2.1
        (List.nodup_cons.mpr ⟨headNotBack, backNodup⟩)
      · intro node member
        have neHead : node ≠ head := ne_of_mem_of_not_mem member headNotBack
        have neLast := (outside last node lastMember (by simp [member])).symm
        have neList := notList node (List.mem_append_right front member)
        simp [neHead, neLast, neList]
      · intro node member neBehind
        rw [← atLast] at neBehind
        have neFirst := (outside first node firstMember member).symm
        have neList : node ≠ list := by
          cases List.mem_cons.mp member with
          | inl isHead =>
              rw [isHead]
              exact listNeHead.symm
          | inr inBack => exact notList node (List.mem_append_right front inBack)
        simp [neBehind, neFirst, neList]
    · rw [← atLast]
      exact ⟨by simp, by simp⟩

theorem replace_head {old new first last : P}
    (ring : Ring next prev old items) (nodup : (old :: items).Nodup)
    (isFresh : new ∉ old :: items)
    (isFirst : items.head? = some first) (isLast : items.getLast? = some last) :
    Ring
      (Function.update (Function.update next new first) last new)
      (Function.update (Function.update prev first new) new last)
      new items := by
  have freshItem : new ∉ items :=
    fun member => isFresh (List.mem_cons_of_mem old member)
  have notNew : ∀ node, node ∈ items → node ≠ new :=
    fun node member => ne_of_mem_of_not_mem member freshItem
  have firstNe : first ≠ new := notNew first (List.mem_of_head? isFirst)
  have lastNe : last ≠ new := notNew last (List.mem_of_getLast? isLast)
  apply of_segment ring.items_chain (List.nodup_cons.mp nodup).2 isFirst isLast
  · exact ⟨by simp [lastNe.symm], by simp [firstNe]⟩
  · exact ⟨by simp, by simp⟩
  · intro node member neLast
    simp [neLast, notNew node member]
  · intro node member neFirst
    simp [neFirst, notNew node member]

end Edits

end Ring

end Hlos.Lib
