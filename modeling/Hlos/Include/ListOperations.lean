import Hlos.Include.List
import Hlos.Lib.RingPlaces

/-!
# The other operations of `include/list.h`

Queues, moves, replacement, cutting and splicing.  Each function is followed
link by link and then described by what it does to the rings it is used on.
-/

set_option linter.style.nameCheck false

namespace Hlos.Include

open Hlos.Lib

variable {P σ : Type} [DecidableEq P] [NodeStore P σ]

/-- Insert `new` right before `head`. -/
def listAddTail (new head : P) (s : σ) : Option σ := do
  let prev ← NodeStore.getPrev head s
  __listAdd new prev head s

def __listDelEntry (entry : P) (s : σ) : Option σ := do
  let prev ← NodeStore.getPrev entry s
  let next ← NodeStore.getNext entry s
  __listDel prev next s

/-- Put `new` in the place of `old`.  Both neighbours are read back through
`new`, so an `old` that is alone leaves `new` alone. -/
def listReplace (old new : P) (s : σ) : Option σ := do
  let next ← NodeStore.getNext old s
  let s ← NodeStore.setNext new next s
  let next ← NodeStore.getNext new s
  let s ← NodeStore.setPrev next new s
  let prev ← NodeStore.getPrev old s
  let s ← NodeStore.setPrev new prev s
  let prev ← NodeStore.getPrev new s
  NodeStore.setNext prev new s

def listReplaceInit (old new : P) (s : σ) : Option σ := do
  let s ← listReplace old new s
  initListHead old s

/-- Unlink `entry` and leave it as an empty list. -/
def listDelInit (entry : P) (s : σ) : Option σ := do
  let s ← __listDelEntry entry s
  initListHead entry s

def listMove (list head : P) (s : σ) : Option σ := do
  let s ← __listDelEntry list s
  listAdd list head s

def listMoveTail (list head : P) (s : σ) : Option σ := do
  let s ← __listDelEntry list s
  listAddTail list head s

def listIsLast (list head : P) (s : σ) : Option Bool := do
  let next ← NodeStore.getNext list s
  return next == head

def listEmptyCareful (head : P) (s : σ) : Option Bool := do
  let next ← NodeStore.getNext head s
  let prev ← NodeStore.getPrev head s
  return next == head && next == prev

/-- Move the first entry to the end. -/
def listRotateLeft (head : P) (s : σ) : Option σ := do
  let empty ← listEmpty head s
  if !empty then
    let first ← NodeStore.getNext head s
    listMoveTail first head s
  else
    return s

def listIsSingular (head : P) (s : σ) : Option Bool := do
  let empty ← listEmpty head s
  let next ← NodeStore.getNext head s
  let prev ← NodeStore.getPrev head s
  return !empty && next == prev

def __listCutPosition (list head entry : P) (s : σ) : Option σ := do
  let newFirst ← NodeStore.getNext entry s
  let first ← NodeStore.getNext head s
  let s ← NodeStore.setNext list first s
  let first ← NodeStore.getNext list s
  let s ← NodeStore.setPrev first list s
  let s ← NodeStore.setPrev list entry s
  let s ← NodeStore.setNext entry list s
  let s ← NodeStore.setNext head newFirst s
  NodeStore.setPrev newFirst head s

/-- Move the entries of `head` up to and including `entry` to `list`.  An empty
`head` leaves `list` as it is. -/
def listCutPosition (list head entry : P) (s : σ) : Option σ := do
  let empty ← listEmpty head s
  if empty then
    return s
  let singular ← listIsSingular head s
  let first ← NodeStore.getNext head s
  if singular && (first != entry && head != entry) then
    return s
  if entry = head then
    initListHead list s
  else
    __listCutPosition list head entry s

def __listSplice (list prev next : P) (s : σ) : Option σ := do
  let first ← NodeStore.getNext list s
  let last ← NodeStore.getPrev list s
  let s ← NodeStore.setPrev first prev s
  let s ← NodeStore.setNext prev first s
  let s ← NodeStore.setNext last next s
  NodeStore.setPrev next last s

/-- Insert the entries of `list` right after `head`. -/
def listSplice (list head : P) (s : σ) : Option σ := do
  let empty ← listEmpty list s
  if !empty then
    let next ← NodeStore.getNext head s
    __listSplice list head next s
  else
    return s

/-- Insert the entries of `list` right before `head`. -/
def listSpliceTail (list head : P) (s : σ) : Option σ := do
  let empty ← listEmpty list s
  if !empty then
    let prev ← NodeStore.getPrev head s
    __listSplice list prev head s
  else
    return s

def listSpliceInit (list head : P) (s : σ) : Option σ := do
  let empty ← listEmpty list s
  if !empty then
    let next ← NodeStore.getNext head s
    let s ← __listSplice list head next s
    initListHead list s
  else
    return s

def listSpliceTailInit (list head : P) (s : σ) : Option σ := do
  let empty ← listEmpty list s
  if !empty then
    let prev ← NodeStore.getPrev head s
    let s ← __listSplice list prev head s
    initListHead list s
  else
    return s

section Specifications

variable {R : NodeRegion P σ} {s : σ} {head : P}

/-- `initListHead` makes an empty list of any node. -/
theorem initListHead_rewires {list : P} (isNode : R.node list) :
    R.Rewires [list] s (initListHead list s) (fun s' => R.RingAt s' list []) := by
  obtain ⟨s', run, keeps, ring, untouched⟩ := initListHead_ring isNode s
  exact ⟨s', run, keeps, untouched, ring⟩

/-- A fresh node goes in at any place of a list. -/
theorem __listAdd_place {new : P} {before after : List P}
    (at_ : R.RingAt s head (before ++ after)) (newNode : R.node new)
    (isFresh : new ∉ head :: (before ++ after)) :
    R.Rewires (new :: head :: (before ++ after)) s
      (__listAdd new (Ring.behind head before) (Ring.ahead head after) s)
      (fun s' => R.RingAt s' head (before ++ new :: after)) := by
  obtain ⟨rest, placeAt, sameNodes, back⟩ := at_.at_place
  have isFresh' : new ∉ Ring.behind head before :: (after ++ rest) :=
    fun member => isFresh (sameNodes.mem_iff.mp member)
  obtain ⟨s', run, keeps, ring, untouched⟩ :=
    listAdd_front placeAt newNode isFresh'
  have atPlace := at_.ring.linked_between.1
  have behindNode := at_.nodes _ at_.behind_mem
  refine ⟨s', ?_, keeps, ?_, back s' [new] ring⟩
  · simpa [listAdd, R.getNext_eq behindNode, atPlace] using run
  · exact untouched.mono (sameNodes.cons new).subset

theorem listAdd_place {new : P} {before after : List P}
    (at_ : R.RingAt s head (before ++ after)) (newNode : R.node new)
    (isFresh : new ∉ head :: (before ++ after)) :
    R.Rewires (new :: head :: (before ++ after)) s
      (listAdd new (Ring.behind head before) s)
      (fun s' => R.RingAt s' head (before ++ new :: after)) := by
  have behindNode := at_.nodes _ at_.behind_mem
  have atPlace := at_.ring.linked_between.1
  simpa [listAdd, R.getNext_eq behindNode, atPlace] using
    __listAdd_place at_ newNode isFresh

theorem listAddTail_place {new : P} {before after : List P}
    (at_ : R.RingAt s head (before ++ after)) (newNode : R.node new)
    (isFresh : new ∉ head :: (before ++ after)) :
    R.Rewires (new :: head :: (before ++ after)) s
      (listAddTail new (Ring.ahead head after) s)
      (fun s' => R.RingAt s' head (before ++ new :: after)) := by
  have aheadNode := at_.nodes _ at_.ahead_mem
  have atPlace := at_.ring.linked_between.2
  simpa [listAddTail, R.getPrev_eq aheadNode, atPlace] using
    __listAdd_place at_ newNode isFresh

/-- Unlinking an entry closes the gap it leaves. -/
theorem __listDelEntry_place {entry : P} {before after : List P}
    (at_ : R.RingAt s head (before ++ entry :: after)) :
    R.Rewires (head :: (before ++ entry :: after)) s (__listDelEntry entry s)
      (fun s' => R.RingAt s' head (before ++ after)) := by
  have entryMember : entry ∈ head :: (before ++ entry :: after) := by simp
  have entryNode := at_.nodes entry entryMember
  have nextMember := (at_.ring.next_of_mem entryMember).1
  have prevMember := (at_.ring.prev_of_mem entryMember).1
  have nextNode := at_.nodes _ nextMember
  have prevNode := at_.nodes _ prevMember
  obtain ⟨s₁, run₁, edit₁⟩ :=
    (NodeRegion.Edit.refl R s).setPrev nextNode (Or.inl prevNode)
  obtain ⟨s₂, run₂, edit₂⟩ := edit₁.setNext prevNode (Or.inl nextNode)
  have smaller :
      List.Sublist (head :: (before ++ after))
        (head :: (before ++ entry :: after)) := by
    simp
  refine ⟨s₂, ?_, edit₂.keeps, ?_, ?_⟩
  · simp [__listDelEntry, __listDel, R.getPrev_eq entryNode,
      R.getNext_eq entryNode, run₁, run₂]
  · apply edit₂.untouched
    intro q absent
    have neNext : q ≠ R.next s entry := fun same => absent (same ▸ nextMember)
    have nePrev : q ≠ R.prev s entry := fun same => absent (same ▸ prevMember)
    simp [neNext, nePrev]
  · exact edit₂.ringAt (at_.ring.remove at_.nodup)
      (at_.nodup.sublist smaller)
      (fun q member => at_.nodes q (smaller.subset member))

/-- The entries of one list go in at any place of another. -/
theorem __listSplice_place {list : P} {others before after : List P}
    (at_ : R.RingAt s head (before ++ after))
    (listAt : R.RingAt s list others) (nonempty : others ≠ [])
    (apart : ∀ q, q ∈ others → q ∉ head :: (before ++ after)) :
    R.Rewires (others ++ head :: (before ++ after)) s
      (__listSplice list (Ring.behind head before) (Ring.ahead head after) s)
      (fun s' => R.RingAt s' head (before ++ (others ++ after))) := by
  obtain ⟨rest, placeAt, sameNodes, back⟩ := at_.at_place
  have atPlace := at_.ring.linked_between.1
  have listNode := listAt.nodes list (by simp)
  have behindNode := at_.nodes _ at_.behind_mem
  have aheadNode := at_.nodes _ at_.ahead_mem
  have isFirst : others.head? = some (R.next s list) := by
    rw [listAt.ring.next_head, List.head?_eq_some_head nonempty]
    simp
  have isLast : others.getLast? = some (R.prev s list) := by
    rw [listAt.ring.prev_head, List.getLast?_eq_some_getLast nonempty]
    simp
  have firstMember := List.mem_of_head? isFirst
  have lastMember := List.mem_of_getLast? isLast
  have othersNodes : ∀ q, q ∈ others → R.node q :=
    fun q member => listAt.nodes q (List.mem_cons_of_mem list member)
  obtain ⟨s₁, run₁, edit₁⟩ := (NodeRegion.Edit.refl R s).setPrev
    (othersNodes _ firstMember) (Or.inl behindNode)
  obtain ⟨s₂, run₂, edit₂⟩ :=
    edit₁.setNext behindNode (Or.inl (othersNodes _ firstMember))
  obtain ⟨s₃, run₃, edit₃⟩ :=
    edit₂.setNext (othersNodes _ lastMember) (Or.inl aheadNode)
  obtain ⟨s₄, run₄, edit₄⟩ :=
    edit₃.setPrev aheadNode (Or.inl (othersNodes _ lastMember))
  have nodup :
      (Ring.behind head before :: (others ++ (after ++ rest))).Nodup := by
    have joined :
        (Ring.behind head before :: (others ++ (after ++ rest))).Perm
          (others ++ Ring.behind head before :: (after ++ rest)) :=
      List.perm_middle.symm
    apply joined.nodup_iff.mpr
    rw [List.nodup_append]
    refine ⟨(List.nodup_cons.mp listAt.nodup).2, placeAt.nodup, ?_⟩
    rintro left leftMember right rightMember rfl
    exact apart left leftMember (sameNodes.mem_iff.mp rightMember)
  rw [← atPlace] at edit₃ edit₄
  refine ⟨s₄, ?_, edit₄.keeps, ?_, back s₄ others ?_⟩
  · simp [__listSplice, R.getPrev_eq listNode, R.getNext_eq listNode, run₁,
      run₂, run₃, run₄]
  · apply edit₄.untouched
    intro q absent
    simp only [List.mem_append, not_or] at absent
    have neFirst : q ≠ R.next s list := fun same => absent.1 (same ▸ firstMember)
    have neLast : q ≠ R.prev s list := fun same => absent.1 (same ▸ lastMember)
    have neBehind : q ≠ Ring.behind head before :=
      fun same => absent.2 (by rw [same]; simpa using at_.behind_mem)
    have neAhead : q ≠ R.next s (Ring.behind head before) := by
      rw [atPlace]
      exact fun same => absent.2 (by rw [same]; simpa using at_.ahead_mem)
    simp [neFirst, neLast, neBehind, neAhead]
  · apply edit₄.ringAt
    · exact placeAt.ring.splice_front listAt.ring.items_chain nodup isFirst isLast
    · exact nodup
    · intro q member
      rcases List.mem_cons.mp member with rfl | member
      · exact behindNode
      · rcases List.mem_append.mp member with inOthers | inRest
        · exact othersNodes q inOthers
        · exact placeAt.nodes q (List.mem_cons_of_mem _ inRest)

/-- Cutting behind an entry splits a list in two. -/
theorem __listCutPosition_place {list : P} {front back : List P}
    (at_ : R.RingAt s head (front ++ back)) (nonempty : front ≠ [])
    (listNode : R.node list) (isFresh : list ∉ head :: (front ++ back)) :
    R.Rewires (list :: head :: (front ++ back)) s
      (__listCutPosition list head (Ring.behind head front) s)
      (fun s' => R.RingAt s' list front ∧ R.RingAt s' head back) := by
  obtain ⟨last, isLast⟩ : ∃ last, front.getLast? = some last :=
    ⟨_, List.getLast?_eq_some_getLast nonempty⟩
  have isFirst : front.head? = some (R.next s head) := by
    rw [at_.ring.next_head, List.head?_append,
      List.head?_eq_some_head nonempty]
    simp
  have atBehind : Ring.behind head front = last := by
    simp [Ring.behind, isLast]
  have firstMember := List.mem_of_head? isFirst
  have lastMember := List.mem_of_getLast? isLast
  have atNext : R.next s last = Ring.ahead head back := by
    rw [← atBehind]
    exact at_.ring.linked_between.1
  have aheadMember := at_.ahead_mem
  rw [← atNext] at aheadMember
  have frontMember : ∀ q, q ∈ front → q ∈ head :: (front ++ back) := by
    intro q member
    simp [member]
  have firstNode := at_.nodes _ (frontMember _ firstMember)
  have lastNode := at_.nodes _ (frontMember _ lastMember)
  have headNode := at_.nodes head List.mem_cons_self
  have nextNode := at_.nodes _ aheadMember
  obtain ⟨s₁, run₁, edit₁⟩ :=
    (NodeRegion.Edit.refl R s).setNext listNode (Or.inl firstNode)
  obtain ⟨s₂, run₂, edit₂⟩ := edit₁.setPrev firstNode (Or.inl listNode)
  obtain ⟨s₃, run₃, edit₃⟩ := edit₂.setPrev listNode (Or.inl lastNode)
  obtain ⟨s₄, run₄, edit₄⟩ := edit₃.setNext lastNode (Or.inl listNode)
  obtain ⟨s₅, run₅, edit₅⟩ := edit₄.setNext headNode (Or.inl nextNode)
  obtain ⟨s₆, run₆, edit₆⟩ := edit₅.setPrev nextNode (Or.inl headNode)
  have readBack : NodeStore.getNext list s₁ = some (R.next s head) := by
    rw [R.getNext_eq listNode, edit₁.next_eq list listNode,
      Function.update_self]
  have rings := at_.ring.cut_front at_.nodup isFresh isFirst isLast
  have listFresh := List.not_mem_of_not_mem_cons isFresh
  obtain ⟨headFresh, nodup⟩ := List.nodup_cons.mp at_.nodup
  refine ⟨s₆, ?_, edit₆.keeps, ?_, ?_, ?_⟩
  · rw [atBehind]
    simp [__listCutPosition, R.getNext_eq lastNode, R.getNext_eq headNode,
      run₁, readBack, run₂, run₃, run₄, run₅, run₆]
  · apply edit₆.untouched
    intro q absent
    rw [List.mem_cons, not_or] at absent
    have neFirst : q ≠ R.next s head :=
      fun same => absent.2 (same ▸ frontMember _ firstMember)
    have neLast : q ≠ last :=
      fun same => absent.2 (same ▸ frontMember _ lastMember)
    have neHead : q ≠ head := fun same => absent.2 (by simp [same])
    have neNext : q ≠ R.next s last := fun same => absent.2 (same ▸ aheadMember)
    simp [absent.1, neFirst, neLast, neHead, neNext]
  · apply edit₆.ringAt rings.1
    · rw [List.nodup_cons]
      exact ⟨fun member => listFresh (List.mem_append_left back member),
        (List.nodup_append.mp nodup).1⟩
    · intro q member
      rcases List.mem_cons.mp member with rfl | inFront
      · exact listNode
      · exact at_.nodes q (frontMember q inFront)
  · apply edit₆.ringAt rings.2
    · rw [List.nodup_cons]
      exact ⟨fun member => headFresh (List.mem_append_right front member),
        (List.nodup_append.mp nodup).2.1⟩
    · intro q member
      apply at_.nodes q
      rcases List.mem_cons.mp member with rfl | inBack
      · simp
      · simp [inBack]

/-- A fresh node takes over the entries of a list head. -/
theorem listReplace_head {old new : P} {items : List P}
    (at_ : R.RingAt s old items) (newNode : R.node new)
    (isFresh : new ∉ old :: items) :
    R.Rewires (new :: old :: items) s (listReplace old new s)
      (fun s' => R.RingAt s' new items) := by
  have oldNode := at_.nodes old List.mem_cons_self
  have nextMember := (at_.ring.next_of_mem List.mem_cons_self).1
  have prevMember := (at_.ring.prev_of_mem List.mem_cons_self).1
  have nextNode := at_.nodes _ nextMember
  have prevNode := at_.nodes _ prevMember
  obtain ⟨oldFresh, nodup⟩ := List.nodup_cons.mp at_.nodup
  have newFresh := List.not_mem_of_not_mem_cons isFresh
  obtain ⟨s₁, run₁, edit₁⟩ :=
    (NodeRegion.Edit.refl R s).setNext newNode (Or.inl nextNode)
  obtain ⟨s₂, run₂, edit₂⟩ := edit₁.setPrev nextNode (Or.inl newNode)
  have readNext : NodeStore.getNext new s₁ = some (R.next s old) := by
    rw [R.getNext_eq newNode, edit₁.next_eq new newNode, Function.update_self]
  have newNodup : (new :: items).Nodup := List.nodup_cons.mpr ⟨newFresh, nodup⟩
  have newNodes : ∀ q, q ∈ new :: items → R.node q := by
    intro q member
    rcases List.mem_cons.mp member with rfl | inItems
    · exact newNode
    · exact at_.nodes q (List.mem_cons_of_mem old inItems)
  -- An old head without entries is its own neighbour, and its backward link
  -- already names the new one when it is read.
  rcases List.eq_nil_or_concat items with rfl | ⟨front, last, rfl⟩
  · have atOld : R.next s old = old := (Ring.nil_iff.mp at_.ring).1
    obtain ⟨s₃, run₃, edit₃⟩ := edit₂.setPrev newNode (Or.inl newNode)
    obtain ⟨s₄, run₄, edit₄⟩ := edit₃.setNext newNode (Or.inl newNode)
    have readPrev : NodeStore.getPrev old s₂ = some new := by
      rw [R.getPrev_eq oldNode, edit₂.prev_eq old oldNode, atOld,
        Function.update_self]
    have readBack : NodeStore.getPrev new s₃ = some new := by
      rw [R.getPrev_eq newNode, edit₃.prev_eq new newNode,
        Function.update_self]
    refine ⟨s₄, ?_, edit₄.keeps, ?_, ?_⟩
    · simp [listReplace, R.getNext_eq oldNode, run₁, readNext, run₂, readPrev,
        run₃, readBack, run₄]
    · apply edit₄.untouched
      intro q absent
      rw [atOld]
      simp only [List.mem_cons, List.not_mem_nil, or_false, not_or] at absent
      simp [absent.1, absent.2]
    · apply edit₄.ringAt _ newNodup newNodes
      rw [Ring.nil_iff]
      simp
  · have isLast : (front.concat last).getLast? = some (R.prev s old) := by
      rw [at_.ring.prev_head]
      simp
    have isFirst : (front.concat last).head? = some (R.next s old) := by
      rw [at_.ring.next_head]
      cases front <;> simp
    have neNext : old ≠ R.next s old :=
      fun same => oldFresh (same ▸ List.mem_of_head? isFirst)
    obtain ⟨s₃, run₃, edit₃⟩ := edit₂.setPrev newNode (Or.inl prevNode)
    obtain ⟨s₄, run₄, edit₄⟩ := edit₃.setNext prevNode (Or.inl newNode)
    have readPrev : NodeStore.getPrev old s₂ = some (R.prev s old) := by
      rw [R.getPrev_eq oldNode, edit₂.prev_eq old oldNode,
        Function.update_of_ne neNext]
    have readBack : NodeStore.getPrev new s₃ = some (R.prev s old) := by
      rw [R.getPrev_eq newNode, edit₃.prev_eq new newNode,
        Function.update_self]
    refine ⟨s₄, ?_, edit₄.keeps, ?_, ?_⟩
    · simp [listReplace, R.getNext_eq oldNode, run₁, readNext, run₂, readPrev,
        run₃, readBack, run₄]
    · apply edit₄.untouched
      intro q absent
      rw [List.mem_cons, not_or] at absent
      have qNeNext : q ≠ R.next s old := fun same => absent.2 (same ▸ nextMember)
      have qNePrev : q ≠ R.prev s old := fun same => absent.2 (same ▸ prevMember)
      simp [absent.1, qNeNext, qNePrev]
    · exact edit₄.ringAt
        (at_.ring.replace_head at_.nodup isFresh isFirst isLast)
        newNodup newNodes

/-- A fresh node takes the place of an entry. -/
theorem listReplace_place {old new : P} {before after : List P}
    (at_ : R.RingAt s head (before ++ old :: after)) (newNode : R.node new)
    (isFresh : new ∉ head :: (before ++ old :: after)) :
    R.Rewires (new :: head :: (before ++ old :: after)) s
      (listReplace old new s)
      (fun s' => R.RingAt s' head (before ++ new :: after)) := by
  have sameNodes := Ring.rotate_perm head old before after
  have replaced := listReplace_head at_.rotate newNode
    (fun member => isFresh (sameNodes.mem_iff.mp member))
  exact replaced.mono (sameNodes.cons new).subset
    (fun s' _ ring => NodeRegion.RingAt.rotate ring)

/-- A list is singular when it has one entry. -/
theorem listIsSingular_spec {items : List P} (at_ : R.RingAt s head items) :
    listIsSingular head s = some (items.length == 1) := by
  have headNode := at_.nodes head List.mem_cons_self
  obtain ⟨headFresh, nodup⟩ := List.nodup_cons.mp at_.nodup
  simp only [listIsSingular, listEmpty_spec at_, R.getNext_eq headNode,
    R.getPrev_eq headNode, at_.ring.next_head, at_.ring.prev_head,
    Option.pure_def, Option.bind_eq_bind, Option.bind_some]
  cases items with
  | nil => simp
  | cons first rest =>
      rcases List.eq_nil_or_concat rest with rfl | ⟨front, last, rfl⟩
      · simp
      · have different : first ≠ last := by
          rintro rfl
          exact (List.nodup_cons.mp nodup).1 (by simp)
        simp [different, List.getLast?_cons]

/-- On a list with entries, a cut is refused at no place of the list. -/
theorem listCutPosition_eq (list : P) {front back : List P}
    (at_ : R.RingAt s head (front ++ back)) (nonempty : front ++ back ≠ []) :
    listCutPosition list head (Ring.behind head front) s =
      if front = [] then initListHead list s
      else __listCutPosition list head (Ring.behind head front) s := by
  have headNode := at_.nodes head List.mem_cons_self
  have headFresh := (List.nodup_cons.mp at_.nodup).1
  have notEmpty : (front ++ back).isEmpty = false := by
    simpa using nonempty
  simp only [listCutPosition, listEmpty_spec at_, listIsSingular_spec at_,
    R.getNext_eq headNode, at_.ring.next_head, Option.bind_eq_bind,
    Option.bind_some, notEmpty]
  cases front with
  | nil => simp [Ring.behind]
  | cons first rest =>
      have behindMember :
          Ring.behind head (first :: rest) ∈ first :: (rest ++ back) := by
        rw [Ring.behind, List.getLast?_eq_some_getLast (List.cons_ne_nil _ _)]
        exact List.mem_append_left back (List.getLast_mem _)
      have behindNe : Ring.behind head (first :: rest) ≠ head :=
        fun same => headFresh (same ▸ behindMember)
      have onlyEntry : rest = [] → first = Ring.behind head (first :: rest) := by
        rintro rfl
        simp [Ring.behind]
      simp only [behindNe, if_false, reduceCtorEq]
      apply if_neg
      simp only [Bool.and_eq_true, beq_iff_eq, bne_iff_ne, not_and, not_not]
      intro single notFirst
      have isNil : rest = [] := by
        cases rest with
        | nil => rfl
        | cons second others => simp at single
      exact absurd (onlyEntry isNil) (by simpa using notFirst)

end Specifications

end Hlos.Include
