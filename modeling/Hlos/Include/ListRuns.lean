import Hlos.Include.ListOperations
import Hlos.Lib.RingCollection
import Mathlib.Data.List.Rotate

/-!
# Any run of calls on any number of lists

Seen from its clients, `list.h` keeps a collection of lists: every head carries
a sequence of entries, and a call moves entries within and between the
sequences.  `ListEffect` states what each call does to the sequences and when a
client may issue it.  The calls on the linked nodes follow these effects.
-/

set_option linter.style.nameCheck false

namespace Hlos.Include

open Hlos.Lib
open Hlos.Lib.Ring (behind ahead)

/-- The calls that change lists. -/
inductive ListCall (P : Type) where
  | init (list : P)
  | add (new head : P)
  | addTail (new head : P)
  | del (entry : P)
  | delInit (entry : P)
  | replace (old new : P)
  | replaceInit (old new : P)
  | move (list head : P)
  | moveTail (list head : P)
  | rotateLeft (head : P)
  | cutPosition (list head entry : P)
  | splice (list head : P)
  | spliceTail (list head : P)
  | spliceInit (list head : P)
  | spliceTailInit (list head : P)

section Calls

variable {P σ : Type} [DecidableEq P] [NodeStore P σ]

def ListCall.run : ListCall P → σ → Option σ
  | .init list => initListHead list
  | .add new head => listAdd new head
  | .addTail new head => listAddTail new head
  | .del entry => listDel entry
  | .delInit entry => listDelInit entry
  | .replace old new => listReplace old new
  | .replaceInit old new => listReplaceInit old new
  | .move list head => listMove list head
  | .moveTail list head => listMoveTail list head
  | .rotateLeft head => listRotateLeft head
  | .cutPosition list head entry => listCutPosition list head entry
  | .splice list head => listSplice list head
  | .spliceTail list head => listSpliceTail list head
  | .spliceInit list head => listSpliceInit list head
  | .spliceTailInit list head => listSpliceTailInit list head

/-- Issue the calls one after the other. -/
def runCalls : List (ListCall P) → σ → Option σ
  | [], s => some s
  | call :: calls, s => call.run s >>= runCalls calls

/-- What a call does to the sequences of entries.  A place is named by the node
behind it or by the node ahead of it, and either may be the head. -/
inductive ListEffect (isNode : P → Prop) :
    ListTable P → ListCall P → ListTable P → Prop where
  | init {lists : ListTable P} {list : P} :
      isNode list → lists.Itemless list →
      ListEffect isNode lists (.init list) (lists.set list [])
  | add {lists : ListTable P} {new head : P} {before after : List P} :
      isNode new → lists.Unlisted new →
      lists head = some (before ++ after) →
      ListEffect isNode lists (.add new (behind head before))
        (lists.set head (before ++ new :: after))
  | addTail {lists : ListTable P} {new head : P} {before after : List P} :
      isNode new → lists.Unlisted new →
      lists head = some (before ++ after) →
      ListEffect isNode lists (.addTail new (ahead head after))
        (lists.set head (before ++ new :: after))
  | del {lists : ListTable P} {entry head : P} {before after : List P} :
      lists head = some (before ++ entry :: after) →
      ListEffect isNode lists (.del entry)
        (lists.set head (before ++ after))
  | delInit {lists : ListTable P} {entry head : P} {before after : List P} :
      lists head = some (before ++ entry :: after) →
      ListEffect isNode lists (.delInit entry)
        ((lists.set head (before ++ after)).set entry [])
  | replace {lists : ListTable P} {old new head : P} {before after : List P} :
      isNode new → lists.Unlisted new →
      lists head = some (before ++ old :: after) →
      ListEffect isNode lists (.replace old new)
        (lists.set head (before ++ new :: after))
  | replaceHead {lists : ListTable P} {old new : P} {items : List P} :
      isNode new → lists.Unlisted new → lists old = some items →
      ListEffect isNode lists (.replace old new)
        ((lists.drop old).set new items)
  | replaceInit {lists : ListTable P} {old new head : P} {before after : List P} :
      isNode new → lists.Unlisted new →
      lists head = some (before ++ old :: after) →
      ListEffect isNode lists (.replaceInit old new)
        ((lists.set head (before ++ new :: after)).set old [])
  | replaceInitHead {lists : ListTable P} {old new : P} {items : List P} :
      isNode new → lists.Unlisted new → lists old = some items →
      ListEffect isNode lists (.replaceInit old new)
        (((lists.drop old).set new items).set old [])
  | move {lists middle : ListTable P} {entry head target : P}
      {before after front back : List P} :
      lists head = some (before ++ entry :: after) →
      middle = lists.set head (before ++ after) →
      middle target = some (front ++ back) →
      ListEffect isNode lists (.move entry (behind target front))
        (middle.set target (front ++ entry :: back))
  | moveTail {lists middle : ListTable P} {entry head target : P}
      {before after front back : List P} :
      lists head = some (before ++ entry :: after) →
      middle = lists.set head (before ++ after) →
      middle target = some (front ++ back) →
      ListEffect isNode lists (.moveTail entry (ahead target back))
        (middle.set target (front ++ entry :: back))
  | rotateLeft {lists : ListTable P} {head : P} {items : List P} :
      lists head = some items →
      ListEffect isNode lists (.rotateLeft head)
        (lists.set head (items.rotate 1))
  | cutEmpty {lists : ListTable P} {list head : P} :
      lists head = some [] →
      ListEffect isNode lists (.cutPosition list head head) lists
  | cutPosition {lists : ListTable P} {list head : P} {front back : List P} :
      isNode list → lists.Itemless list → list ≠ head →
      lists head = some (front ++ back) → front ++ back ≠ [] →
      ListEffect isNode lists (.cutPosition list head (behind head front))
        ((lists.set list front).set head back)
  | splice {lists : ListTable P} {list head : P} {others before after : List P} :
      lists list = some others → list ≠ head →
      lists head = some (before ++ after) →
      ListEffect isNode lists (.splice list (behind head before))
        ((lists.drop list).set head (before ++ (others ++ after)))
  | spliceTail {lists : ListTable P} {list head : P}
      {others before after : List P} :
      lists list = some others → list ≠ head →
      lists head = some (before ++ after) →
      ListEffect isNode lists (.spliceTail list (ahead head after))
        ((lists.drop list).set head (before ++ (others ++ after)))
  | spliceInit {lists : ListTable P} {list head : P}
      {others before after : List P} :
      lists list = some others → list ≠ head →
      lists head = some (before ++ after) →
      ListEffect isNode lists (.spliceInit list (behind head before))
        (((lists.drop list).set head (before ++ (others ++ after))).set
          list [])
  | spliceTailInit {lists : ListTable P} {list head : P}
      {others before after : List P} :
      lists list = some others → list ≠ head →
      lists head = some (before ++ after) →
      ListEffect isNode lists (.spliceTailInit list (ahead head after))
        (((lists.drop list).set head (before ++ (others ++ after))).set
          list [])

/-- The effects of the calls of a run, one after the other. -/
inductive ListEffects (isNode : P → Prop) :
    ListTable P → List (ListCall P) → ListTable P → Prop where
  | nil (lists : ListTable P) : ListEffects isNode lists [] lists
  | cons {lists middle last : ListTable P} {call : ListCall P}
      {calls : List (ListCall P)} :
      ListEffect isNode lists call middle →
      ListEffects isNode middle calls last →
      ListEffects isNode lists (call :: calls) last

variable {R : NodeRegion P σ} {s : σ} {lists : ListTable P}

section Effects

variable (at_ : R.ListsAt s lists)
include at_

theorem init_achieves {list : P} (isNode : R.node list)
    (itemless : lists.Itemless list) :
    R.Achieves s (initListHead list s) (lists.set list []) := by
  apply (initListHead_rewires isNode).achieves at_
  · intro node member
    rw [List.mem_singleton.mp member]
    exact itemless.drop
  · simp

/-- The nodes an insertion may write, when the new node is in no list. -/
theorem unlisted_of_insert {new head : P} {items : List P}
    (unlisted : lists.Unlisted new) (isList : lists head = some items) :
    ∀ node, node ∈ new :: head :: items →
      (lists.drop head).Unlisted node := by
  intro node member
  rcases List.mem_cons.mp member with rfl | listed
  · exact unlisted.drop head
  · exact at_.unlisted isList _ listed

/-- Putting `new` at any place of a list. -/
theorem insert_achieves {new head : P} {before after : List P}
    {result : Option σ} (unlisted : lists.Unlisted new)
    (isList : lists head = some (before ++ after))
    (rewires : R.Rewires (new :: head :: (before ++ after)) s result
      (fun s' => R.RingAt s' head (before ++ new :: after))) :
    R.Achieves s result (lists.set head (before ++ new :: after)) := by
  apply rewires.achieves at_ (unlisted_of_insert at_ unlisted isList)
  intro node member
  simp only [List.mem_cons, List.mem_append] at member ⊢
  tauto

theorem add_achieves {new head : P} {before after : List P}
    (newNode : R.node new) (unlisted : lists.Unlisted new)
    (isList : lists head = some (before ++ after)) :
    R.Achieves s (listAdd new (behind head before) s)
      (lists.set head (before ++ new :: after)) :=
  insert_achieves at_ unlisted isList
    (listAdd_place (at_.ring isList) newNode (unlisted head _ isList))

theorem addTail_achieves {new head : P} {before after : List P}
    (newNode : R.node new) (unlisted : lists.Unlisted new)
    (isList : lists head = some (before ++ after)) :
    R.Achieves s (listAddTail new (ahead head after) s)
      (lists.set head (before ++ new :: after)) :=
  insert_achieves at_ unlisted isList
    (listAddTail_place (at_.ring isList) newNode (unlisted head _ isList))

/-- Taking an entry out of its list. -/
theorem remove_achieves {entry head : P} {before after : List P}
    {result : Option σ} (isList : lists head = some (before ++ entry :: after))
    (rewires : R.Rewires (head :: (before ++ entry :: after)) s result
      (fun s' => R.RingAt s' head (before ++ after))) :
    R.Achieves s result (lists.set head (before ++ after)) := by
  apply rewires.achieves at_
  · exact fun node member => at_.unlisted isList _ member
  · intro node member
    simp only [List.mem_cons, List.mem_append] at member ⊢
    tauto

theorem del_achieves {entry head : P} {before after : List P}
    (isList : lists head = some (before ++ entry :: after)) :
    R.Achieves s (listDel entry s) (lists.set head (before ++ after)) := by
  obtain ⟨s', run, keeps, ring, untouched⟩ := listDel_ring (at_.ring isList)
  exact remove_achieves at_ isList ⟨s', run, keeps, untouched, ring⟩

theorem delEntry_achieves {entry head : P} {before after : List P}
    (isList : lists head = some (before ++ entry :: after)) :
    R.Achieves s (__listDelEntry entry s)
      (lists.set head (before ++ after)) :=
  remove_achieves at_ isList (__listDelEntry_place (at_.ring isList))

theorem entryNode {entry head : P} {before after : List P}
    (isList : lists head = some (before ++ entry :: after)) :
    R.node entry :=
  (at_.ring isList).nodes entry (by simp)

theorem delInit_achieves {entry head : P} {before after : List P}
    (isList : lists head = some (before ++ entry :: after)) :
    R.Achieves s (listDelInit entry s)
      ((lists.set head (before ++ after)).set entry []) :=
  (delEntry_achieves at_ isList).bind fun _ middleAt =>
    init_achieves middleAt (entryNode at_ isList)
      (at_.removed isList).itemless

theorem move_achieves {entry head target : P}
    {before after front back : List P}
    (isList : lists head = some (before ++ entry :: after))
    (isTarget : lists.set head (before ++ after) target =
      some (front ++ back)) :
    R.Achieves s (listMove entry (behind target front) s)
      ((lists.set head (before ++ after)).set target
        (front ++ entry :: back)) :=
  (delEntry_achieves at_ isList).bind fun _ middleAt =>
    add_achieves middleAt (entryNode at_ isList) (at_.removed isList) isTarget

theorem moveTail_achieves {entry head target : P}
    {before after front back : List P}
    (isList : lists head = some (before ++ entry :: after))
    (isTarget : lists.set head (before ++ after) target =
      some (front ++ back)) :
    R.Achieves s (listMoveTail entry (ahead target back) s)
      ((lists.set head (before ++ after)).set target
        (front ++ entry :: back)) :=
  (delEntry_achieves at_ isList).bind fun _ middleAt =>
    addTail_achieves middleAt (entryNode at_ isList) (at_.removed isList)
      isTarget

theorem rotateLeft_achieves {head : P} {items : List P}
    (isList : lists head = some items) :
    R.Achieves s (listRotateLeft head s) (lists.set head (items.rotate 1)) := by
  have ring := at_.ring isList
  cases items with
  | nil =>
      simp only [listRotateLeft, listEmpty_spec ring]
      rw [List.rotate_nil, ListTable.set_eq_self isList]
      exact .refl at_
  | cons first rest =>
      have isRest : lists.set head ([] ++ rest) head = some (rest ++ []) := by
        simp
      have moved := moveTail_achieves at_
        (show lists head = some ([] ++ first :: rest) from isList) isRest
      have headNode := ring.nodes head List.mem_cons_self
      simpa [listRotateLeft, listEmpty_spec ring, R.getNext_eq headNode,
        ring.ring.next_head, ahead, List.rotate_cons_succ] using moved

theorem replace_achieves {old new head : P} {before after : List P}
    (newNode : R.node new) (unlisted : lists.Unlisted new)
    (isList : lists head = some (before ++ old :: after)) :
    R.Achieves s (listReplace old new s)
      (lists.set head (before ++ new :: after)) := by
  apply (listReplace_place (at_.ring isList) newNode
    (unlisted head _ isList)).achieves at_
    (unlisted_of_insert at_ unlisted isList)
  intro node member
  simp only [List.mem_cons, List.mem_append] at member ⊢
  tauto

theorem replaceHead_achieves {old new : P} {items : List P}
    (newNode : R.node new) (unlisted : lists.Unlisted new)
    (isList : lists old = some items) :
    R.Achieves s (listReplace old new s)
      ((lists.drop old).set new items) := by
  apply (listReplace_head (at_.ring isList) newNode
    (unlisted old _ isList)).achieves (at_.drop old)
  · intro node member
    exact (unlisted_of_insert at_ unlisted isList node member).drop new
  · intro node member
    simp only [List.mem_cons] at member ⊢
    tauto

theorem replaceInit_achieves {old new head : P} {before after : List P}
    (newNode : R.node new) (unlisted : lists.Unlisted new)
    (isList : lists head = some (before ++ old :: after)) :
    R.Achieves s (listReplaceInit old new s)
      ((lists.set head (before ++ new :: after)).set old []) := by
  apply (replace_achieves at_ newNode unlisted isList).bind
  intro s' middleAt
  apply init_achieves middleAt (entryNode at_ isList)
  have gone := at_.unlisted isList old (by simp)
  have oldNeNew : old ≠ new := by
    rintro rfl
    exact unlisted head _ isList (by simp)
  have notKept := at_.removed isList head (before ++ after) (by simp)
  rw [← ListTable.set_drop]
  apply (gone.set _).itemless
  simp only [List.mem_cons, List.mem_append, not_or] at notKept ⊢
  tauto

theorem replaceInitHead_achieves {old new : P} {items : List P}
    (newNode : R.node new) (unlisted : lists.Unlisted new)
    (isList : lists old = some items) :
    R.Achieves s (listReplaceInit old new s)
      (((lists.drop old).set new items).set old []) := by
  apply (replaceHead_achieves at_ newNode unlisted isList).bind
  intro s' middleAt
  have ring := at_.ring isList
  apply init_achieves middleAt (ring.nodes old List.mem_cons_self)
  have gone := at_.unlisted isList old List.mem_cons_self
  apply (gone.set _).itemless
  intro member
  rcases List.mem_cons.mp member with rfl | isItem
  · exact unlisted old _ isList List.mem_cons_self
  · exact (List.nodup_cons.mp ring.nodup).1 isItem

theorem cutEmpty_achieves {list head : P} (isList : lists head = some []) :
    R.Achieves s (listCutPosition list head head s) lists := by
  simp only [listCutPosition, listEmpty_spec (at_.ring isList)]
  exact .refl at_

theorem cutPosition_achieves {list head : P} {front back : List P}
    (listNode : R.node list) (itemless : lists.Itemless list)
    (different : list ≠ head) (isList : lists head = some (front ++ back))
    (nonempty : front ++ back ≠ []) :
    R.Achieves s (listCutPosition list head (behind head front) s)
      ((lists.set list front).set head back) := by
  have ring := at_.ring isList
  rw [listCutPosition_eq list ring nonempty]
  split_ifs with isNil
  · subst isNil
    have otherList : lists.set list [] head = some back := by
      rw [ListTable.set_of_ne lists [] different.symm]
      exact isList
    rw [ListTable.set_eq_self otherList]
    exact init_achieves at_ listNode itemless
  · have listFresh : list ∉ head :: (front ++ back) := by
      rw [List.mem_cons, not_or]
      exact ⟨different, itemless head _ isList⟩
    obtain ⟨s', run, keeps, untouched, listRing, headRing⟩ :=
      __listCutPosition_place ring isNil listNode listFresh
    have outside : ∀ node, node ∈ list :: head :: (front ++ back) →
        ((lists.drop list).drop head).Unlisted node := by
      intro node member
      rcases List.mem_cons.mp member with rfl | listed
      · exact itemless.drop.drop head
      · have gone := (at_.unlisted isList _ listed).drop list
        rwa [ListTable.drop, ListTable.drop, Function.update_comm different.symm]
          at gone
    have others := ((at_.drop list).drop head).frame untouched outside
    have separate : ∀ node, node ∈ head :: back → node ∉ list :: front := by
      obtain ⟨headFresh, nodup⟩ := List.nodup_cons.mp ring.nodup
      intro node inBack inFront
      have listed : node ∈ head :: (front ++ back) := by
        rcases List.mem_cons.mp inBack with rfl | inBack
        · simp
        · simp [inBack]
      rcases List.mem_cons.mp inFront with rfl | inFront
      · exact listFresh listed
      · rcases List.mem_cons.mp inBack with rfl | inBack
        · exact headFresh (List.mem_append_left back inFront)
        · exact (List.nodup_append.mp nodup).2.2 node inFront node inBack rfl
    have withList := others.set listRing (by
      intro node member
      apply outside
      simp only [List.mem_cons, List.mem_append] at member ⊢
      tauto)
    have withBoth := withList.set headRing (by
      intro node member
      refine (outside node ?_).set (separate node member)
      simp only [List.mem_cons, List.mem_append] at member ⊢
      tauto)
    have sameLists :
        (((lists.drop list).drop head).set list front).set head back =
          (lists.set list front).set head back := by
      rw [← ListTable.set_drop (lists.set list front), ← ListTable.set_drop lists]
      simp only [ListTable.set, ListTable.drop]
      rw [Function.update_comm different.symm]
    refine ⟨s', run, keeps, ?_⟩
    rwa [sameLists] at withBoth

/-- The entries of a spliced list go to the list they are spliced into. -/
theorem joined_achieves {list head : P} {others before after : List P}
    (isOthers : lists list = some others) (different : list ≠ head)
    (isList : lists head = some (before ++ after)) (nonempty : others ≠ []) :
    R.Achieves s
      (__listSplice list (behind head before) (ahead head after) s)
      ((lists.drop list).set head (before ++ (others ++ after))) := by
  have apart : ∀ node, node ∈ list :: others →
      node ∉ head :: (before ++ after) :=
    fun node inOthers inList =>
      different (at_.apart isOthers isList node inOthers inList)
  have joined := __listSplice_place (at_.ring isList) (at_.ring isOthers)
    nonempty (fun node member => apart node (List.mem_cons_of_mem list member))
  apply joined.achieves (at_.drop list)
  · intro node member
    rcases List.mem_append.mp member with inOthers | inList
    · exact (at_.unlisted isOthers _
        (List.mem_cons_of_mem list inOthers)).drop head
    · have gone := (at_.unlisted isList _ inList).drop list
      rwa [ListTable.drop, ListTable.drop, Function.update_comm different.symm]
        at gone
  · intro node member
    simp only [List.mem_cons, List.mem_append] at member ⊢
    tauto

omit [NodeStore P σ] at_ in
theorem joined_nil {list head : P} {before after : List P}
    (isOthers : lists list = some []) (different : list ≠ head)
    (isList : lists head = some (before ++ after)) :
    (lists.drop list).set head (before ++ ([] ++ after)) = lists.drop list ∧
      (lists.drop list).set list [] = lists := by
  have kept : lists.drop list head = some (before ++ ([] ++ after)) := by
    rw [ListTable.drop_of_ne lists different.symm]
    exact isList
  exact ⟨ListTable.set_eq_self kept,
    (ListTable.set_drop lists list []).trans (ListTable.set_eq_self isOthers)⟩

/-- The spliced head names an empty list again. -/
theorem joinedInit_achieves {list head : P} {others before after : List P}
    (isOthers : lists list = some others) (different : list ≠ head)
    (isList : lists head = some (before ++ after)) (nonempty : others ≠ []) :
    R.Achieves s
      (__listSplice list (behind head before) (ahead head after) s >>=
        initListHead list)
      (((lists.drop list).set head (before ++ (others ++ after))).set
        list []) := by
  apply (joined_achieves at_ isOthers different isList nonempty).bind
  intro s' middleAt
  have othersRing := at_.ring isOthers
  apply init_achieves middleAt (othersRing.nodes list List.mem_cons_self)
  have gone := at_.unlisted isOthers list List.mem_cons_self
  apply (gone.set _).itemless
  have notOthers := (List.nodup_cons.mp othersRing.nodup).1
  have notList : list ∉ head :: (before ++ after) := fun member =>
    different (at_.apart isOthers isList list List.mem_cons_self member)
  simp only [List.mem_cons, List.mem_append, not_or] at notList ⊢
  exact ⟨notList.1, notList.2.1, notOthers, notList.2.2⟩

/-- The four splices, by the empty test they start with. -/
theorem splice_eq {list head : P} {others before after : List P}
    (isOthers : lists list = some others)
    (isList : lists head = some (before ++ after)) :
    listSplice list (behind head before) s =
        (if others = [] then some s
        else __listSplice list (behind head before) (ahead head after) s) ∧
      listSpliceTail list (ahead head after) s =
        (if others = [] then some s
        else __listSplice list (behind head before) (ahead head after) s) ∧
      listSpliceInit list (behind head before) s =
        (if others = [] then some s
        else __listSplice list (behind head before) (ahead head after) s >>=
          initListHead list) ∧
      listSpliceTailInit list (ahead head after) s =
        (if others = [] then some s
        else __listSplice list (behind head before) (ahead head after) s >>=
          initListHead list) := by
  have ring := at_.ring isList
  have linked := ring.ring.linked_between
  have behindNode := ring.nodes _ ring.behind_mem
  have aheadNode := ring.nodes _ ring.ahead_mem
  simp only [listSplice, listSpliceTail, listSpliceInit, listSpliceTailInit,
    listEmpty_spec (at_.ring isOthers), R.getNext_eq behindNode,
    R.getPrev_eq aheadNode, linked.1, linked.2, Option.bind_eq_bind,
    Option.bind_some]
  cases others <;> simp

end Effects

/-- One call follows its effect on the lists. -/
theorem listCall_achieves {call : ListCall P} {lists' : ListTable P}
    (at_ : R.ListsAt s lists)
    (effect : ListEffect R.node lists call lists') :
    R.Achieves s (call.run s) lists' := by
  cases effect with
  | init isNode itemless => exact init_achieves at_ isNode itemless
  | add newNode unlisted isList =>
      exact add_achieves at_ newNode unlisted isList
  | addTail newNode unlisted isList =>
      exact addTail_achieves at_ newNode unlisted isList
  | del isList => exact del_achieves at_ isList
  | delInit isList => exact delInit_achieves at_ isList
  | replace newNode unlisted isList =>
      exact replace_achieves at_ newNode unlisted isList
  | replaceHead newNode unlisted isList =>
      exact replaceHead_achieves at_ newNode unlisted isList
  | replaceInit newNode unlisted isList =>
      exact replaceInit_achieves at_ newNode unlisted isList
  | replaceInitHead newNode unlisted isList =>
      exact replaceInitHead_achieves at_ newNode unlisted isList
  | move isList isMiddle isTarget =>
      subst isMiddle
      exact move_achieves at_ isList isTarget
  | moveTail isList isMiddle isTarget =>
      subst isMiddle
      exact moveTail_achieves at_ isList isTarget
  | rotateLeft isList => exact rotateLeft_achieves at_ isList
  | cutEmpty isList => exact cutEmpty_achieves at_ isList
  | cutPosition listNode itemless different isList nonempty =>
      exact cutPosition_achieves at_ listNode itemless different isList
        nonempty
  | splice isOthers different isList =>
      rw [ListCall.run, (splice_eq at_ isOthers isList).1]
      split_ifs with isNil
      · subst isNil
        rw [(joined_nil isOthers different isList).1]
        exact .refl (at_.drop _)
      · exact joined_achieves at_ isOthers different isList isNil
  | spliceTail isOthers different isList =>
      rw [ListCall.run, (splice_eq at_ isOthers isList).2.1]
      split_ifs with isNil
      · subst isNil
        rw [(joined_nil isOthers different isList).1]
        exact .refl (at_.drop _)
      · exact joined_achieves at_ isOthers different isList isNil
  | spliceInit isOthers different isList =>
      rw [ListCall.run, (splice_eq at_ isOthers isList).2.2.1]
      split_ifs with isNil
      · subst isNil
        rw [(joined_nil isOthers different isList).1,
          (joined_nil isOthers different isList).2]
        exact .refl at_
      · exact joinedInit_achieves at_ isOthers different isList isNil
  | spliceTailInit isOthers different isList =>
      rw [ListCall.run, (splice_eq at_ isOthers isList).2.2.2]
      split_ifs with isNil
      · subst isNil
        rw [(joined_nil isOthers different isList).1,
          (joined_nil isOthers different isList).2]
        exact .refl at_
      · exact joinedInit_achieves at_ isOthers different isList isNil

theorem runCalls_achieves {calls : List (ListCall P)} {lists' : ListTable P}
    (at_ : R.ListsAt s lists)
    (effects : ListEffects R.node lists calls lists') :
    R.Achieves s (runCalls calls s) lists' := by
  induction effects generalizing s with
  | nil lists => exact NodeRegion.Achieves.refl at_
  | cons effect _ inductionHypothesis =>
      exact (listCall_achieves at_ effect).bind fun _ middleAt =>
        inductionHypothesis middleAt

end Calls

end Hlos.Include
