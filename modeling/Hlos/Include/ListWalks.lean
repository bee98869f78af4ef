import Hlos.Include.ListHead
import Hlos.Include.ListRuns

/-!
# Reading lists, and walking them while they change

The tests and loops of `list.h` report the entries that a run of calls has left
in each list.  `list_for_each_safe` fetches the next node before it runs its
body, so the body may take the current entry away.
-/

set_option linter.style.nameCheck false

namespace Hlos.Include

open Hlos.Lib
open Hlos.Lib.Ring (behind ahead)

section Walks

variable {P σ : Type} [DecidableEq P] [NodeStore P σ]

/-- `for (; pos != head; pos = advance(pos))` with a body that changes no
link. -/
def walk {α : Type} (advance : P → σ → Option P) (body : P → α → α)
    (head : P) : Nat → P → α → σ → Option α
  | 0, _, _, _ => none
  | fuel + 1, pos, value, s =>
      if pos = head then some value
      else do
        let pos' ← advance pos s
        walk advance body head fuel pos' (body pos value) s

/-- `list_for_each(pos, head)`. -/
def listForEach {α : Type} (body : P → α → α) (head : P) (fuel : Nat)
    (value : α) (s : σ) : Option α := do
  let pos ← NodeStore.getNext head s
  walk NodeStore.getNext body head fuel pos value s

/-- `list_for_each_prev(pos, head)`. -/
def listForEachPrev {α : Type} (body : P → α → α) (head : P) (fuel : Nat)
    (value : α) (s : σ) : Option α := do
  let pos ← NodeStore.getPrev head s
  walk NodeStore.getPrev body head fuel pos value s

/-- The rounds of `list_for_each_safe` from `pos`, when `n` is already
fetched. -/
def safeRounds {α : Type} (body : P → α → σ → Option (α × σ)) (head : P) :
    Nat → P → P → α → σ → Option (α × σ)
  | 0, _, _, _, _ => none
  | fuel + 1, pos, n, value, s =>
      if pos = head then some (value, s)
      else do
        let (value, s) ← body pos value s
        let n' ← NodeStore.getNext n s
        safeRounds body head fuel n n' value s

/-- `list_for_each_safe(pos, n, head)`. -/
def listForEachSafe {α : Type} (body : P → α → σ → Option (α × σ)) (head : P)
    (fuel : Nat) (value : α) (s : σ) : Option (α × σ) := do
  let pos ← NodeStore.getNext head s
  let n ← NodeStore.getNext pos s
  safeRounds body head fuel pos n value s

/-- Move the entry to the end of `target` when the test selects it. -/
def moveSelected (selected : P → σ → Option Bool) (target pos : P) (s : σ) :
    Option σ := do
  let yes ← selected pos s
  if yes then listMoveTail pos target s else return s

/-- A body that uses the entry before it moves it. -/
def visitAndMove {α : Type} (visit : P → α → α)
    (selected : P → σ → Option Bool) (target pos : P) (value : α) (s : σ) :
    Option (α × σ) := do
  let s ← moveSelected selected target pos s
  return (visit pos value, s)

variable {R : NodeRegion P σ} {s : σ} {head : P} {items : List P}

theorem walk_forwards {α : Type} (at_ : R.RingAt s head items)
    (body : P → α → α) (after before : List P)
    (isSplit : items = before ++ after) (value : α) {fuel : Nat}
    (enough : after.length < fuel) :
    walk NodeStore.getNext body head fuel (ahead head after) value s =
      some (after.foldl (fun value entry => body entry value) value) := by
  induction after generalizing before value fuel with
  | nil =>
      obtain ⟨fuel, rfl⟩ := Nat.exists_eq_add_one.mpr enough
      simp [walk, ahead]
  | cons entry rest inductionHypothesis =>
      obtain ⟨fuel, rfl⟩ := Nat.exists_eq_add_one.mpr (Nat.zero_lt_of_lt enough)
      subst isSplit
      have entryNode := at_.nodes entry (by simp)
      have notHead : entry ≠ head := by
        rintro rfl
        exact (List.nodup_cons.mp at_.nodup).1 (by simp)
      have nextEntry : R.next s entry = ahead head rest :=
        at_.ring.next_item before rest
      have enoughRest : rest.length < fuel := by simpa using enough
      have others := inductionHypothesis (before ++ [entry]) (by simp)
        (body entry value) enoughRest
      simpa [walk, ahead, notHead, R.getNext_eq entryNode, nextEntry] using
        others

theorem walk_backwards {α : Type} (at_ : R.RingAt s head items)
    (body : P → α → α) (reversed after : List P)
    (isSplit : items = reversed.reverse ++ after) (value : α) {fuel : Nat}
    (enough : reversed.length < fuel) :
    walk NodeStore.getPrev body head fuel (ahead head reversed) value s =
      some (reversed.foldl (fun value entry => body entry value) value) := by
  induction reversed generalizing after value fuel with
  | nil =>
      obtain ⟨fuel, rfl⟩ := Nat.exists_eq_add_one.mpr enough
      simp [walk, ahead]
  | cons entry rest inductionHypothesis =>
      obtain ⟨fuel, rfl⟩ := Nat.exists_eq_add_one.mpr (Nat.zero_lt_of_lt enough)
      subst isSplit
      rw [List.reverse_cons, List.append_assoc, List.singleton_append] at at_
      have entryNode := at_.nodes entry (by simp)
      have notHead : entry ≠ head := by
        rintro rfl
        exact (List.nodup_cons.mp at_.nodup).1 (by simp)
      have prevEntry : R.prev s entry = ahead head rest := by
        rw [at_.ring.prev_item rest.reverse after, List.getLast?_reverse]
        rfl
      have enoughRest : rest.length < fuel := by simpa using enough
      have others := inductionHypothesis (entry :: after) (by simp)
        (body entry value) enoughRest
      simpa [walk, ahead, notHead, R.getPrev_eq entryNode, prevEntry] using
        others

/-- The tests and loops of `list.h` report exactly these entries. -/
structure ReadsAs (head : P) (items : List P) (s : σ) : Prop where
  empty : listEmpty head s = some items.isEmpty
  careful : listEmptyCareful head s = some items.isEmpty
  singular : listIsSingular head s = some (items.length == 1)
  last : ∀ entry, entry ∈ items →
    listIsLast entry head s = some (items.getLast? == some entry)
  forwards : ∀ {α : Type} (body : P → α → α) (value : α) (fuel : Nat),
    items.length < fuel → listForEach body head fuel value s =
      some (items.foldl (fun value entry => body entry value) value)
  backwards : ∀ {α : Type} (body : P → α → α) (value : α) (fuel : Nat),
    items.length < fuel → listForEachPrev body head fuel value s =
      some (items.reverse.foldl (fun value entry => body entry value) value)

theorem listEmptyCareful_spec (at_ : R.RingAt s head items) :
    listEmptyCareful head s = some items.isEmpty := by
  have headNode := at_.nodes head List.mem_cons_self
  have headFresh := (List.nodup_cons.mp at_.nodup).1
  simp only [listEmptyCareful, R.getNext_eq headNode, R.getPrev_eq headNode,
    at_.ring.next_head, at_.ring.prev_head, Option.bind_eq_bind,
    Option.bind_some, Option.pure_def]
  cases items with
  | nil => simp
  | cons first rest =>
      have different : first ≠ head := by
        rintro rfl
        exact headFresh List.mem_cons_self
      simp [different]

theorem listIsLast_spec (at_ : R.RingAt s head items) {entry : P}
    (member : entry ∈ items) :
    listIsLast entry head s = some (items.getLast? == some entry) := by
  obtain ⟨before, after, rfl⟩ := List.append_of_mem member
  have entryNode := at_.nodes entry (List.mem_cons_of_mem head member)
  obtain ⟨headFresh, nodup⟩ := List.nodup_cons.mp at_.nodup
  have nextEntry := at_.ring.next_item before after
  simp only [listIsLast, R.getNext_eq entryNode, nextEntry,
    Option.bind_eq_bind, Option.bind_some, Option.pure_def]
  cases after with
  | nil => simp
  | cons second rest =>
      have entryFresh := (List.nodup_cons.mp (List.nodup_append.mp nodup).2.1).1
      have notHead : second ≠ head := by
        rintro rfl
        exact headFresh (by simp)
      have notLast : (second :: rest).getLast? ≠ some entry :=
        fun same => entryFresh (List.mem_of_getLast? same)
      simp [notHead, notLast]

theorem readsAs_of_ringAt (at_ : R.RingAt s head items) :
    ReadsAs head items s where
  empty := listEmpty_spec at_
  careful := listEmptyCareful_spec at_
  singular := listIsSingular_spec at_
  last := fun _ member => listIsLast_spec at_ member
  forwards := by
    intro α body value fuel enough
    have headNode := at_.nodes head List.mem_cons_self
    have walked := walk_forwards at_ body items [] rfl value enough
    simpa [listForEach, R.getNext_eq headNode, at_.ring.next_head, ahead]
      using walked
  backwards := by
    intro α body value fuel enough
    have headNode := at_.nodes head List.mem_cons_self
    have enoughReversed : items.reverse.length < fuel := by
      simpa using enough
    have walked := walk_backwards at_ body items.reverse [] (by simp) value
      enoughReversed
    simpa [listForEachPrev, R.getPrev_eq headNode, at_.ring.prev_head, ahead]
      using walked

/-- Four nodes, each right behind the one before it. -/
def fourNodes : List Word := [4096#32, 4104#32, 4112#32, 4120#32]

theorem fourNodes_separate : SeparateNodes fourNodes where
  inside := by simp [fourNodes]
  apart := by
    intro left right leftMember rightMember
    simp only [fourNodes, List.mem_cons, List.not_mem_nil, or_false]
      at leftMember rightMember
    rcases leftMember with rfl | rfl | rfl | rfl <;>
      rcases rightMember with rfl | rfl | rfl | rfl <;> simp

/-- Two entries are queued and rotated, and the new first one is cut off. -/
def fourNodesCalls : List (ListCall Word) :=
  [.init 4096#32, .addTail 4112#32 4096#32, .addTail 4120#32 4096#32,
    .rotateLeft 4096#32, .cutPosition 4104#32 4096#32 4120#32]

theorem fourNodesCalls_effects :
    ListEffects (listHeadRegion fourNodes fourNodes_separate).node ListTable.empty
      fourNodesCalls
      ((((((ListTable.empty.set 4096#32 []).set 4096#32 [4112#32]).set 4096#32
        [4112#32, 4120#32]).set 4096#32 [4120#32, 4112#32]).set 4104#32
          [4120#32]).set 4096#32 [4112#32]) := by
  refine .cons (.init (by simp [listHeadRegion, fourNodes])
    (ListTable.unlisted_empty _).itemless) ?_
  refine .cons (@ListEffect.addTail _ _ _ _ _ _ [] []
    (by simp [listHeadRegion, fourNodes])
    ((ListTable.unlisted_empty _).set (by simp)) (by simp)) ?_
  refine .cons (@ListEffect.addTail _ _ _ _ _ _ [4112#32] []
    (by simp [listHeadRegion, fourNodes])
    (((ListTable.unlisted_empty _).set (by simp)).set (by simp)) (by simp)) ?_
  refine .cons (@ListEffect.rotateLeft _ _ _ _ _ [4112#32, 4120#32] (by simp)) ?_
  refine .cons (@ListEffect.cutPosition _ _ _ _ _ _ [4120#32] [4112#32]
    (by simp [listHeadRegion, fourNodes])
    (((((ListTable.unlisted_empty _).set (by simp)).set (by simp)).set
      (by simp)).set (by simp)).itemless (by simp) (by simp) (by simp)) ?_
  exact .nil _

/-- Every run of calls that a client may issue goes through and changes nothing
but links.  The lists read afterwards are those its effects lead to. -/
theorem runCalls_reads {calls : List (ListCall P)} {lists lists' : ListTable P}
    (at_ : R.ListsAt s lists)
    (effects : ListEffects R.node lists calls lists') :
    ∃ s', runCalls calls s = some s' ∧ R.keeps s s' ∧ R.ListsAt s' lists' ∧
      ∀ head items, lists' head = some items → ReadsAs head items s' := by
  obtain ⟨s', run, keeps, finalAt⟩ := runCalls_achieves at_ effects
  exact ⟨s', run, keeps, finalAt,
    fun _ _ isList => readsAs_of_ringAt (finalAt.ring isList)⟩

theorem runCalls_reads_fourNodes :
    ∃ s', runCalls fourNodesCalls (⟨fun _ => 0, []⟩ : Memory) = some s' ∧
      ReadsAs (4104#32 : Word) [4120#32] s' ∧
      ReadsAs (4096#32 : Word) [4112#32] s' := by
  obtain ⟨s', run, -, -, reads⟩ := runCalls_reads
    (NodeRegion.ListsAt.empty _ ⟨fun _ => 0, []⟩) fourNodesCalls_effects
  exact ⟨s', run, reads _ _ (by simp), reads _ _ (by simp)⟩

/-- One round, whether it moves its entry or leaves it. -/
theorem moveSelected_achieves {lists : ListTable P} {target entry : P}
    {kept rest collected : List P} {selected : P → σ → Option Bool}
    {yes : Bool} (at_ : R.ListsAt s lists) (different : target ≠ head)
    (isList : lists head = some (kept ++ entry :: rest))
    (isTarget : lists target = some collected)
    (answer : selected entry s = some yes) :
    R.Achieves s (moveSelected selected target entry s)
      ((lists.set head ((if yes then kept else kept ++ [entry]) ++ rest)).set
        target (if yes then collected ++ [entry] else collected)) := by
  cases yes with
  | true =>
      have stillTarget : lists.set head (kept ++ rest) target =
          some (collected ++ []) := by
        simp [ListTable.set_of_ne lists _ different, isTarget]
      have moved := moveTail_achieves at_ isList stillTarget
      simpa [moveSelected, answer, ahead] using moved
  | false =>
      have sameHead : lists.set head (kept ++ entry :: rest) = lists :=
        ListTable.set_eq_self isList
      have stays := NodeRegion.Achieves.refl at_
      simpa [moveSelected, answer, sameHead, ListTable.set_eq_self isTarget] using
        stays

theorem set_set_comm {lists : ListTable P} {target : P} (different : target ≠ head)
    (first second third fourth : List P) :
    (((lists.set head first).set target second).set head third).set target
        fourth =
      (lists.set head third).set target fourth := by
  simp only [ListTable.set]
  rw [Function.update_comm different,
    Function.update_idem, Function.update_idem]

/-- The rounds of a walk that sorts the entries of a list. -/
theorem safeRounds_moves {α : Type} (visit : P → α → α) {lists : ListTable P}
    {target : P} {kept rest collected : List P}
    {selected : P → σ → Option Bool} {test : P → Bool}
    (at_ : R.ListsAt s lists) (different : target ≠ head)
    (isList : lists head = some (kept ++ rest))
    (isTarget : lists target = some collected)
    (answers : ∀ entry, entry ∈ rest → ∀ s', R.keeps s s' →
      selected entry s' = some (test entry))
    {n : P} (fetched : rest ≠ [] → n = ahead head rest.tail) (value : α)
    {fuel : Nat} (enough : rest.length < fuel) :
    ∃ s', safeRounds (visitAndMove visit selected target) head fuel
        (ahead head rest) n value s =
        some (rest.foldl (fun value entry => visit entry value) value, s') ∧
      R.keeps s s' ∧
      R.ListsAt s'
        ((lists.set head (kept ++ rest.filter (fun entry => !test entry))).set
          target (collected ++ rest.filter test)) := by
  induction rest generalizing s lists kept collected n value fuel with
  | nil =>
      obtain ⟨fuel, rfl⟩ := Nat.exists_eq_add_one.mpr enough
      rw [List.append_nil] at isList
      refine ⟨s, ?_, R.keeps_refl s, ?_⟩
      · simp [safeRounds, ahead]
      · simpa [ListTable.set_eq_self isList, ListTable.set_eq_self isTarget]
          using at_
  | cons entry rest inductionHypothesis =>
      obtain ⟨fuel, rfl⟩ := Nat.exists_eq_add_one.mpr (Nat.zero_lt_of_lt enough)
      have ring := at_.ring isList
      have notHead : entry ≠ head := by
        rintro rfl
        exact (List.nodup_cons.mp ring.nodup).1 (by simp)
      have isNext : n = ahead head rest := by
        simpa using fetched (List.cons_ne_nil entry rest)
      obtain ⟨s₁, run, keeps, nextAt⟩ := moveSelected_achieves at_ different
        isList isTarget (answers entry (by simp) s (R.keeps_refl s))
      have sameHead :
          (lists.set head
            ((if test entry then kept else kept ++ [entry]) ++ rest)).set target
              (if test entry then collected ++ [entry] else collected) head =
            some ((if test entry then kept else kept ++ [entry]) ++ rest) := by
        rw [ListTable.set_of_ne _ _ different.symm, ListTable.set_self]
      have nextList := nextAt.ring sameHead
      have nNode : R.node n := by
        rw [isNext]
        exact nextList.nodes _ nextList.ahead_mem
      have enoughRest : rest.length < fuel := by simpa using enough
      have fetchedNext : rest ≠ [] → R.next s₁ n = ahead head rest.tail := by
        intro nonempty
        obtain ⟨second, others, rfl⟩ := List.exists_cons_of_ne_nil nonempty
        rw [isNext]
        exact nextList.ring.next_item _ others
      have others := inductionHypothesis nextAt sameHead
        (by rw [ListTable.set_self])
        (fun other member s' keeps' =>
          answers other (List.mem_cons_of_mem entry member) s'
            (R.keeps_trans keeps keeps'))
        fetchedNext (visit entry value) enoughRest
      obtain ⟨s₂, run₂, keeps₂, finalAt⟩ := others
      rw [set_set_comm different] at finalAt
      refine ⟨s₂, ?_, R.keeps_trans keeps keeps₂, ?_⟩
      · rw [← isNext] at run₂
        simpa [safeRounds, visitAndMove, ahead, notHead, run,
          R.getNext_eq nNode] using run₂
      · cases isSelected : test entry <;> simpa [isSelected] using finalAt

/-- `list_for_each_safe` may move its current entry away: a walk that moves the
entries passing a test visits every entry once and in order, keeps the order on
both sides and leaves all other lists as they are. -/
theorem listForEachSafe_partitions {α : Type} (visit : P → α → α)
    {lists : ListTable P} {target : P} {items collected : List P}
    {selected : P → σ → Option Bool} {test : P → Bool}
    (at_ : R.ListsAt s lists) (different : target ≠ head)
    (isList : lists head = some items)
    (isTarget : lists target = some collected)
    (answers : ∀ entry, entry ∈ items → ∀ s', R.keeps s s' →
      selected entry s' = some (test entry)) (value : α)
    {fuel : Nat} (enough : items.length < fuel) :
    ∃ s', listForEachSafe (visitAndMove visit selected target) head fuel value
        s = some (items.foldl (fun value entry => visit entry value) value,
          s') ∧
      R.keeps s s' ∧
      R.ListsAt s'
        ((lists.set head (items.filter (fun entry => !test entry))).set target
          (collected ++ items.filter test)) := by
  have ring := at_.ring isList
  have headNode := ring.nodes head List.mem_cons_self
  have firstNode := ring.nodes _ ring.next_head_node
  have isFirst : R.next s head = ahead head items := ring.ring.next_head
  have fetched :
      items ≠ [] → R.next s (R.next s head) = ahead head items.tail := by
    intro nonempty
    obtain ⟨first, rest, rfl⟩ := List.exists_cons_of_ne_nil nonempty
    rw [isFirst]
    exact ring.ring.next_item [] rest
  have walked := safeRounds_moves visit at_ different
    (show lists head = some ([] ++ items) from isList) isTarget answers fetched
    value enough
  obtain ⟨s', run, keeps, finalAt⟩ := walked
  refine ⟨s', ?_, keeps, finalAt⟩
  rw [← isFirst] at run
  simpa [listForEachSafe, R.getNext_eq headNode, R.getNext_eq firstNode]
    using run

/-! ## A walk over three entries -/

/-- Two heads and four entries. -/
def sixNodes : List Word := fourNodes ++ [4128#32, 4136#32]

theorem sixNodes_separate : SeparateNodes sixNodes where
  inside := by simp [sixNodes, fourNodes]
  apart := by
    intro left right leftMember rightMember
    simp only [sixNodes, fourNodes, List.cons_append, List.nil_append,
      List.mem_cons, List.not_mem_nil, or_false] at leftMember rightMember
    rcases leftMember with rfl | rfl | rfl | rfl | rfl | rfl <;>
      rcases rightMember with rfl | rfl | rfl | rfl | rfl | rfl <;> simp

/-- Three entries in the first list and one in the second. -/
def sixNodesCalls : List (ListCall Word) :=
  [.init 4096#32, .init 4104#32, .addTail 4112#32 4096#32,
    .addTail 4120#32 4096#32, .addTail 4128#32 4096#32,
    .addTail 4136#32 4104#32]

def sixNodesLists : ListTable Word :=
  ((((((ListTable.empty.set 4096#32 []).set 4104#32 []).set 4096#32
    [4112#32]).set 4096#32 [4112#32, 4120#32]).set 4096#32
      [4112#32, 4120#32, 4128#32]).set 4104#32 [4136#32])

theorem sixNodesCalls_effects :
    ListEffects (listHeadRegion sixNodes sixNodes_separate).node
      ListTable.empty sixNodesCalls sixNodesLists := by
  have isNode : ∀ node, node ∈ sixNodes →
      (listHeadRegion sixNodes sixNodes_separate).node node :=
    fun _ member => member
  refine .cons (.init (isNode _ (by simp [sixNodes, fourNodes]))
    (ListTable.unlisted_empty _).itemless) ?_
  refine .cons (.init (isNode _ (by simp [sixNodes, fourNodes]))
    ((ListTable.unlisted_empty _).set (by simp)).itemless) ?_
  refine .cons (@ListEffect.addTail _ _ _ _ _ _ [] []
    (isNode _ (by simp [sixNodes, fourNodes]))
    (((ListTable.unlisted_empty _).set (by simp)).set (by simp)) (by simp)) ?_
  refine .cons (@ListEffect.addTail _ _ _ _ _ _ [4112#32] []
    (isNode _ (by simp [sixNodes, fourNodes]))
    ((((ListTable.unlisted_empty _).set (by simp)).set (by simp)).set
      (by simp)) (by simp)) ?_
  refine .cons (@ListEffect.addTail _ _ _ _ _ _ [4112#32, 4120#32] []
    (isNode _ (by simp [sixNodes, fourNodes]))
    (((((ListTable.unlisted_empty _).set (by simp)).set (by simp)).set
      (by simp)).set (by simp)) (by simp)) ?_
  refine .cons (@ListEffect.addTail _ _ _ _ _ _ [] []
    (isNode _ (by simp [sixNodes, fourNodes]))
    ((((((ListTable.unlisted_empty _).set (by simp)).set (by simp)).set
      (by simp)).set (by simp)).set (by simp)) (by simp)) ?_
  exact .nil _

/-- The first and the third entry are moved behind the one that was there. -/
theorem listForEachSafe_partitions_sixNodes :
    ∃ s s', runCalls sixNodesCalls (⟨fun _ => 0, []⟩ : Memory) = some s ∧
      listForEachSafe
        (visitAndMove (fun entry visited => visited ++ [entry])
          (fun entry _ => some (entry != 4120#32)) 4104#32) 4096#32 4 [] s =
        some ([4112#32, 4120#32, 4128#32], s') ∧
      ReadsAs (4096#32 : Word) [4120#32] s' ∧
      ReadsAs (4104#32 : Word) [4136#32, 4112#32, 4128#32] s' := by
  obtain ⟨s, calls, -, startAt⟩ := runCalls_achieves
    (NodeRegion.ListsAt.empty _ (⟨fun _ => 0, []⟩ : Memory))
    sixNodesCalls_effects
  obtain ⟨s', run, -, finalAt⟩ := listForEachSafe_partitions
    (fun entry visited => visited ++ [entry]) startAt
    (show 4104#32 ≠ 4096#32 by simp)
    (show sixNodesLists 4096#32 = some [4112#32, 4120#32, 4128#32] by
      simp [sixNodesLists])
    (show sixNodesLists 4104#32 = some [4136#32] by simp [sixNodesLists])
    (show ∀ entry, entry ∈ [4112#32, 4120#32, 4128#32] → ∀ s' : Memory,
      (listHeadRegion sixNodes sixNodes_separate).keeps s s' →
        some (entry != 4120#32) = some (entry != 4120#32) from
      fun _ _ _ _ => rfl)
    [] (show [4112#32, 4120#32, 4128#32].length < 4 by simp)
  exact ⟨s, s', calls, run, readsAs_of_ringAt (finalAt.ring (by simp)),
    readsAs_of_ringAt (finalAt.ring (by simp))⟩

end Walks

end Hlos.Include
