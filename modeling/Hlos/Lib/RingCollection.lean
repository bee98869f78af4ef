import Hlos.Lib.RingPlaces

/-!
# Collections of rings

Several rings live in one store at once.  `ListTable` says which nodes are list
heads and which items they carry, and `ListsAt` that a store holds these lists
on pairwise separate nodes.  An edit takes the lists it works on out of the
collection, leaves the others alone and puts its results back in.
-/

namespace Hlos.Lib

/-- The items of every list head. -/
abbrev ListTable (P : Type) : Type := P → Option (List P)

namespace ListTable

variable {P : Type} [DecidableEq P]

def set (lists : ListTable P) (head : P) (items : List P) : ListTable P :=
  Function.update lists head (some items)

def drop (lists : ListTable P) (head : P) : ListTable P :=
  Function.update lists head none

@[simp] theorem set_self (lists : ListTable P) (head : P) (items : List P) :
    lists.set head items head = some items := by
  simp [set]

@[simp] theorem set_of_ne (lists : ListTable P) {head other : P}
    (items : List P) (different : other ≠ head) :
    lists.set head items other = lists other := by
  simp [set, different]

@[simp] theorem drop_self (lists : ListTable P) (head : P) :
    lists.drop head head = none := by
  simp [drop]

@[simp] theorem drop_of_ne (lists : ListTable P) {head other : P}
    (different : other ≠ head) : lists.drop head other = lists other := by
  simp [drop, different]

@[simp] theorem set_drop (lists : ListTable P) (head : P) (items : List P) :
    (lists.drop head).set head items = lists.set head items := by
  simp [set, drop]

@[simp] theorem set_set (lists : ListTable P) (head : P) (old items : List P) :
    (lists.set head old).set head items = lists.set head items := by
  simp [set]

theorem set_eq_self {lists : ListTable P} {head : P} {items : List P}
    (isList : lists head = some items) : lists.set head items = lists := by
  rw [set, ← isList, Function.update_eq_self]

/-- A node of none of the lists, neither a head nor an item. -/
def Unlisted (lists : ListTable P) (node : P) : Prop :=
  ∀ head items, lists head = some items → node ∉ head :: items

/-- A node that no list has as an item. -/
def Itemless (lists : ListTable P) (node : P) : Prop :=
  ∀ head items, lists head = some items → node ∉ items

/-- The collection before any list is set up. -/
def empty : ListTable P := fun _ => none

omit [DecidableEq P] in
theorem unlisted_empty (node : P) : Unlisted (empty : ListTable P) node := by
  intro head items isList
  cases isList

theorem Unlisted.drop {lists : ListTable P} {node : P}
    (unlisted : lists.Unlisted node) (head : P) :
    (lists.drop head).Unlisted node := by
  intro other items isList
  by_cases same : other = head
  · rw [same, drop_self] at isList
    cases isList
  · rw [drop_of_ne lists same] at isList
    exact unlisted other items isList

theorem Unlisted.set {lists : ListTable P} {node head : P} {items : List P}
    (unlisted : lists.Unlisted node) (absent : node ∉ head :: items) :
    (lists.set head items).Unlisted node := by
  intro other others isList
  by_cases same : other = head
  · rw [same, set_self, Option.some.injEq] at isList
    rw [same, ← isList]
    exact absent
  · rw [set_of_ne lists items same] at isList
    exact unlisted other others isList

theorem Itemless.drop {lists : ListTable P} {node : P}
    (itemless : lists.Itemless node) : (lists.drop node).Unlisted node := by
  intro other items isList
  by_cases same : other = node
  · rw [same, drop_self] at isList
    cases isList
  · rw [drop_of_ne lists same] at isList
    rw [List.mem_cons, not_or]
    exact ⟨fun same' => same same'.symm, itemless other items isList⟩

omit [DecidableEq P] in
theorem Unlisted.itemless {lists : ListTable P} {node : P}
    (unlisted : lists.Unlisted node) : lists.Itemless node :=
  fun head items isList =>
    List.not_mem_of_not_mem_cons (unlisted head items isList)

end ListTable

namespace NodeRegion

variable {P σ : Type} [DecidableEq P] [NodeStore P σ]

/-- The store holds the lists, on separate nodes. -/
structure ListsAt (R : NodeRegion P σ) (s : σ) (lists : ListTable P) : Prop where
  ring : ∀ {head items}, lists head = some items → R.RingAt s head items
  apart : ∀ {head other items others}, lists head = some items →
    lists other = some others → ∀ node, node ∈ head :: items →
      node ∈ other :: others → head = other

namespace ListsAt

variable {R : NodeRegion P σ} {s s' : σ} {lists : ListTable P}

theorem empty (R : NodeRegion P σ) (s : σ) : R.ListsAt s ListTable.empty where
  ring isList := by cases isList
  apart isList := by cases isList

/-- The nodes of a list that is taken out are listed nowhere else. -/
theorem unlisted (at_ : R.ListsAt s lists) {head : P} {items : List P}
    (isList : lists head = some items) (node : P)
    (member : node ∈ head :: items) : (lists.drop head).Unlisted node := by
  intro other others isOther otherMember
  by_cases same : other = head
  · rw [same, ListTable.drop_self] at isOther
    cases isOther
  · rw [ListTable.drop_of_ne lists same] at isOther
    exact same (at_.apart isList isOther node member otherMember).symm

theorem drop (at_ : R.ListsAt s lists) (head : P) :
    R.ListsAt s (lists.drop head) := by
  have kept : ∀ {other items}, lists.drop head other = some items →
      lists other = some items := by
    intro other items isList
    by_cases same : other = head
    · rw [same, ListTable.drop_self] at isList
      cases isList
    · rwa [ListTable.drop_of_ne lists same] at isList
  exact ⟨fun isList => at_.ring (kept isList),
    fun isList isOther => at_.apart (kept isList) (kept isOther)⟩

/-- Writes to unlisted nodes leave the lists in place. -/
theorem frame (at_ : R.ListsAt s lists) {written : List P}
    (untouched : R.Untouched written s s')
    (outside : ∀ node, node ∈ written → lists.Unlisted node) :
    R.ListsAt s' lists := by
  refine ⟨fun {head items} isList => ?_, at_.apart⟩
  apply (at_.ring isList).frame untouched
  intro node member isWritten
  exact outside node isWritten head items isList member

/-- A ring of unlisted nodes joins the collection. -/
theorem set (at_ : R.ListsAt s lists) {head : P} {items : List P}
    (ring : R.RingAt s head items)
    (outside : ∀ node, node ∈ head :: items → lists.Unlisted node) :
    R.ListsAt s (lists.set head items) := by
  refine ⟨fun {other others} isList => ?_,
    fun {first second firsts seconds} isFirst isSecond => ?_⟩
  · by_cases same : other = head
    · rw [same, ListTable.set_self, Option.some.injEq] at isList
      rw [same, ← isList]
      exact ring
    · rw [ListTable.set_of_ne lists items same] at isList
      exact at_.ring isList
  · intro node inFirst inSecond
    by_cases sameFirst : first = head
    · by_cases sameSecond : second = head
      · rw [sameFirst, sameSecond]
      · rw [sameFirst, ListTable.set_self, Option.some.injEq] at isFirst
        rw [ListTable.set_of_ne lists items sameSecond] at isSecond
        rw [sameFirst, ← isFirst] at inFirst
        exact absurd inSecond (outside node inFirst second seconds isSecond)
    · rw [ListTable.set_of_ne lists items sameFirst] at isFirst
      by_cases sameSecond : second = head
      · rw [sameSecond, ListTable.set_self, Option.some.injEq] at isSecond
        rw [sameSecond, ← isSecond] at inSecond
        exact absurd inFirst (outside node inSecond first firsts isFirst)
      · rw [ListTable.set_of_ne lists items sameSecond] at isSecond
        exact at_.apart isFirst isSecond node inFirst inSecond

/-- An entry that has left its list is listed nowhere. -/
theorem removed (at_ : R.ListsAt s lists) {head entry : P}
    {before after : List P}
    (isList : lists head = some (before ++ entry :: after)) :
    (lists.set head (before ++ after)).Unlisted entry := by
  have gone := at_.unlisted isList entry (by simp)
  rw [← ListTable.set_drop]
  apply gone.set
  have moved :
      (head :: (before ++ entry :: after)).Perm
        (entry :: head :: (before ++ after)) :=
    (List.perm_middle.cons head).trans (List.Perm.swap entry head _)
  have nodup := (at_.ring isList).nodup
  exact (List.nodup_cons.mp (moved.nodup_iff.mp nodup)).1

end ListsAt

/-- The call succeeds and leads to the given lists. -/
def Achieves (R : NodeRegion P σ) (s : σ) (result : Option σ)
    (lists : ListTable P) : Prop :=
  ∃ s', result = some s' ∧ R.keeps s s' ∧ R.ListsAt s' lists

/-- An edit of one list, which may take up unlisted nodes. -/
theorem Rewires.achieves {R : NodeRegion P σ} {s : σ} {lists : ListTable P}
    {head : P} {items written : List P} {result : Option σ}
    (rewires : R.Rewires written s result (fun s' => R.RingAt s' head items))
    (at_ : R.ListsAt s lists)
    (outside : ∀ node, node ∈ written → (lists.drop head).Unlisted node)
    (within : head :: items ⊆ written) :
    R.Achieves s result (lists.set head items) := by
  obtain ⟨s', run, keeps, untouched, ring⟩ := rewires
  have others := (at_.drop head).frame untouched outside
  refine ⟨s', run, keeps, ?_⟩
  rw [← ListTable.set_drop]
  exact others.set ring (fun node member => outside node (within member))

theorem Achieves.bind {R : NodeRegion P σ} {s : σ} {call : Option σ}
    {continuation : σ → Option σ} {middle lists : ListTable P}
    (first : R.Achieves s call middle)
    (second : ∀ s', R.ListsAt s' middle →
      R.Achieves s' (continuation s') lists) :
    R.Achieves s (call >>= continuation) lists := by
  obtain ⟨s', run, keeps, holds⟩ := first
  obtain ⟨s'', run', keeps', holds'⟩ := second s' holds
  refine ⟨s'', ?_, R.keeps_trans keeps keeps', holds'⟩
  simp [run, run']

/-- A call that does nothing. -/
theorem Achieves.refl {R : NodeRegion P σ} {s : σ} {lists : ListTable P}
    (at_ : R.ListsAt s lists) : R.Achieves s (some s) lists :=
  ⟨s, rfl, R.keeps_refl s, at_⟩

end NodeRegion

end Hlos.Lib
