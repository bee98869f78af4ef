import Hlos.Include.List

/-!
# The frame array

`struct page` of `include/mm.h` with the operations on its reference count and
its buddy mark, and the zone record of `mm/buddy.c`.

`Zone frames` is the memory the page allocator works on when it manages
`frames` page frames.  Frame structures with an index below `frames` may be
read and written.  The structure with index `frames` lies right behind the
managed ones and may only be read.  Any other access has no result.
-/

set_option linter.style.nameCheck false

namespace Hlos.Mm

open Hlos.Lib Hlos.Include

def MAX_ORDER : Nat := 11

/-- A pointer to a `struct list_head` of the page allocator: the list of a
free area or the `lru` field of a frame structure. -/
inductive ListNode where
  | null
  | area (order : Nat)
  | page (pfn : Nat)
deriving DecidableEq, Repr

structure ListHead where
  prev : ListNode
  next : ListNode
deriving DecidableEq, Repr

/-- The fields of `struct page` besides its list links.  Both counters are
32-bit `atomic_t` cells. -/
structure PageFields where
  priv : Nat
  count : BitVec 32
  mapcount : BitVec 32
deriving DecidableEq, Repr

structure Page extends PageFields where
  lru : ListHead
deriving DecidableEq, Repr

structure FreeArea where
  free_list : ListHead
  nr_free : Nat
deriving DecidableEq, Repr

/-- `sys_zone` together with the frame array `phy_pages`. -/
structure Zone (frames : Nat) where
  free_area : Nat → FreeArea
  free_pages : Nat
  count_pages : Nat
  pages : Nat → Page

variable {frames : Nat}

def readPage (pfn : Nat) (z : Zone frames) : Option Page :=
  if pfn ≤ frames then some (z.pages pfn) else none

def writePage (pfn : Nat) (change : Page → Page) (z : Zone frames) :
    Option (Zone frames) :=
  if pfn < frames then
    some { z with
      pages := Function.update z.pages pfn (change (z.pages pfn)) }
  else none

def readArea (order : Nat) (z : Zone frames) : Option FreeArea :=
  if order < MAX_ORDER then some (z.free_area order) else none

def writeArea (order : Nat) (change : FreeArea → FreeArea)
    (z : Zone frames) : Option (Zone frames) :=
  if order < MAX_ORDER then
    some { z with
      free_area :=
        Function.update z.free_area order (change (z.free_area order)) }
  else none

def getLink (node : ListNode) (z : Zone frames) : Option ListHead :=
  match node with
  | .null => none
  | .area order => (readArea order z).map FreeArea.free_list
  | .page pfn => (readPage pfn z).map Page.lru

def setLink (node : ListNode) (change : ListHead → ListHead)
    (z : Zone frames) : Option (Zone frames) :=
  match node with
  | .null => none
  | .area order =>
      writeArea order
        (fun area => { area with free_list := change area.free_list }) z
  | .page pfn =>
      writePage pfn (fun page => { page with lru := change page.lru }) z

instance : NodeStore ListNode (Zone frames) where
  null := .null
  getPrev node z := (getLink node z).map ListHead.prev
  getNext node z := (getLink node z).map ListHead.next
  setPrev node value z :=
    setLink node (fun link => { link with prev := value }) z
  setNext node value z :=
    setLink node (fun link => { link with next := value }) z

/-! ## `include/atomic.h` and `include/mm.h` -/

/-- `decl` followed by `sete`: the new value and whether it is zero. -/
def atomicDecAndTest (counter : BitVec 32) : BitVec 32 × Bool :=
  (counter - 1, counter - 1 == 0)

/-- `PAGE_BUDDY_MAPCOUNT_VALUE`. -/
def pageBuddyMapcountValue : BitVec 32 := -128

def initPageCount (page : Nat) (z : Zone frames) : Option (Zone frames) :=
  writePage page (fun p => { p with count := 1 }) z

def pageMapcountReset (page : Nat) (z : Zone frames) :
    Option (Zone frames) :=
  writePage page (fun p => { p with mapcount := -1 }) z

def getPage (page : Nat) (z : Zone frames) : Option (Zone frames) :=
  writePage page (fun p => { p with count := p.count + 1 }) z

def setPageCount (page : Nat) (value : BitVec 32) (z : Zone frames) :
    Option (Zone frames) :=
  writePage page (fun p => { p with count := value }) z

/-- Drop a reference; the answer tells whether it was the last one. -/
def putPageTestzero (page : Nat) (z : Zone frames) :
    Option (Bool × Zone frames) := do
  let p ← readPage page z
  let z ← writePage page
    (fun p => { p with count := (atomicDecAndTest p.count).1 }) z
  return ((atomicDecAndTest p.count).2, z)

def PageBuddy (page : Nat) (z : Zone frames) : Option Bool := do
  let p ← readPage page z
  return p.mapcount == pageBuddyMapcountValue

def __SetPageBuddy (page : Nat) (z : Zone frames) : Option (Zone frames) :=
  writePage page (fun p => { p with mapcount := pageBuddyMapcountValue }) z

def __ClearPageBuddy (page : Nat) (z : Zone frames) : Option (Zone frames) :=
  writePage page (fun p => { p with mapcount := -1 }) z

def setPagePrivate (page : Nat) (value : Nat) (z : Zone frames) :
    Option (Zone frames) :=
  writePage page (fun p => { p with priv := value }) z

/-! ## The nodes of a zone as a region -/

/-- The link pair a node holds. -/
def Zone.link (z : Zone frames) : ListNode → ListHead
  | .null => ⟨.null, .null⟩
  | .area order => (z.free_area order).free_list
  | .page pfn => (z.pages pfn).lru

def Zone.nrFree (z : Zone frames) (order : Nat) : Nat :=
  (z.free_area order).nr_free

def Zone.fields (z : Zone frames) (pfn : Nat) : PageFields :=
  (z.pages pfn).toPageFields

def IsZoneNode (frames : Nat) : ListNode → Prop
  | .null => False
  | .area order => order < MAX_ORDER
  | .page pfn => pfn < frames

/-- Everything the allocator uses besides the links is the same. -/
structure SameFields (z z' : Zone frames) : Prop where
  fields : z'.fields = z.fields
  nrFree : z'.nrFree = z.nrFree

/-- A write that leaves all links alone, with its effect on the rest. -/
structure PlainWrite (z z' : Zone frames) (fields : Nat → PageFields)
    (nrFree : Nat → Nat) : Prop where
  link : z'.link = z.link
  fields : z'.fields = fields
  nrFree : z'.nrFree = nrFree

theorem SameFields.trans {z z' z'' : Zone frames}
    (first : SameFields z z') (second : SameFields z' z'') :
    SameFields z z'' :=
  ⟨second.fields.trans first.fields, second.nrFree.trans first.nrFree⟩

/-- Rewriting the fields of one managed frame. -/
theorem writePage_plain {pfn : Nat} (bound : pfn < frames)
    (change : PageFields → PageFields) (z : Zone frames) :
    ∃ z',
      writePage pfn
        (fun p => { p with toPageFields := change p.toPageFields }) z =
          some z' ∧
      PlainWrite z z'
        (Function.update z.fields pfn (change (z.fields pfn))) z.nrFree := by
  refine ⟨_, if_pos bound, ?_, ?_, ?_⟩
  · funext node
    cases node with
    | null => rfl
    | area order => rfl
    | page tested =>
        by_cases same : tested = pfn
        · subst tested
          simp [Zone.link]
        · simp [Zone.link, same]
  · funext tested
    by_cases same : tested = pfn
    · subst tested
      simp [Zone.fields]
    · simp [Zone.fields, same]
  · rfl

/-- Rewriting the counter of one free area. -/
theorem writeArea_plain {order : Nat} (bound : order < MAX_ORDER)
    (change : Nat → Nat) (z : Zone frames) :
    ∃ z',
      writeArea order
        (fun area => { area with nr_free := change area.nr_free }) z =
          some z' ∧
      PlainWrite z z' z.fields
        (Function.update z.nrFree order (change (z.nrFree order))) := by
  refine ⟨_, if_pos bound, ?_, ?_, ?_⟩
  · funext node
    cases node with
    | null => rfl
    | page pfn => rfl
    | area tested =>
        by_cases same : tested = order
        · subst tested
          simp [Zone.link]
        · simp [Zone.link, same]
  · rfl
  · funext tested
    by_cases same : tested = order
    · subst tested
      simp [Zone.nrFree]
    · simp [Zone.nrFree, same]

theorem getLink_eq {node : ListNode} (isNode : IsZoneNode frames node)
    (z : Zone frames) : getLink node z = some (z.link node) := by
  cases node with
  | null => exact isNode.elim
  | area order =>
      have bound : order < MAX_ORDER := isNode
      simp [getLink, readArea, bound, Zone.link]
  | page pfn =>
      have bound : pfn ≤ frames := Nat.le_of_lt isNode
      simp [getLink, readPage, bound, Zone.link]

/-- A link write changes the links of its node only. -/
theorem setLink_eq {node : ListNode} (isNode : IsZoneNode frames node)
    (change : ListHead → ListHead) (z : Zone frames) :
    ∃ z', setLink node change z = some z' ∧ SameFields z z' ∧
      ∀ other, z'.link other =
        if other = node then change (z.link node) else z.link other := by
  cases node with
  | null => exact isNode.elim
  | area order =>
      have bound : order < MAX_ORDER := isNode
      refine ⟨_, if_pos bound, ⟨?_, ?_⟩, ?_⟩
      · rfl
      · funext tested
        by_cases same : tested = order <;> simp [Zone.nrFree, same]
      · intro other
        cases other with
        | null => simp [Zone.link]
        | page pfn => simp [Zone.link]
        | area tested =>
            by_cases same : tested = order <;> simp [Zone.link, same]
  | page pfn =>
      have bound : pfn < frames := isNode
      refine ⟨_, if_pos bound, ⟨?_, ?_⟩, ?_⟩
      · funext tested
        by_cases same : tested = pfn <;> simp [Zone.fields, same]
      · rfl
      · intro other
        cases other with
        | null => simp [Zone.link]
        | area order => simp [Zone.link]
        | page tested =>
            by_cases same : tested = pfn <;> simp [Zone.link, same]

/-- The free-list heads and the managed frame structures. -/
def zoneRegion (frames : Nat) : NodeRegion ListNode (Zone frames) where
  node := IsZoneNode frames
  next z node := (z.link node).next
  prev z node := (z.link node).prev
  keeps := SameFields
  keeps_refl _ := ⟨rfl, rfl⟩
  keeps_trans := SameFields.trans
  getPrev_eq := by
    intro p isNode s
    simp [NodeStore.getPrev, getLink_eq isNode]
  getNext_eq := by
    intro p isNode s
    simp [NodeStore.getNext, getLink_eq isNode]
  setPrev_eq := by
    intro p value isNode _ s
    obtain ⟨s', run, same, links⟩ :=
      setLink_eq isNode (fun link => { link with prev := value }) s
    refine ⟨s', run, same, ?_, ?_⟩
    · intro q _
      by_cases equal : q = p <;> simp [links, equal]
    · intro q _
      by_cases equal : q = p <;> simp [links, equal]
  setNext_eq := by
    intro p value isNode _ s
    obtain ⟨s', run, same, links⟩ :=
      setLink_eq isNode (fun link => { link with next := value }) s
    refine ⟨s', run, same, ?_, ?_⟩
    · intro q _
      by_cases equal : q = p <;> simp [links, equal]
    · intro q _
      by_cases equal : q = p <;> simp [links, equal]

end Hlos.Mm
