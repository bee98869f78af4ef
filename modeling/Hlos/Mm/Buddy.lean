import Hlos.Mm.Frames

/-!
# `mm/buddy.c`

The page allocator as the source has it.  A `struct page *` is the index of
its frame structure, so that `page_to_pfn` and `pfn_to_page` are the identity.
The difference `buddy_idx - page_idx` of the source is unsigned and is added to
a pointer, which undoes the wrap: the result is `page + buddy_idx - page_idx`.

The bounded loops recurse on the number of turns that are left.
-/

set_option linter.style.nameCheck false

namespace Hlos.Mm

open Hlos.Lib Hlos.Include

variable {frames : Nat}

def pageOrder (page : Nat) (z : Zone frames) : Option Nat := do
  let p ← readPage page z
  return p.priv

def setPageOrder (page order : Nat) (z : Zone frames) :
    Option (Zone frames) := do
  let z ← setPagePrivate page order z
  __SetPageBuddy page z

def rmvPageOrder (page : Nat) (z : Zone frames) : Option (Zone frames) := do
  let z ← __ClearPageBuddy page z
  setPagePrivate page 0 z

def __findBuddyIndex (page_idx order : Nat) : Nat :=
  page_idx ^^^ (1 <<< order)

def pageIsBuddy (buddy order : Nat) (z : Zone frames) : Option Bool := do
  if ← PageBuddy buddy z then
    let found ← pageOrder buddy z
    return found == order
  else
    return false

/-- The merge loop of `__free_one_page`, which runs while `order` is below
`MAX_ORDER - 1`; the first argument is the difference. -/
def mergeLoop :
    Nat → (page page_idx order : Nat) → Zone frames →
      Option (Nat × Nat × Zone frames)
  | 0, page, _, order, z => some (page, order, z)
  | left + 1, page, page_idx, order, z => do
      let buddy_idx := __findBuddyIndex page_idx order
      let buddy := page + buddy_idx - page_idx
      if ← pageIsBuddy buddy order z then
        let z ← listDel (ListNode.page buddy) z
        let z ← writeArea order
          (fun area => { area with nr_free := area.nr_free - 1 }) z
        let z ← rmvPageOrder buddy z
        let combined_idx := buddy_idx &&& page_idx
        mergeLoop left (page + combined_idx - page_idx) combined_idx
          (order + 1) z
      else
        return (page, order, z)

def __freeOnePage (page order : Nat) (z : Zone frames) :
    Option (Zone frames) := do
  let page_idx := page &&& ((1 <<< MAX_ORDER) - 1)
  let (page, order, z) ←
    mergeLoop (MAX_ORDER - 1 - order) page page_idx order z
  let z ← setPageOrder page order z
  let z ← listAdd (ListNode.page page) (ListNode.area order) z
  writeArea order (fun area => { area with nr_free := area.nr_free + 1 }) z

/-- The loop of `expand`, which runs while `high > low`; the first argument is
the difference. -/
def expandLoop (page : Nat) :
    Nat → (high size area : Nat) → Zone frames → Option (Zone frames)
  | 0, _, _, _, z => some z
  | left + 1, high, size, area, z => do
      let area := area - 1
      let high := high - 1
      let size := size >>> 1
      let z ← listAdd (ListNode.page (page + size)) (ListNode.area area) z
      let z ← writeArea area
        (fun area => { area with nr_free := area.nr_free + 1 }) z
      let z ← setPageOrder (page + size) high z
      expandLoop page left high size area z

def expand (page low high area : Nat) (z : Zone frames) :
    Option (Zone frames) :=
  expandLoop page (high - low) high (1 <<< high) area z

/-- `list_entry(node, struct page, lru)`. -/
def listEntry : ListNode → Option Nat
  | .page pfn => some pfn
  | _ => none

/-- The search loop of `__rmqueue_smallest`, which runs while `current_order`
is below `MAX_ORDER`; the first argument is the difference. -/
def rmqueueLoop (order : Nat) :
    Nat → (current_order : Nat) → Zone frames →
      Option (Option Nat × Zone frames)
  | 0, _, z => some (none, z)
  | left + 1, current_order, z => do
      if ← listEmpty (ListNode.area current_order) z then
        rmqueueLoop order left (current_order + 1) z
      else
        let first ← NodeStore.getNext (ListNode.area current_order) z
        let page ← listEntry first
        let z ← listDel (ListNode.page page) z
        let z ← rmvPageOrder page z
        let z ← writeArea current_order
          (fun area => { area with nr_free := area.nr_free - 1 }) z
        let z ← expand page order current_order current_order z
        return (some page, z)

def __rmqueueSmallest (order : Nat) (z : Zone frames) :
    Option (Option Nat × Zone frames) :=
  rmqueueLoop order (MAX_ORDER - order) order z

def freePages (page order : Nat) (z : Zone frames) :
    Option (Zone frames) := do
  let (zero, z) ← putPageTestzero page z
  if zero then
    __freeOnePage page order z
  else
    return z

/-- `NULL` is `none`. -/
def allocPages (order : Nat) (z : Zone frames) :
    Option (Option Nat × Zone frames) := do
  let (page, z) ← __rmqueueSmallest order z
  match page with
  | none => return (none, z)
  | some page =>
      let z ← setPagePrivate page 0 z
      let z ← setPageCount page 1 z
      return (some page, z)

/-! ## Boot -/

def initAreas : Nat → Zone frames → Option (Zone frames)
  | 0, z => some z
  | left + 1, z => do
      let i := MAX_ORDER - (left + 1)
      let z ← writeArea i (fun area => { area with nr_free := 0 }) z
      let z ← initListHead (ListNode.area i) z
      initAreas left z

def initBuddyMm (z : Zone frames) : Option (Zone frames) :=
  initAreas MAX_ORDER { z with free_pages := 0, count_pages := 0 }

/-- The loop that initialises the frame structures, from `p_idx` upwards. -/
def initPages : (left p_idx : Nat) → Zone frames → Option (Zone frames)
  | 0, _, z => some z
  | left + 1, p_idx, z => do
      let z ← initPageCount p_idx z
      let z ← pageMapcountReset p_idx z
      let z ← initListHead (ListNode.page p_idx) z
      initPages left (p_idx + 1) z

/-- The loop that hands all frames to the buddy lists.  It has no result when
`fuel` turns are not enough. -/
def freeAllLoop (page_number : Nat) :
    (fuel p_idx p_order : Nat) → Zone frames → Option (Zone frames)
  | 0, p_idx, _, z => if p_idx < page_number then none else some z
  | fuel + 1, p_idx, p_order, z =>
      if p_idx < page_number then do
        let p_left := page_number - p_idx
        if p_left ≥ 1 <<< p_order then
          let z ← freePages p_idx p_order z
          freeAllLoop page_number fuel (p_idx + (1 <<< p_order)) p_order z
        else
          freeAllLoop page_number fuel p_idx (p_order - 1) z
      else
        some z

def pmmFreePages (page_number : Nat) (z : Zone frames) :
    Option (Zone frames) := do
  let z ← initBuddyMm z
  let z ← initPages page_number 0 z
  freeAllLoop page_number (page_number + MAX_ORDER) 0 (MAX_ORDER - 1) z

/-- The static zone and the frame array after `bzero`. -/
def zeroedZone (frames : Nat) : Zone frames where
  free_area _ := ⟨⟨.null, .null⟩, 0⟩
  free_pages := 0
  count_pages := 0
  pages _ := ⟨⟨0, 0, 0⟩, ⟨.null, .null⟩⟩

end Hlos.Mm
