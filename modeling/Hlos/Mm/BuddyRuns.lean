import Mathlib.Algebra.BigOperators.Group.Finset.Basic
import Hlos.Lib.Machine
import Hlos.Mm.Boot
import Hlos.Mm.Ownership

/-!
# Runs of the page allocator

The clients of the page allocator as a machine.  Its state is the zone
together with a ledger of the blocks that `alloc_pages` has handed out and
`free_pages` has not yet taken back.  The ledger only records what the calls
returned; the allocator never sees it.

A call of `free_pages` that drops the last reference removes the block from
the ledger.
-/

set_option linter.style.nameCheck false

namespace Hlos.Mm

open Hlos.Lib Hlos.Include

variable {frames : Nat}

inductive BuddyOp where
  | alloc (order : Nat)
  | get (page : Nat)
  | free (page order : Nat)
deriving DecidableEq, Repr

structure BuddyState (frames : Nat) where
  zone : Zone frames
  allocated : Finset Entry

def buddyStep (s : BuddyState frames) : BuddyOp → Option (BuddyState frames)
  | .alloc order => do
      let (page, zone) ← allocPages order s.zone
      match page with
      | none => return ⟨zone, s.allocated⟩
      | some page => return ⟨zone, insert (page, order) s.allocated⟩
  | .get page => do
      let zone ← getPage page s.zone
      return ⟨zone, s.allocated⟩
  | .free page order => do
      let (last, _) ← putPageTestzero page s.zone
      let zone ← freePages page order s.zone
      return ⟨zone,
        if last then s.allocated.erase (page, order) else s.allocated⟩

/-- Only heads of allocated blocks are passed, with their orders. -/
def buddyLegal (s : BuddyState frames) : BuddyOp → Prop
  | .alloc _ => True
  | .get page => ∃ order, (page, order) ∈ s.allocated
  | .free page order => (page, order) ∈ s.allocated

def buddyMachine (frames : Nat) : Machine (BuddyState frames) BuddyOp where
  legal := buddyLegal
  step := buddyStep

theorem pmmFreePages_isSome (frames : Nat) :
    (pmmFreePages frames (zeroedZone frames)).isSome := by
  obtain ⟨z, _, run, _⟩ := pmmFreePages_spec frames
  rw [run]
  rfl

/-- The zone after `pmm_free_pages`. -/
def bootZone (frames : Nat) : Zone frames :=
  (pmmFreePages frames (zeroedZone frames)).get (pmmFreePages_isSome frames)

def bootState (frames : Nat) : BuddyState frames := ⟨bootZone frames, ∅⟩

theorem bootZone_handedOut (frames : Nat) :
    ∃ free, HandedOut (bootZone frames) free frames := by
  obtain ⟨z, free, run, handed⟩ := pmmFreePages_spec frames
  have isBoot : bootZone frames = z := by
    simp [bootZone, run]
  exact ⟨free, isBoot ▸ handed⟩

/-! ## The invariant of a run -/

/-- The zone represents free blocks which together with the allocated ones
partition the frames. -/
structure Consistent (z : Zone frames) (free : List DyadicBlock)
    (allocated : Set Entry) : Prop where
  represents : Represents z free
  valid : FreeList frames free
  tiling : Tiling frames free allocated

theorem bootZone_consistent (frames : Nat) :
    ∃ free, Consistent (bootZone frames) free ∅ := by
  obtain ⟨free, handed⟩ := bootZone_handedOut frames
  exact ⟨free, handed.represents, handed.valid,
    Tiling.empty handed.positions⟩

theorem Consistent.head_lt {z : Zone frames} {free : List DyadicBlock}
    {allocated : Set Entry} (consistent : Consistent z free allocated)
    {entry : Entry} (member : entry ∈ allocated) : entry.1 < frames := by
  have inside := consistent.tiling.inside member
  have positive := Nat.two_pow_pos entry.2
  omega

/-- `alloc_pages` adds the returned block to the ledger. -/
theorem Consistent.alloc {z : Zone frames} {free : List DyadicBlock}
    {allocated : Set Entry} (consistent : Consistent z free allocated)
    (order : Nat) :
    allocPages order z = some (none, z) ∨
      ∃ page z' free', allocPages order z = some (some page, z') ∧
        Consistent z' free' (insert (page, order) allocated) ∧
        ∀ pfn, (z'.fields pfn).count =
          if pfn = page then 1 else (z.fields pfn).count := by
  have spec :=
    allocPages_spec consistent.represents consistent.valid order
  cases result : allocate free order with
  | none =>
      rw [result] at spec
      exact Or.inl spec
  | some delivered =>
      obtain ⟨rest, block⟩ := delivered
      rw [result] at spec
      obtain ⟨z', run, represents', counts⟩ := spec
      have allocated' := allocate_spec consistent.valid result
      have tiling' := consistent.tiling.allocate allocated'
      rw [Entry.ofBlock, allocated'.order_eq] at tiling'
      exact Or.inr ⟨block.head, z', rest, run,
        ⟨represents', allocated'.valid, tiling'⟩, counts⟩

/-- A write of one reference count keeps the ledger. -/
theorem Consistent.of_count {z z' : Zone frames} {free : List DyadicBlock}
    {allocated : Set Entry} {page : Nat} {value : BitVec 32}
    (consistent : Consistent z free allocated)
    (write : PlainWrite z z' (withCount z page value) z.nrFree) :
    Consistent z' free allocated :=
  ⟨consistent.represents.of_count write, consistent.valid, consistent.tiling⟩

/-- `free_pages` with the last reference takes the block back. -/
theorem Consistent.release {z : Zone frames} {free : List DyadicBlock}
    {allocated : Set Entry} (consistent : Consistent z free allocated)
    {entry : Entry} (member : entry ∈ allocated)
    (last : (z.fields entry.1).count - 1 = 0) :
    ∃ z', freePages entry.1 entry.2 z = some z' ∧
      Consistent z' (release free entry.block) (allocated \ {entry}) ∧
      ∀ pfn, (z'.fields pfn).count =
        if pfn = entry.1 then 0 else (z.fields pfn).count := by
  have taken := consistent.tiling.taken member
  have inside := consistent.tiling.block_inside member
  have bounded : entry.block.order ≤ topOrder :=
    consistent.tiling.bounded entry member
  have head := Entry.block_head (consistent.tiling.aligned entry member)
  have spec :=
    freePages_release consistent.represents consistent.valid taken inside
      bounded (by rw [head]; exact last)
  rw [head] at spec
  obtain ⟨z', run, represents', counts⟩ := spec
  exact ⟨z', run,
    ⟨represents', release_valid consistent.valid taken inside bounded,
      consistent.tiling.release consistent.valid member⟩, counts⟩

/-- The invariant of the machine. -/
def BuddyInvariant (s : BuddyState frames) : Prop :=
  ∃ free, Consistent s.zone free (s.allocated : Set Entry)

theorem bootState_invariant (frames : Nat) :
    BuddyInvariant (bootState frames) := by
  obtain ⟨free, consistent⟩ := bootZone_consistent frames
  refine ⟨free, ?_⟩
  rw [bootState, Finset.coe_empty]
  exact consistent

theorem buddyMachine_keeps (frames : Nat) :
    (buddyMachine frames).Keeps BuddyInvariant := by
  intro s op invariant legal
  obtain ⟨free, consistent⟩ := invariant
  cases op with
  | alloc order =>
      rcases consistent.alloc order with
        failed | ⟨page, z', free', run, consistent', _⟩
      · refine ⟨s, ?_, free, consistent⟩
        simp [buddyMachine, buddyStep, failed]
      · refine ⟨⟨z', insert (page, order) s.allocated⟩, ?_, free', ?_⟩
        · simp [buddyMachine, buddyStep, run]
        · rw [Finset.coe_insert]
          exact consistent'
  | get page =>
      obtain ⟨order, member⟩ := legal
      obtain ⟨z', run, write⟩ :=
        getPage_spec (consistent.head_lt (Finset.mem_coe.mpr member)) s.zone
      refine ⟨⟨z', s.allocated⟩, ?_, free, consistent.of_count write⟩
      have run : getPage page s.zone = some z' := run
      simp [buddyMachine, buddyStep, run]
  | free page order =>
      have member : (page, order) ∈ (s.allocated : Set Entry) :=
        Finset.mem_coe.mpr legal
      have bound : page < frames := consistent.head_lt member
      obtain ⟨_, dropped, _⟩ := putPageTestzero_spec bound s.zone
      by_cases last : (s.zone.fields page).count - 1 = 0
      · obtain ⟨z', run, consistent', _⟩ := consistent.release member last
        refine ⟨⟨z', s.allocated.erase (page, order)⟩, ?_,
          release free (Entry.block (page, order)), ?_⟩
        · rw [last] at dropped
          simp [buddyMachine, buddyStep, dropped, run]
        · rw [Finset.coe_erase]
          exact consistent'
      · obtain ⟨z', run, write⟩ := freePages_keep bound last order
        refine ⟨⟨z', s.allocated⟩, ?_, free, consistent.of_count write⟩
        have test : ((s.zone.fields page).count - 1 == 0) = false := by
          simpa using last
        rw [test] at dropped
        simp [buddyMachine, buddyStep, dropped, run]

theorem reaches_invariant {s : BuddyState frames}
    (run : (buddyMachine frames).Reaches (bootState frames) s) :
    BuddyInvariant s :=
  (buddyMachine_keeps frames).reaches (bootState_invariant frames) run

/-! ## The zone invariant -/

/-- The pages listed in each area together with the allocated blocks. -/
structure ZoneInvariant (z : Zone frames) (allocated : Finset Entry)
    (heads : Nat → List Nat) : Prop where
  ring : ∀ order, order < MAX_ORDER →
    (zoneRegion frames).RingAt z (.area order)
      ((heads order).map ListNode.page)
  nr_free : ∀ order, order < MAX_ORDER →
    z.nrFree order = (heads order).length
  listed : ∀ order, order < MAX_ORDER → ∀ page, page ∈ heads order →
    2 ^ order ∣ page ∧ page + 2 ^ order ≤ frames ∧
      pageOrder page z = some order ∧ PageBuddy page z = some true
  marked : ∀ page, page < frames →
    (PageBuddy page z = some true ↔
      ∃ order, order < MAX_ORDER ∧ page ∈ heads order)
  free_disjoint : ∀ left right : Entry, left.1 ∈ heads left.2 →
    right.1 ∈ heads right.2 → left.2 < MAX_ORDER → right.2 < MAX_ORDER →
    ∀ page, left.Holds page → right.Holds page → left = right
  allocated_disjoint : ∀ left, left ∈ allocated → ∀ right, right ∈ allocated →
    ∀ page, left.Holds page → right.Holds page → left = right
  apart : ∀ left : Entry, left.2 < MAX_ORDER → left.1 ∈ heads left.2 →
    ∀ right, right ∈ allocated →
    ∀ page, left.Holds page → ¬ right.Holds page
  cover : ∀ page, page < frames ↔
    (∃ entry : Entry, entry.2 < MAX_ORDER ∧ entry.1 ∈ heads entry.2 ∧
      entry.Holds page) ∨
    ∃ entry, entry ∈ allocated ∧ entry.Holds page
  total : ∑ order ∈ Finset.range MAX_ORDER, z.nrFree order * 2 ^ order +
    ∑ entry ∈ allocated, 2 ^ entry.2 = frames

/-- The heads of the free blocks of one order. -/
def headsOf (free : List DyadicBlock) (order : Nat) : List Nat :=
  (ofOrder free order).map DyadicBlock.head

theorem mem_headsOf {free : List DyadicBlock} {order page : Nat} :
    page ∈ headsOf free order ↔
      ∃ block, block ∈ free ∧ Entry.ofBlock block = (page, order) := by
  simp only [headsOf, List.mem_map, mem_ofOrder, Entry.ofBlock,
    Prod.mk.injEq]
  constructor
  · rintro ⟨block, ⟨member, orderEq⟩, headEq⟩
    exact ⟨block, member, headEq, orderEq⟩
  · rintro ⟨block, member, headEq, orderEq⟩
    exact ⟨block, ⟨member, orderEq⟩, headEq⟩

theorem mem_freePositions_headsOf {free : List DyadicBlock}
    (valid : FreeList frames free) (page : Nat) :
    page ∈ freePositions free ↔
      ∃ entry : Entry, entry.2 < MAX_ORDER ∧
        entry.1 ∈ headsOf free entry.2 ∧ entry.Holds page := by
  constructor
  · rintro ⟨block, member, covered⟩
    refine ⟨Entry.ofBlock block, valid.order_lt member, ?_, ?_⟩
    · exact mem_headsOf.mpr ⟨block, member, rfl⟩
    · exact (Entry.ofBlock_holds_iff block page).mpr covered
  · rintro ⟨entry, _, listed, holds⟩
    obtain ⟨block, member, isEntry⟩ := mem_headsOf.mp listed
    have isEntry : Entry.ofBlock block = entry := isEntry
    rw [← isEntry] at holds
    exact ⟨block, member, (Entry.ofBlock_holds_iff block page).mp holds⟩

/-- The blocks of a list counted order by order. -/
theorem sum_ofOrder {free : List DyadicBlock}
    (bounded : ∀ block, block ∈ free → block.order < MAX_ORDER) :
    ∑ order ∈ Finset.range MAX_ORDER,
        (ofOrder free order).length * 2 ^ order =
      (free.map DyadicBlock.size).sum := by
  induction free with
  | nil => simp [ofOrder]
  | cons block free inductionFree =>
      have rest := inductionFree
        (fun other member => bounded other (List.mem_cons_of_mem block member))
      have inRange : block.order ∈ Finset.range MAX_ORDER :=
        Finset.mem_range.mpr (bounded block (by simp))
      have split : ∀ order,
          (ofOrder (block :: free) order).length * 2 ^ order =
            (ofOrder free order).length * 2 ^ order +
              if block.order = order then block.size else 0 := by
        intro order
        by_cases same : block.order = order
        · subst same
          rw [ofOrder_cons, List.length_cons, Nat.succ_mul, if_pos rfl]
          rfl
        · rw [ofOrder_cons_of_ne same, if_neg same, Nat.add_zero]
      calc
        ∑ order ∈ Finset.range MAX_ORDER,
              (ofOrder (block :: free) order).length * 2 ^ order
            = ∑ order ∈ Finset.range MAX_ORDER,
                  (ofOrder free order).length * 2 ^ order +
                ∑ order ∈ Finset.range MAX_ORDER,
                  (if block.order = order then block.size else 0) := by
              rw [← Finset.sum_add_distrib]
              exact Finset.sum_congr rfl fun order _ => split order
        _ = (free.map DyadicBlock.size).sum + block.size := by
              rw [rest, Finset.sum_ite_eq, if_pos inRange]
        _ = ((block :: free).map DyadicBlock.size).sum := by
              rw [List.map_cons, List.sum_cons, Nat.add_comm]

/-- The blocks of the allocated entries. -/
def heldBlocks (allocated : Finset Entry) : Finset DyadicBlock :=
  allocated.image Entry.block

theorem mem_heldBlocks {allocated : Finset Entry} {block : DyadicBlock} :
    block ∈ heldBlocks allocated ↔
      ∃ entry, entry ∈ allocated ∧ entry.block = block :=
  Finset.mem_image

section TilingBlocks

variable {free : List DyadicBlock} {allocated : Finset Entry}

theorem Tiling.sum_heldBlocks
    (tiling : Tiling frames free (allocated : Set Entry)) :
    ∑ block ∈ heldBlocks allocated, block.size =
      ∑ entry ∈ allocated, 2 ^ entry.2 := by
  apply Finset.sum_image
  intro left leftMember right rightMember same
  have same : left.block = right.block := same
  have leftBack := Entry.ofBlock_block (tiling.aligned left leftMember)
  have rightBack := Entry.ofBlock_block (tiling.aligned right rightMember)
  rw [← leftBack, ← rightBack, same]

theorem Tiling.heldBlocks_disjoint
    (tiling : Tiling frames free (allocated : Set Entry))
    {left right : DyadicBlock} (leftHeld : left ∈ heldBlocks allocated)
    (rightHeld : right ∈ heldBlocks allocated) {page : Nat}
    (inLeft : left.Covers page) (inRight : right.Covers page) :
    left = right := by
  obtain ⟨leftEntry, leftIn, leftIs⟩ := mem_heldBlocks.mp leftHeld
  obtain ⟨rightEntry, rightIn, rightIs⟩ := mem_heldBlocks.mp rightHeld
  rw [← leftIs, Entry.block_covers_iff (tiling.aligned _ leftIn)] at inLeft
  rw [← rightIs, Entry.block_covers_iff (tiling.aligned _ rightIn)] at inRight
  rw [← leftIs, ← rightIs,
    tiling.disjoint _ leftIn _ rightIn page inLeft inRight]

/-- No free block meets an allocated one. -/
theorem Tiling.free_apart
    (tiling : Tiling frames free (allocated : Set Entry))
    {block other : DyadicBlock} (member : block ∈ free)
    (held : other ∈ heldBlocks allocated) {page : Nat}
    (inBlock : block.Covers page) : ¬ other.Covers page := by
  intro inOther
  obtain ⟨entry, entryMember, isBlock⟩ := mem_heldBlocks.mp held
  rw [← isBlock] at inOther
  exact tiling.taken entryMember page inOther ⟨block, member, inBlock⟩

theorem Tiling.covered_iff
    (tiling : Tiling frames free (allocated : Set Entry)) (page : Nat) :
    page < frames ↔
      ∃ block, block ∈ free.toFinset ∪ heldBlocks allocated ∧
        block.Covers page := by
  rw [tiling.cover]
  constructor
  · intro covered
    cases covered with
    | inl inFree =>
        obtain ⟨block, member, inBlock⟩ := inFree
        exact ⟨block,
          Finset.mem_union_left _ (List.mem_toFinset.mpr member), inBlock⟩
    | inr inEntry =>
        obtain ⟨entry, member, holds⟩ := inEntry
        exact ⟨entry.block,
          Finset.mem_union_right _ (mem_heldBlocks.mpr ⟨entry, member, rfl⟩),
          (Entry.block_covers_iff (tiling.aligned _ member) page).mpr holds⟩
  · rintro ⟨block, member, covered⟩
    cases Finset.mem_union.mp member with
    | inl isFree => exact Or.inl ⟨block, List.mem_toFinset.mp isFree, covered⟩
    | inr isHeld =>
        obtain ⟨entry, entryMember, isBlock⟩ := mem_heldBlocks.mp isHeld
        rw [← isBlock] at covered
        exact Or.inr ⟨entry, entryMember,
          (Entry.block_covers_iff (tiling.aligned _ entryMember) page).mp
            covered⟩

/-- Free and allocated pages add up to the managed frames. -/
theorem Tiling.total (valid : FreeList frames free)
    (tiling : Tiling frames free (allocated : Set Entry)) :
    (free.map DyadicBlock.size).sum + ∑ entry ∈ allocated, 2 ^ entry.2 =
      frames := by
  have disjoint : Disjoint free.toFinset (heldBlocks allocated) := by
    refine Finset.disjoint_left.mpr fun block member held => ?_
    exact tiling.free_apart (List.mem_toFinset.mp member) held
      block.covers_head block.covers_head
  have all : ∑ block ∈ free.toFinset ∪ heldBlocks allocated, block.size =
      frames := by
    apply DyadicBlock.sum_sizes_eq
    · intro left leftMember right rightMember page inLeft inRight
      cases Finset.mem_union.mp leftMember with
      | inl leftFree =>
          have leftFree := List.mem_toFinset.mp leftFree
          cases Finset.mem_union.mp rightMember with
          | inl rightFree =>
              exact valid.coalesced.disjoint left leftFree right
                (List.mem_toFinset.mp rightFree) page inLeft inRight
          | inr rightHeld =>
              exact absurd inRight (tiling.free_apart leftFree rightHeld inLeft)
      | inr leftHeld =>
          cases Finset.mem_union.mp rightMember with
          | inl rightFree =>
              exact absurd inLeft
                (tiling.free_apart (List.mem_toFinset.mp rightFree) leftHeld
                  inRight)
          | inr rightHeld =>
              exact tiling.heldBlocks_disjoint leftHeld rightHeld inLeft inRight
    · exact tiling.covered_iff
  rw [Finset.sum_union disjoint, tiling.sum_heldBlocks,
    List.sum_toFinset DyadicBlock.size valid.nodup] at all
  exact all

end TilingBlocks

/-- A listed page carries the mark and the order of its block. -/
theorem Represents.listed {z : Zone frames} {free : List DyadicBlock}
    (represents : Represents z free) (valid : FreeList frames free)
    {order page : Nat} (listed : page ∈ headsOf free order) :
    2 ^ order ∣ page ∧ page + 2 ^ order ≤ frames ∧
      pageOrder page z = some order ∧ PageBuddy page z = some true := by
  obtain ⟨block, member, isEntry⟩ := mem_headsOf.mp listed
  have head : block.head = page := congrArg Prod.fst isEntry
  have orderEq : block.order = order := congrArg Prod.snd isEntry
  have bound : block.head ≤ frames := Nat.le_of_lt (valid.head_lt member)
  have read : readPage block.head z = some (z.pages block.head) := if_pos bound
  obtain ⟨mark, priv⟩ := represents.marked block member
  have mark : (z.pages block.head).mapcount = pageBuddyMapcountValue := mark
  have priv : (z.pages block.head).priv = block.order := priv
  rw [← head, ← orderEq]
  refine ⟨block.head_dvd, valid.inside block member, ?_, ?_⟩
  · simp [pageOrder, read, priv]
  · simp [PageBuddy, read, mark]

/-- Among the managed pages and the one behind them, exactly the listed ones
look like buddies. -/
theorem Represents.pageBuddy_iff {z : Zone frames} {free : List DyadicBlock}
    (represents : Represents z free) (valid : FreeList frames free)
    {page : Nat} (bound : page ≤ frames) :
    PageBuddy page z = some true ↔
      ∃ order, order < MAX_ORDER ∧ page ∈ headsOf free order := by
  constructor
  · intro mark
    have read : readPage page z = some (z.pages page) := if_pos bound
    have marked : (z.pages page).mapcount = pageBuddyMapcountValue := by
      simpa [PageBuddy, read] using mark
    by_contra unlisted
    have absent : ∀ block, block ∈ free → block.head ≠ page := by
      intro block member same
      apply unlisted
      refine ⟨block.order, valid.order_lt member, ?_⟩
      rw [← same]
      exact mem_headsOf.mpr ⟨block, member, rfl⟩
    exact (represents.unmarked page bound absent).1 marked
  · rintro ⟨order, _, listed⟩
    exact (represents.listed valid listed).2.2.2

/-- A page of a listed block lies in a free block. -/
theorem covers_of_listed {free : List DyadicBlock} {entry : Entry}
    (listed : entry.1 ∈ headsOf free entry.2) {page : Nat}
    (holds : entry.Holds page) :
    ∃ block, block ∈ free ∧ Entry.ofBlock block = entry ∧
      block.Covers page := by
  obtain ⟨block, member, isEntry⟩ := mem_headsOf.mp listed
  have isEntry : Entry.ofBlock block = entry := isEntry
  refine ⟨block, member, isEntry, ?_⟩
  rw [← Entry.ofBlock_holds_iff, isEntry]
  exact holds

theorem Consistent.zoneInvariant {z : Zone frames} {free : List DyadicBlock}
    {allocated : Finset Entry}
    (consistent : Consistent z free (allocated : Set Entry)) :
    ZoneInvariant z allocated (headsOf free) where
  ring := by
    intro order bound
    have ring := consistent.represents.rings order bound
    rw [headsOf, List.map_map]
    exact ring
  nr_free := by
    intro order bound
    rw [consistent.represents.nr_free order bound, headsOf, List.length_map]
  listed := fun _ _ _ listed =>
    consistent.represents.listed consistent.valid listed
  marked := fun _ bound =>
    consistent.represents.pageBuddy_iff consistent.valid (Nat.le_of_lt bound)
  free_disjoint := by
    intro left right leftListed rightListed _ _ page inLeft inRight
    obtain ⟨first, firstMember, isLeft, firstCovers⟩ :=
      covers_of_listed leftListed inLeft
    obtain ⟨second, secondMember, isRight, secondCovers⟩ :=
      covers_of_listed rightListed inRight
    rw [← isLeft, ← isRight,
      consistent.valid.coalesced.disjoint first firstMember second
        secondMember page firstCovers secondCovers]
  allocated_disjoint := consistent.tiling.disjoint
  apart := by
    intro left _ listed right rightMember page inLeft inRight
    obtain ⟨block, member, _, covered⟩ := covers_of_listed listed inLeft
    exact consistent.tiling.apart right rightMember page inRight
      ⟨block, member, covered⟩
  cover := by
    intro page
    rw [consistent.tiling.cover, mem_freePositions_headsOf consistent.valid]
    rfl
  total := by
    have counted := consistent.tiling.total consistent.valid
    rw [← sum_ofOrder (fun block member => consistent.valid.order_lt member)]
      at counted
    have same : ∀ order ∈ Finset.range MAX_ORDER,
        z.nrFree order * 2 ^ order =
          (ofOrder free order).length * 2 ^ order := by
      intro order inRange
      rw [consistent.represents.nr_free order (Finset.mem_range.mp inRange)]
    rw [Finset.sum_congr rfl same]
    exact counted

/-- In every run the zone invariant holds, and no legal call faults. -/
theorem buddy_zone_invariant (frames : Nat) {s : BuddyState frames}
    (run : (buddyMachine frames).Reaches (bootState frames) s) :
    (∃ heads, ZoneInvariant s.zone s.allocated heads) ∧
      ∀ op, (buddyMachine frames).legal s op →
        ∃ s', (buddyMachine frames).step s op = some s' := by
  constructor
  · obtain ⟨free, consistent⟩ := reaches_invariant run
    exact ⟨headsOf free, consistent.zoneInvariant⟩
  · intro op legal
    exact (buddyMachine_keeps frames).progress (bootState_invariant frames)
      run legal

theorem buddy_zone_invariant_five :
    ∃ s : BuddyState 5, s.allocated = {(0, 1)} ∧
      (∃ heads, ZoneInvariant s.zone s.allocated heads) ∧
      ∀ op, (buddyMachine 5).legal s op →
        ∃ s', (buddyMachine 5).step s op = some s' := by
  have answer :
      (buddyStep (bootState 5) (.alloc 1)).map BuddyState.allocated =
        some {(0, 1)} := by
    decide +kernel
  obtain ⟨s, stepRun, ledger⟩ := Option.map_eq_some_iff.mp answer
  have run : (buddyMachine 5).Reaches (bootState 5) s :=
    @Machine.Reaches.step _ _ _ _ _ _ (.alloc 1) Machine.Reaches.start trivial
      stepRun
  exact ⟨s, ledger, buddy_zone_invariant 5 run⟩

end Hlos.Mm
