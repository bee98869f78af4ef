import Hlos.Mm.BuddyRuns

/-!
# Full coalescing

In every reachable state the free blocks are the maximal aligned runs of free
pages.  They are therefore a function of the allocated blocks, whatever calls
led to the state.
-/

namespace Hlos.Mm

open Hlos.Lib

variable {frames : Nat}

/-- The listed heads with the order of their area. -/
def Zone.freeBlocks (z : Zone frames) : Set Entry :=
  {entry | entry.2 < MAX_ORDER ∧ ∃ items,
    (zoneRegion frames).RingAt z (.area entry.2) items ∧
      ListNode.page entry.1 ∈ items}

/-- The page is managed and belongs to no allocated block. -/
def FreePage (frames : Nat) (allocated : Finset Entry) (page : Nat) : Prop :=
  page < frames ∧ ∀ entry, entry ∈ allocated → ¬ entry.Holds page

/-- An aligned run of at most `2 ^ topOrder` free pages. -/
structure FreeEntry (frames : Nat) (allocated : Finset Entry)
    (entry : Entry) : Prop where
  bounded : entry.2 ≤ topOrder
  aligned : 2 ^ entry.2 ∣ entry.1
  free : ∀ page, entry.Holds page → FreePage frames allocated page

/-- A run of free pages that lies in no other one. -/
structure MaximalFreeEntry (frames : Nat) (allocated : Finset Entry)
    (entry : Entry) : Prop where
  run : FreeEntry frames allocated entry
  maximal : ∀ larger : Entry, FreeEntry frames allocated larger →
    (∀ page, entry.Holds page → larger.Holds page) → larger = entry

theorem mem_freeBlocks_iff {z : Zone frames} {free : List DyadicBlock}
    (represents : Represents z free) (valid : FreeList frames free)
    (entry : Entry) :
    entry ∈ z.freeBlocks ↔
      ∃ block, block ∈ free ∧ Entry.ofBlock block = entry := by
  constructor
  · rintro ⟨bound, items, ring, listed⟩
    rw [ring.unique (represents.rings entry.2 bound)] at listed
    obtain ⟨block, member, orderEq, headEq⟩ := page_mem_pageNodes.mp listed
    exact ⟨block, member, Prod.ext headEq orderEq⟩
  · rintro ⟨block, member, rfl⟩
    have bound := valid.order_lt member
    refine ⟨bound, pageNodes free block.order,
      represents.rings block.order bound, ?_⟩
    exact page_mem_pageNodes.mpr ⟨block, member, rfl, rfl⟩

/-- The listed blocks hold the free positions. -/
theorem mem_freePositions_freeBlocks {z : Zone frames}
    {free : List DyadicBlock} (represents : Represents z free)
    (valid : FreeList frames free) (page : Nat) :
    page ∈ freePositions free ↔
      ∃ entry, entry ∈ z.freeBlocks ∧ entry.Holds page := by
  have listed := mem_freeBlocks_iff represents valid
  constructor
  · rintro ⟨block, member, covered⟩
    refine ⟨Entry.ofBlock block, (listed _).mpr ⟨block, member, rfl⟩, ?_⟩
    exact (Entry.ofBlock_holds_iff block page).mpr covered
  · rintro ⟨entry, isListed, holds⟩
    obtain ⟨block, member, isEntry⟩ := (listed entry).mp isListed
    rw [← isEntry] at holds
    exact ⟨block, member, (Entry.ofBlock_holds_iff block page).mp holds⟩

theorem freePositions_eq {free : List DyadicBlock} {allocated : Finset Entry}
    (tiling : Tiling frames free (allocated : Set Entry)) :
    freePositions free = {page | FreePage frames allocated page} := by
  ext page
  exact tiling.mem_freePositions_iff page

/-- Free runs of pages are free runs of positions. -/
theorem freeRun_iff {free : List DyadicBlock} {allocated : Finset Entry}
    (tiling : Tiling frames free (allocated : Set Entry))
    (block : DyadicBlock) :
    (block.order ≤ topOrder ∧ FreeRun (freePositions free) block) ↔
      FreeEntry frames allocated (Entry.ofBlock block) := by
  rw [freePositions_eq tiling]
  constructor
  · rintro ⟨bounded, run⟩
    refine ⟨bounded, Entry.ofBlock_aligned block, ?_⟩
    intro page holds
    exact run page ((Entry.ofBlock_holds_iff block page).mp holds)
  · intro entry
    refine ⟨entry.bounded, ?_⟩
    intro page covered
    exact entry.free page ((Entry.ofBlock_holds_iff block page).mpr covered)

theorem maximalRun_iff {free : List DyadicBlock} {allocated : Finset Entry}
    (tiling : Tiling frames free (allocated : Set Entry))
    (block : DyadicBlock) :
    MaximalRun topOrder (freePositions free) block ↔
      MaximalFreeEntry frames allocated (Entry.ofBlock block) := by
  constructor
  · intro maximal
    refine ⟨(freeRun_iff tiling block).mp ⟨maximal.bounded, maximal.run⟩, ?_⟩
    intro larger largerRun contains
    have isEntry := Entry.ofBlock_block largerRun.aligned
    rw [← isEntry] at largerRun contains
    obtain ⟨bounded, run⟩ := (freeRun_iff tiling larger.block).mpr largerRun
    rw [← isEntry]
    congr 1
    apply maximal.maximal larger.block bounded run
    intro page covered
    rw [← Entry.ofBlock_holds_iff] at covered ⊢
    exact contains page covered
  · intro maximal
    obtain ⟨bounded, run⟩ := (freeRun_iff tiling block).mpr maximal.run
    refine ⟨bounded, run, ?_⟩
    intro larger largerBounded largerRun contains
    have same : Entry.ofBlock larger = Entry.ofBlock block := by
      apply maximal.maximal
      · exact (freeRun_iff tiling larger).mp ⟨largerBounded, largerRun⟩
      · intro page holds
        rw [Entry.ofBlock_holds_iff] at holds ⊢
        exact contains page holds
    rw [← larger.around_head, ← block.around_head]
    exact congrArg Entry.block same

theorem freeBlocks_maximal {z : Zone frames} {free : List DyadicBlock}
    {allocated : Finset Entry}
    (consistent : Consistent z free (allocated : Set Entry)) (entry : Entry) :
    entry ∈ z.freeBlocks ↔ MaximalFreeEntry frames allocated entry := by
  rw [mem_freeBlocks_iff consistent.represents consistent.valid]
  constructor
  · rintro ⟨block, member, rfl⟩
    rw [← maximalRun_iff consistent.tiling]
    exact (consistent.valid.coalesced.mem_iff_maximalRun block).mp member
  · intro maximal
    have isEntry := Entry.ofBlock_block maximal.run.aligned
    rw [← isEntry, ← maximalRun_iff consistent.tiling] at maximal
    exact ⟨entry.block,
      (consistent.valid.coalesced.mem_iff_maximalRun entry.block).mpr maximal,
      isEntry⟩

/-- Two consistent zones with the same allocated blocks have the same free
blocks. -/
theorem freeBlocks_eq {left right : Zone frames}
    {leftFree rightFree : List DyadicBlock} {allocated : Finset Entry}
    (leftConsistent : Consistent left leftFree (allocated : Set Entry))
    (rightConsistent : Consistent right rightFree (allocated : Set Entry)) :
    left.freeBlocks = right.freeBlocks := by
  ext entry
  rw [freeBlocks_maximal leftConsistent, freeBlocks_maximal rightConsistent]

/-- No listed block of an order below the top has a listed buddy. -/
theorem no_free_buddies {z : Zone frames} {free : List DyadicBlock}
    (represents : Represents z free) (valid : FreeList frames free)
    {entry : Entry} (listed : entry ∈ z.freeBlocks)
    (below : entry.2 < topOrder) :
    (entry.1 ^^^ 2 ^ entry.2, entry.2) ∉ z.freeBlocks := by
  rw [mem_freeBlocks_iff represents valid] at listed ⊢
  obtain ⟨block, member, rfl⟩ := listed
  rintro ⟨other, otherMember, isBuddy⟩
  have head : other.head = block.head ^^^ 2 ^ block.order :=
    congrArg Prod.fst isBuddy
  have orderEq : other.order = block.order := congrArg Prod.snd isBuddy
  rw [block.head_xor] at head
  have same : other = block.buddy := DyadicBlock.eq_of_head orderEq head
  rw [same] at otherMember
  exact valid.coalesced.no_buddies block member below otherMember

/-- Reachable free lists are fully merged and depend on the allocated blocks
only. -/
theorem buddy_coalescing (frames : Nat) {s : BuddyState frames}
    (run : (buddyMachine frames).Reaches (bootState frames) s) :
    (∀ entry, entry ∈ s.zone.freeBlocks → entry.2 < topOrder →
      (entry.1 ^^^ 2 ^ entry.2, entry.2) ∉ s.zone.freeBlocks) ∧
    (∀ entry, entry ∈ s.zone.freeBlocks ↔
      MaximalFreeEntry frames s.allocated entry) ∧
    (∀ t, (buddyMachine frames).Reaches (bootState frames) t →
      t.allocated = s.allocated → t.zone.freeBlocks = s.zone.freeBlocks) ∧
    (s.allocated = ∅ →
      s.zone.freeBlocks = (bootZone frames).freeBlocks) := by
  obtain ⟨free, consistent⟩ := reaches_invariant run
  refine ⟨?_, freeBlocks_maximal consistent, ?_, ?_⟩
  · intro entry listed below
    exact no_free_buddies consistent.represents consistent.valid listed below
  · intro t otherRun sameLedger
    obtain ⟨otherFree, otherConsistent⟩ := reaches_invariant otherRun
    rw [sameLedger] at otherConsistent
    exact freeBlocks_eq otherConsistent consistent
  · intro nothing
    obtain ⟨bootFree, bootConsistent⟩ := bootState_invariant frames
    rw [nothing] at consistent
    exact freeBlocks_eq consistent bootConsistent

theorem buddy_coalescing_five :
    ∃ s t : BuddyState 5, s.allocated = {(0, 1)} ∧
      buddyStep s (.free 0 1) = some t ∧
      t.zone.freeBlocks = (bootZone 5).freeBlocks := by
  have answer :
      ((buddyStep (bootState 5) (.alloc 1)).bind fun s =>
        (buddyStep s (.free 0 1)).map fun t => (s.allocated, t.allocated)) =
        some ({(0, 1)}, ∅) := by
    decide +kernel
  obtain ⟨s, allocRun, rest⟩ := Option.bind_eq_some_iff.mp answer
  obtain ⟨t, freeRun, ledgers⟩ := Option.map_eq_some_iff.mp rest
  have ledger : s.allocated = {(0, 1)} := congrArg Prod.fst ledgers
  have nothing : t.allocated = ∅ := congrArg Prod.snd ledgers
  have first : (buddyMachine 5).Reaches (bootState 5) s :=
    @Machine.Reaches.step _ _ _ _ _ _ (.alloc 1) Machine.Reaches.start
      trivial allocRun
  have held : (buddyMachine 5).legal s (.free 0 1) := by
    change (0, 1) ∈ s.allocated
    simp [ledger]
  have run : (buddyMachine 5).Reaches (bootState 5) t :=
    first.step held freeRun
  exact ⟨s, t, ledger, freeRun, (buddy_coalescing 5 run).2.2.2 nothing⟩

end Hlos.Mm
