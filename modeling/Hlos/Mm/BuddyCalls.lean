import Hlos.Mm.Coalescing

/-!
# Single calls of the page allocator

What one call of `alloc_pages` finds, and what `free_pages` undoes, in any
reachable state.  The search of the allocator looks at list heads only; since
reachable free lists are fully merged, it misses no run of free pages.
-/

namespace Hlos.Mm

open Hlos.Lib Hlos.Include

variable {frames : Nat}

/-- The page belongs to a listed block. -/
def Zone.PageFree (z : Zone frames) (page : Nat) : Prop :=
  ∃ entry, entry ∈ z.freeBlocks ∧ entry.Holds page

/-- An aligned run of free pages inside the managed frames. -/
structure Zone.FreeRunAt (z : Zone frames) (entry : Entry) : Prop where
  aligned : 2 ^ entry.2 ∣ entry.1
  inside : entry.1 + 2 ^ entry.2 ≤ frames
  free : ∀ page, entry.Holds page → z.PageFree page

/-- The block is listed, and no listed block of a smaller order is large
enough. -/
structure Zone.SmallestListed (z : Zone frames) (order : Nat)
    (block : Entry) : Prop where
  listed : block ∈ z.freeBlocks
  enough : order ≤ block.2
  least : ∀ other, other ∈ z.freeBlocks → order ≤ other.2 → block.2 ≤ other.2

/-- A call of `alloc_pages` that hands out the run. -/
structure HandsOut (z z' : Zone frames) (entry : Entry) : Prop where
  run : z.FreeRunAt entry
  source : ∃ block, z.SmallestListed entry.2 block ∧
    ∀ page, entry.Holds page → block.Holds page
  count : (z'.fields entry.1).count = 1
  free : ∀ page, z'.PageFree page ↔ z.PageFree page ∧ ¬ entry.Holds page

section Represented

variable {z : Zone frames} {free : List DyadicBlock}

theorem pageFree_iff (represents : Represents z free)
    (valid : FreeList frames free) (page : Nat) :
    z.PageFree page ↔ page ∈ freePositions free :=
  (mem_freePositions_freeBlocks represents valid page).symm

/-- Free pages are the managed pages that nobody holds. -/
theorem pageFree_iff_unheld {allocated : Finset Entry}
    (consistent : Consistent z free (allocated : Set Entry)) (page : Nat) :
    z.PageFree page ↔ FreePage frames allocated page := by
  rw [pageFree_iff consistent.represents consistent.valid]
  exact consistent.tiling.mem_freePositions_iff page

theorem FreeList.lt_of_mem_freePositions (valid : FreeList frames free)
    {page : Nat} (isFree : page ∈ freePositions free) : page < frames := by
  obtain ⟨block, member, covered⟩ := isFree
  have inside := valid.inside block member
  have bounds := (block.covers_iff page).mp covered
  omega

theorem freeRunAt_iff (represents : Represents z free)
    (valid : FreeList frames free) (block : DyadicBlock) :
    z.FreeRunAt (Entry.ofBlock block) ↔
      FreeRun (freePositions free) block := by
  constructor
  · intro run page covered
    rw [← pageFree_iff represents valid]
    exact run.free page ((Entry.ofBlock_holds_iff block page).mpr covered)
  · intro run
    refine ⟨Entry.ofBlock_aligned block, ?_, ?_⟩
    · have positive := block.size_pos
      have last : block.Covers (block.head + block.size - 1) := by
        rw [DyadicBlock.covers_iff]
        omega
      have bound := valid.lt_of_mem_freePositions (run _ last)
      change block.head + block.size ≤ frames
      omega
    · intro page holds
      rw [pageFree_iff represents valid]
      exact run page ((Entry.ofBlock_holds_iff block page).mp holds)

theorem exists_freeRunAt_iff (represents : Represents z free)
    (valid : FreeList frames free) (order : Nat) :
    (∃ head, z.FreeRunAt (head, order)) ↔
      ∃ run : DyadicBlock, run.order = order ∧
        FreeRun (freePositions free) run := by
  constructor
  · intro exists_
    obtain ⟨head, run⟩ := exists_
    have isEntry : Entry.ofBlock (Entry.block (head, order)) = (head, order) :=
      Entry.ofBlock_block run.aligned
    rw [← isEntry, freeRunAt_iff represents valid] at run
    exact ⟨Entry.block (head, order), rfl, run⟩
  · intro exists_
    obtain ⟨run, rfl, isFree⟩ := exists_
    exact ⟨run.head, (freeRunAt_iff represents valid run).mpr isFree⟩

theorem smallestListed_ofBlock (represents : Represents z free)
    (valid : FreeList frames free) {order : Nat} {source : DyadicBlock}
    (smallest : Smallest free order source) :
    z.SmallestListed order (Entry.ofBlock source) := by
  have listed := mem_freeBlocks_iff represents valid
  refine ⟨(listed _).mpr ⟨source, smallest.mem, rfl⟩, smallest.enough, ?_⟩
  intro other isListed enough
  obtain ⟨block, member, isOther⟩ := (listed other).mp isListed
  rw [← isOther] at enough ⊢
  exact smallest.least block member enough

/-- What `alloc_pages` delivers when the abstract search succeeds. -/
theorem handsOut_of_allocate {z' : Zone frames} {rest : List DyadicBlock}
    {order : Nat} {block : DyadicBlock} (represents : Represents z free)
    (valid : FreeList frames free)
    (allocated : allocate free order = some (rest, block))
    (represents' : Represents z' rest)
    (count : (z'.fields block.head).count = 1) :
    HandsOut z z' (block.head, order) := by
  have delivered := allocate_spec valid allocated
  obtain ⟨source, smallest, _, contained⟩ := allocate_source valid allocated
  have isEntry : (block.head, order) = Entry.ofBlock block := by
    rw [Entry.ofBlock, delivered.order_eq]
  rw [isEntry]
  refine ⟨?_, ?_, count, ?_⟩
  · rw [freeRunAt_iff represents valid]
    intro page covered
    exact (delivered.positions page).mpr (Or.inr covered)
  · refine ⟨Entry.ofBlock source, ?_, ?_⟩
    · change z.SmallestListed block.order (Entry.ofBlock source)
      rw [delivered.order_eq]
      exact smallestListed_ofBlock represents valid smallest
    · intro page holds
      rw [Entry.ofBlock_holds_iff] at holds ⊢
      exact contained page holds
  · intro page
    rw [pageFree_iff represents' delivered.valid,
      pageFree_iff represents valid, delivered.positions,
      Entry.ofBlock_holds_iff]
    have taken := delivered.taken page
    tauto

/-- The search of `alloc_pages` finds a block exactly when a run of the order
is free. -/
theorem allocPages_complete (represents : Represents z free)
    (valid : FreeList frames free) (order : Nat) :
    (allocPages order z = some (none, z) ↔
      10 < order ∨ ¬ ∃ head, z.FreeRunAt (head, order)) ∧
    (¬ (10 < order ∨ ¬ ∃ head, z.FreeRunAt (head, order)) →
      ∃ head z', allocPages order z = some (some head, z') ∧
        HandsOut z z' (head, order)) := by
  have spec := allocPages_spec represents valid order
  have absent := allocate_eq_none_iff valid order
  rw [exists_freeRunAt_iff represents valid]
  change allocate free order = none ↔ 10 < order ∨ _ at absent
  rw [← absent]
  cases result : allocate free order with
  | none =>
      rw [result] at spec
      exact ⟨⟨fun _ => rfl, fun _ => spec⟩, fun present => absurd rfl present⟩
  | some delivered =>
      obtain ⟨rest, block⟩ := delivered
      rw [result] at spec
      obtain ⟨z', run, represents', counts⟩ := spec
      have count : (z'.fields block.head).count = 1 := by
        rw [counts, if_pos rfl]
      constructor
      · rw [run]
        constructor <;> intro impossible <;> cases impossible
      · intro _
        exact ⟨block.head, z', run,
          handsOut_of_allocate represents valid result represents' count⟩

end Represented

/-- `alloc_pages` is complete: it fails only when no run of the order is free,
and otherwise hands out a run from the smallest block that contains one.  The
free pages are the managed ones that nobody holds. -/
theorem alloc_pages_complete (frames : Nat) {s : BuddyState frames}
    (reached : (buddyMachine frames).Reaches (bootState frames) s)
    (order : Nat) :
    (∀ page, s.zone.PageFree page ↔ FreePage frames s.allocated page) ∧
    (allocPages order s.zone = some (none, s.zone) ↔
      10 < order ∨ ¬ ∃ head, s.zone.FreeRunAt (head, order)) ∧
    (¬ (10 < order ∨ ¬ ∃ head, s.zone.FreeRunAt (head, order)) →
      ∃ head z', allocPages order s.zone = some (some head, z') ∧
        HandsOut s.zone z' (head, order)) := by
  obtain ⟨free, consistent⟩ := reaches_invariant reached
  exact ⟨pageFree_iff_unheld consistent,
    allocPages_complete consistent.represents consistent.valid order⟩

theorem alloc_pages_complete_five :
    ∃ s : BuddyState 5, s.allocated = {(0, 1)} ∧
      allocPages 2 s.zone = some (none, s.zone) ∧
      ∃ head z', allocPages 1 s.zone = some (some head, z') ∧
        HandsOut s.zone z' (head, 1) := by
  have answer :
      ((buddyStep (bootState 5) (.alloc 1)).bind fun s =>
        (allocPages 2 s.zone).bind fun large =>
          (allocPages 1 s.zone).map fun small =>
            (s.allocated, large.1, small.1)) =
        some ({(0, 1)}, none, some 2) := by
    decide +kernel
  obtain ⟨s, allocRun, rest⟩ := Option.bind_eq_some_iff.mp answer
  obtain ⟨large, largeRun, rest⟩ := Option.bind_eq_some_iff.mp rest
  obtain ⟨small, smallRun, results⟩ := Option.map_eq_some_iff.mp rest
  have ledger : s.allocated = {(0, 1)} := congrArg Prod.fst results
  have largeNull : large.1 = none :=
    congrArg (fun triple => triple.2.1) results
  have smallPage : small.1 = some 2 :=
    congrArg (fun triple => triple.2.2) results
  have run : (buddyMachine 5).Reaches (bootState 5) s :=
    @Machine.Reaches.step _ _ _ _ _ _ (.alloc 1) Machine.Reaches.start
      trivial allocRun
  obtain ⟨_, largeFails, largeSucceeds⟩ := alloc_pages_complete 5 run 2
  obtain ⟨_, smallFails, smallSucceeds⟩ := alloc_pages_complete 5 run 1
  refine ⟨s, ledger, ?_, smallSucceeds fun fails => ?_⟩
  · by_contra succeeds
    obtain ⟨head, z', delivered, _⟩ :=
      largeSucceeds fun fails => succeeds (largeFails.mpr fails)
    rw [delivered] at largeRun
    rw [← Option.some.inj largeRun] at largeNull
    cases largeNull
  · have failed := smallFails.mpr fails
    rw [failed] at smallRun
    rw [← Option.some.inj smallRun] at smallPage
    cases smallPage

/-! ## Allocating and freeing again -/

/-- The lists with the order of their elements, the counters, the marks and
the private fields are the same. -/
structure SameFreeLists (z z' : Zone frames) : Prop where
  ring : ∀ order, order < MAX_ORDER → ∃ items,
    (zoneRegion frames).RingAt z (.area order) items ∧
      (zoneRegion frames).RingAt z' (.area order) items
  nr_free : ∀ order, order < MAX_ORDER → z'.nrFree order = z.nrFree order
  mark : ∀ page, PageBuddy page z' = PageBuddy page z
  priv : ∀ page, page ≤ frames → (z'.fields page).priv = (z.fields page).priv

/-- Lists that agree order by order are represented by the same lists. -/
theorem Represents.sameFreeLists {z z' : Zone frames}
    {free free' : List DyadicBlock} (represents : Represents z free)
    (represents' : Represents z' free')
    (same : ∀ order, ofOrder free' order = ofOrder free order) :
    SameFreeLists z z' := by
  have members : ∀ block, block ∈ free' ↔ block ∈ free := by
    intro block
    have inOrder :
        block ∈ ofOrder free' block.order ↔ block ∈ ofOrder free block.order := by
      rw [same]
    simpa [mem_ofOrder] using inOrder
  have fields : ∀ page, page ≤ frames →
      ((z'.fields page).mapcount == pageBuddyMapcountValue) =
          ((z.fields page).mapcount == pageBuddyMapcountValue) ∧
        (z'.fields page).priv = (z.fields page).priv := by
    intro page bound
    by_cases headFree : ∃ block, block ∈ free ∧ block.head = page
    · obtain ⟨block, member, rfl⟩ := headFree
      have before := represents.marked block member
      have after := represents'.marked block ((members block).mpr member)
      rw [after.1, after.2, before.1, before.2]
      exact ⟨rfl, rfl⟩
    · have absent : ∀ block, block ∈ free → block.head ≠ page :=
        fun block member sameHead => headFree ⟨block, member, sameHead⟩
      have before := represents.unmarked page bound absent
      have after := represents'.unmarked page bound
        (fun block member => absent block ((members block).mp member))
      rw [after.2, before.2, beq_eq_false_iff_ne.mpr after.1,
        beq_eq_false_iff_ne.mpr before.1]
      exact ⟨rfl, rfl⟩
  constructor
  · intro order bound
    refine ⟨pageNodes free order, represents.rings order bound, ?_⟩
    have ring := represents'.rings order bound
    rw [pageNodes, same] at ring
    exact ring
  · intro order bound
    rw [represents'.nr_free order bound, represents.nr_free order bound, same]
  · intro page
    by_cases bound : page ≤ frames
    · have mark := (fields page bound).1
      simp only [PageBuddy, readPage, if_pos bound]
      exact congrArg some mark
    · simp only [PageBuddy, readPage, if_neg bound]
  · intro page bound
    exact (fields page bound).2

/-- The first block of an order comes back to the front of its list. -/
theorem ofOrder_cons_erase {free : List DyadicBlock} (nodup : free.Nodup)
    {block : DyadicBlock}
    (first : free.find? (fun other => other.order = block.order) = some block)
    (order : Nat) :
    ofOrder (block :: free.erase block) order = ofOrder free order := by
  by_cases same : block.order = order
  · subst order
    have head : (ofOrder free block.order).head? = some block := by
      rw [ofOrder, List.head?_filter]
      exact first
    obtain ⟨after, shape⟩ := List.head?_eq_some_iff.mp head
    rw [ofOrder_cons, ofOrder_erase nodup, shape, List.erase_cons_head]
  · rw [ofOrder_cons_of_ne same, ofOrder_erase_of_ne nodup same]

/-- Freeing a block right after its allocation restores the zone. -/
theorem alloc_free_identity (frames : Nat) {s : BuddyState frames}
    (reached : (buddyMachine frames).Reaches (bootState frames) s)
    {order page : Nat} {z : Zone frames}
    (handed : allocPages order s.zone = some (some page, z)) :
    ∃ z', freePages page order z = some z' ∧ SameFreeLists s.zone z' := by
  obtain ⟨free, consistent⟩ := reaches_invariant reached
  have valid := consistent.valid
  have spec := allocPages_spec consistent.represents valid order
  cases result : allocate free order with
  | none =>
      rw [result] at spec
      rw [spec] at handed
      cases handed
  | some delivered =>
      obtain ⟨rest, block⟩ := delivered
      rw [result] at spec
      obtain ⟨z₁, run, represents₁, counts⟩ := spec
      rw [run] at handed
      obtain ⟨rfl, rfl⟩ : block.head = page ∧ z₁ = z := by
        simpa using handed
      have delivered := allocate_spec valid result
      have last : (z₁.fields block.head).count - 1 = 0 := by
        rw [counts, if_pos rfl]
        rfl
      obtain ⟨z', freeRun, represents', _⟩ :=
        freePages_release represents₁ delivered.valid delivered.taken
          delivered.inside delivered.bounded last
      obtain ⟨source, smallest, released⟩ := release_allocate valid result
      rw [released] at represents'
      rw [delivered.order_eq] at freeRun
      exact ⟨z', freeRun, consistent.represents.sameFreeLists represents'
        (ofOrder_cons_erase valid.nodup smallest.first)⟩

theorem alloc_free_identity_five :
    ∃ z z' : Zone 5, allocPages 1 (bootZone 5) = some (some 0, z) ∧
      freePages 0 1 z = some z' ∧ SameFreeLists (bootZone 5) z' := by
  have answer :
      (allocPages 1 (bootZone 5)).map (fun result => result.1) =
        some (some 0) := by
    decide +kernel
  obtain ⟨result, run, page⟩ := Option.map_eq_some_iff.mp answer
  obtain ⟨page', z⟩ := result
  have isZero : page' = some 0 := page
  rw [isZero] at run
  obtain ⟨z', freeRun, same⟩ :=
    alloc_free_identity 5 Machine.Reaches.start run
  exact ⟨z, z', run, freeRun, same⟩

end Hlos.Mm
