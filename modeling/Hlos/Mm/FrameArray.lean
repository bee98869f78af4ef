import Hlos.Mm.Coalescing
import Hlos.Mm.Pmm

/-!
# The buddy probe stays in the frame array

`init_pmm` zeroes one frame structure more than it manages, and the page
allocator reads at most that one behind the managed structures.
-/

namespace Hlos.Mm

open Hlos.Lib Hlos.Include

variable {frames : Nat}

/-- The structure behind the managed ones is no head of a free block. -/
theorem Represents.last_not_buddy {z : Zone frames}
    {free : List DyadicBlock} (represents : Represents z free)
    (valid : FreeList frames free) :
    PageBuddy frames z = some false := by
  have absent : ∀ block, block ∈ free → block.head ≠ frames := by
    intro block member
    have bound := valid.head_lt member
    omega
  have unmarked :=
    (represents.unmarked frames (Nat.le_refl _) absent).1
  have read : readPage frames z = some (z.pages frames) :=
    if_pos (Nat.le_refl _)
  have value : ((z.pages frames).mapcount == pageBuddyMapcountValue) = false :=
    beq_false_of_ne unmarked
  rw [PageBuddy, read]
  change some ((z.pages frames).mapcount == pageBuddyMapcountValue) = _
  rw [value]

/-- Listed blocks end inside the managed frames. -/
theorem freeBlocks_inside {z : Zone frames} {free : List DyadicBlock}
    (represents : Represents z free) (valid : FreeList frames free)
    {entry : Entry} (listed : entry ∈ z.freeBlocks) :
    entry.1 + 2 ^ entry.2 ≤ frames := by
  obtain ⟨block, member, isEntry⟩ :=
    (mem_freeBlocks_iff represents valid entry).mp listed
  rw [← isEntry]
  exact valid.inside block member

/-- For the page count that `init_pmm` computes, every call has a result,
although frame structures above index `N` cannot be read and those from index
`N` on cannot be written.  The structure with index `N` lies in the zeroed
array and never looks like a free buddy. -/
theorem buddy_probe_in_frame_array (kern_end max_phy_addr : Word)
    (some_frame :
      0 < framesAbove max_phy_addr (layout kern_end max_phy_addr).phy_pages)
    {s : BuddyState (layout kern_end max_phy_addr).phy_page_count.toNat}
    (run : (buddyMachine _).Reaches (bootState _) s) :
    let N := (layout kern_end max_phy_addr).phy_page_count.toNat
    (∀ page, N < page → readPage page s.zone = none) ∧
    (∀ page change, N ≤ page → writePage page change s.zone = none) ∧
    (∀ op, (buddyMachine N).legal s op →
      ∃ s', (buddyMachine N).step s op = some s') ∧
    PageBuddy N s.zone = some false ∧
    (∀ entry, entry ∈ s.zone.freeBlocks → entry.1 + 2 ^ entry.2 ≤ N) ∧
    20 * (N + 1) ≤ (layout kern_end max_phy_addr).pfn_pages.toNat * 4096 := by
  intro N
  obtain ⟨free, consistent⟩ := reaches_invariant run
  refine ⟨?_, ?_, ?_, ?_, ?_, frame_array_room kern_end max_phy_addr some_frame⟩
  · intro page above
    exact if_neg (Nat.not_le_of_lt above)
  · intro page change above
    exact if_neg (Nat.not_lt_of_le above)
  · intro op legal
    exact (buddyMachine_keeps N).progress (bootState_invariant N) run legal
  · exact consistent.represents.last_not_buddy consistent.valid
  · intro entry listed
    exact freeBlocks_inside consistent.represents consistent.valid listed

theorem buddy_probe_in_frame_array_six :
    let N := (layout 0x110000 0x119000).phy_page_count.toNat
    N = 6 ∧ PageBuddy N (bootState N).zone = some false ∧
      ∃ s', (buddyMachine N).step (bootState N) (.alloc 1) = some s' := by
  intro N
  obtain ⟨_, _, progress, notBuddy, _⟩ :=
    buddy_probe_in_frame_array 0x110000 0x119000 (by decide)
      Machine.Reaches.start
  exact ⟨by decide, notBuddy, progress (.alloc 1) trivial⟩

end Hlos.Mm
