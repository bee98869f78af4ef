import Hlos.Lib.Extents
import Hlos.Mm.MapWalk

/-!
# Which frames are usable memory

The managed frames run from the frame array up to the end of one bank.  Nothing
checks what lies between, so that all of them are usable memory exactly when
the available regions form a chain there.
-/

namespace Hlos.Mm

open Hlos.Lib Hlos.Include

/-- The available regions. -/
def availableExtents (entries : List MmapEntry) : List Extent :=
  (entries.filter fun entry => entry.type = 1).map fun entry =>
    ⟨entry.base, entry.length⟩

theorem usable_iff {entries : List MmapEntry} {addr count : Nat} :
    Usable entries addr count ↔
      Extent.CoversUnit (availableExtents entries) count addr := by
  constructor
  · rintro ⟨entry, member, available, begins, ends⟩
    refine ⟨⟨entry.base, entry.length⟩, ?_, begins, ends⟩
    exact List.mem_map_of_mem (List.mem_filter.mpr ⟨member, by simpa⟩)
  · rintro ⟨extent, member, begins, ends⟩
    obtain ⟨entry, isEntry, rfl⟩ := List.mem_map.mp member
    obtain ⟨member, available⟩ := List.mem_filter.mp isEntry
    exact ⟨entry, member, by simpa using available, begins, ends⟩

/-! ## Where the frames lie -/

/-- The end of the managed frames.  A bank that ends below the page tables
makes the difference wrap around, and frames are counted up to 4 GiB and
further. -/
def framesEnd (kern_end bank_end : Word) : Nat :=
  if tablesEnd kern_end bank_end ≤ bank_end.toNat then bank_end.toNat
  else 2 ^ 32 + bank_end.toNat

/-- The pages that the structures of all frames behind the tables take. -/
def arrayPages (kern_end bank_end : Word) : Nat :=
  ((framesEnd kern_end bank_end - tablesEnd kern_end bank_end) / 4096 * 20 +
    4095) / 4096

/-- The first managed frame. -/
def framesStart (kern_end bank_end : Word) : Nat :=
  tablesEnd kern_end bank_end + 4096 * arrayPages kern_end bank_end

theorem layout_frames {kern_end bank_end : Word} (image : KernelImage kern_end)
    (aligned : bank_end.toNat % 4096 = 0) :
    (layout kern_end bank_end).min_phy_addr.toNat =
        framesStart kern_end bank_end ∧
      framesStart kern_end bank_end +
          4096 * (layout kern_end bank_end).phy_page_count.toNat =
        framesEnd kern_end bank_end := by
  have bound := bank_end.isLt
  have low := @tablesEnd_lt kern_end bank_end image
  have tables := tablesEnd_mod kern_end bank_end
  obtain ⟨_, physical⟩ := layout_phyPages image.linked (by omega) aligned
  obtain ⟨small, pages, count⟩ := frame_array_size kern_end bank_end
  have above : (framesAbove bank_end
      (layout kern_end bank_end).phy_pages).toNat =
        (framesEnd kern_end bank_end - tablesEnd kern_end bank_end) / 4096 := by
    rw [framesAbove, BitVec.toNat_ushiftRight, Nat.shiftRight_eq_div_pow,
      BitVec.toNat_sub, physical]
    change _ / 4096 = _
    unfold framesEnd
    split_ifs <;> omega
  have whole : (framesEnd kern_end bank_end - tablesEnd kern_end bank_end) /
      4096 * 4096 =
        framesEnd kern_end bank_end - tablesEnd kern_end bank_end := by
    unfold framesEnd
    split_ifs <;> omega
  have behind : tablesEnd kern_end bank_end ≤ framesEnd kern_end bank_end := by
    unfold framesEnd
    split_ifs <;> omega
  rw [above] at small pages count
  have array : (layout kern_end bank_end).pfn_pages.toNat =
      arrayPages kern_end bank_end := pages
  have min : (layout kern_end bank_end).min_phy_addr.toNat =
      framesStart kern_end bank_end := by
    change (__pa (layout kern_end bank_end).phy_pages +
      PFN_PHYS (layout kern_end bank_end).pfn_pages).toNat = _
    rw [BitVec.toNat_add, physical, PFN_PHYS_toNat (by omega), array,
      framesStart]
    unfold arrayPages at array ⊢
    omega
  refine ⟨min, ?_⟩
  rw [count, array, framesStart]
  unfold arrayPages
  omega

/-- The available regions lead from the first managed frame, page by page, to
the end of the bank. -/
def FramesChained (kern_end : Word) (entries read : List MmapEntry) : Prop :=
  Extent.Chain (availableExtents entries) 4096
    (framesEnd kern_end (bankEnd read)) (framesStart kern_end (bankEnd read))

theorem onlyUsableFrames_iff {kern_end bank_end : Word}
    {entries : List MmapEntry} (image : KernelImage kern_end)
    (aligned : bank_end.toNat % 4096 = 0) :
    OnlyUsableFrames entries (layout kern_end bank_end) ↔
      Extent.Chain (availableExtents entries) 4096
        (framesEnd kern_end bank_end) (framesStart kern_end bank_end) := by
  obtain ⟨first, last⟩ := layout_frames image aligned
  rw [Extent.chain_iff (by decide), OnlyUsableFrames]
  constructor
  · intro usable index below
    have isFrame := usable index (by omega)
    rw [usable_iff, frameAddress, first] at isFrame
    exact isFrame
  · intro covers pfn bound
    rw [usable_iff, frameAddress, first]
    exact covers pfn (by omega)

theorem plainMap_buffer :
    StridedBuffer (memoryOfMap 0x9000 plainMap) 0x9000 48 plainMap :=
  ⟨by
    change mmapEntryAt _ _ = _ ∧ mmapEntryAt _ _ = _ ∧ True
    decide +kernel, by decide, by decide, by decide⟩

/-- Two available regions with a reserved one between them. -/
def holedMap : List MmapEntry :=
  [⟨20, 0x100000, 0, 0xF00000, 0, 1⟩, ⟨20, 0x1000000, 0, 0x1000000, 0, 2⟩,
    ⟨20, 0x2000000, 0, 0x2000000, 0, 1⟩]

end Hlos.Mm
