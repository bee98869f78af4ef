import Hlos.Lib.Extents
import Hlos.Mm.Pmm

/-!
# The regions that `init_pmm` lays out

From the link address of the kernel up to the end of memory: the kernel image,
the page directory, the page tables, the frame array and the managed frames.
The size of the frame array depends on the number of frames, and the array is
then taken off that number.
-/

set_option linter.style.nameCheck false

namespace Hlos.Mm

open Hlos.Lib Hlos.Include

/-- The physical address that `kernel.ld` links the kernel at. -/
def kernLinked : Nat := 0x100000

/-- The regions of physical memory, each with the bytes that `init_pmm` counts
for it. -/
def regions (kern_end : Word) (l : Layout) : List Extent :=
  [⟨kernLinked, (PFN_ALIGN kern_end).toNat - kernLinked⟩,
    ⟨(__pa l.kern_pgd).toNat, 4096⟩,
    ⟨(__pa l.kern_pte).toNat, l.pte_pages.toNat * 4096⟩,
    ⟨(__pa l.phy_pages).toNat, l.pfn_pages.toNat * 4096⟩,
    ⟨l.min_phy_addr.toNat, l.phy_page_count.toNat * 4096⟩]

/-- Every subtraction of `init_pmm` takes at most what is there: those of the
two `PFN_UP`, that of `__pa`, and the two that compute `phy_page_count`. -/
structure NoUnderflow (l : Layout) : Prop where
  memoryPages : 1 ≤ l.max_phy_addr + PAGE_SIZE
  arrayPages :
    1 ≤ framesAbove l.max_phy_addr l.phy_pages * pageStructSize + PAGE_SIZE
  kernelAddress : KERNBASE ≤ l.phy_pages
  tables : __pa l.phy_pages ≤ l.max_phy_addr
  array : l.pfn_pages ≤ framesAbove l.max_phy_addr l.phy_pages

/-- What the layout promises to the frame allocator and to the page tables. -/
structure PlacedInOrder (kern_end : Word) (l : Layout) : Prop where
  subtractions : NoUnderflow l
  image : kern_end ≤ PFN_ALIGN kern_end
  consecutive :
    Extent.Consecutive (regions kern_end l) kernLinked l.max_phy_addr.toNat
  aligned : ∀ region, region ∈ regions kern_end l → region.Aligned 4096
  disjoint : (regions kern_end l).Pairwise Extent.Disjoint
  covered : ∀ pfn, pfn * 4096 < l.max_phy_addr.toNat →
    pfn < l.pte_pages.toNat * 1024
  room : pageStructSize.toNat * l.phy_page_count.toNat ≤
    l.pfn_pages.toNat * 4096
  behindArray : l.min_phy_addr.toNat =
    (__pa l.phy_pages).toNat + l.pfn_pages.toNat * 4096
  whole : l.min_phy_addr.toNat + 4096 * l.phy_page_count.toNat =
    l.max_phy_addr.toNat

section Placement

variable {kern_end max_phy_addr : Word}

/-- The frames above the page tables pay for the array of their structures:
one frame more than the array needs is left. -/
theorem frames_above_tables (linked : 0x100000 ≤ kern_end.toNat)
    (aligned : max_phy_addr.toNat % 4096 = 0)
    (top : max_phy_addr.toNat ≤ 0x40000000)
    (above : tablesEnd kern_end max_phy_addr < max_phy_addr.toNat) :
    (framesAbove max_phy_addr
        (layout kern_end max_phy_addr).phy_pages).toNat * 4096 =
      max_phy_addr.toNat - tablesEnd kern_end max_phy_addr := by
  have spec := layout_spec_of_end linked (by omega)
    ⟨aligned, Nat.le_of_lt above⟩
  have pages := spec.phy_pages
  have tablesAligned := tablesEnd_mod kern_end max_phy_addr
  rw [framesAbove, BitVec.toNat_ushiftRight, Nat.shiftRight_eq_div_pow,
    BitVec.toNat_sub, __pa_toNat (by omega), pages]
  change (2 ^ 32 - _ + max_phy_addr.toNat) % 2 ^ 32 / 4096 * 4096 = _
  omega

theorem structBytes_toNat {count : Word} (small : count.toNat < 2 ^ 20) :
    (count * pageStructSize).toNat = count.toNat * 20 := by
  have structSize : pageStructSize.toNat = 20 := by decide
  rw [BitVec.toNat_mul, structSize, Nat.mod_eq_of_lt (by omega)]

theorem layout_no_underflow (linked : 0x100000 ≤ kern_end.toNat)
    (aligned : max_phy_addr.toNat % 4096 = 0)
    (top : max_phy_addr.toNat ≤ 0x40000000)
    (above : tablesEnd kern_end max_phy_addr < max_phy_addr.toNat) :
    NoUnderflow (layout kern_end max_phy_addr) := by
  have spec := layout_spec_of_end linked (by omega)
    ⟨aligned, Nat.le_of_lt above⟩
  have pages := spec.phy_pages
  have frames := frames_above_tables linked aligned top above
  have tablesAligned := tablesEnd_mod kern_end max_phy_addr
  obtain ⟨small, arraySize, _⟩ := frame_array_size kern_end max_phy_addr
  have base : KERNBASE.toNat = 0xC0000000 := by decide
  have one : (1 : Word).toNat = 1 := by decide
  constructor
  · change 1 ≤ max_phy_addr + PAGE_SIZE
    rw [BitVec.le_def, BitVec.toNat_add, one, PAGE_SIZE_toNat]
    omega
  · change 1 ≤ framesAbove max_phy_addr
      (layout kern_end max_phy_addr).phy_pages * pageStructSize + PAGE_SIZE
    rw [BitVec.le_def, BitVec.toNat_add, structBytes_toNat small, one,
      PAGE_SIZE_toNat, Nat.mod_eq_of_lt (by omega)]
    exact Nat.le_add_left 1 _
  · rw [BitVec.le_def, base, pages]
    omega
  · change __pa (layout kern_end max_phy_addr).phy_pages ≤ max_phy_addr
    rw [BitVec.le_def, __pa_toNat (by omega), pages]
    omega
  · change (layout kern_end max_phy_addr).pfn_pages ≤
      framesAbove max_phy_addr (layout kern_end max_phy_addr).phy_pages
    rw [BitVec.le_def, arraySize]
    omega

theorem regions_consecutive (linked : 0x100000 ≤ kern_end.toNat)
    (aligned : max_phy_addr.toNat % 4096 = 0)
    (top : max_phy_addr.toNat ≤ 0x40000000)
    (above : tablesEnd kern_end max_phy_addr < max_phy_addr.toNat) :
    Extent.Consecutive (regions kern_end (layout kern_end max_phy_addr))
        kernLinked max_phy_addr.toNat ∧
      ∀ region, region ∈ regions kern_end (layout kern_end max_phy_addr) →
        region.Aligned 4096 := by
  have tablesLow : tablesEnd kern_end max_phy_addr < 0x40000000 := by omega
  have spec := layout_spec_of_end linked tablesLow
    ⟨aligned, Nat.le_of_lt above⟩
  have imageMod := imageEnd_mod kern_end
  have tablesMod := tablesEnd_mod kern_end max_phy_addr
  have endEq : tablesEnd kern_end max_phy_addr =
      imageEnd kern_end + 4096 + tableCount max_phy_addr * 4096 := rfl
  have reached : kern_end.toNat ≤ imageEnd kern_end := by
    unfold imageEnd
    omega
  have image : (PFN_ALIGN kern_end).toNat = imageEnd kern_end := by
    rw [PFN_ALIGN_toNat (by omega)]
    rfl
  have pgd := spec.kern_pgd
  have pte := spec.kern_pte
  have tables := spec.pte_pages
  have pages := spec.phy_pages
  have min := spec.min_phy_addr
  have managed := spec.managed
  rw [regions, image, __pa_toNat (by omega), __pa_toNat (by omega),
    __pa_toNat (by omega), pgd, pte, tables, pages]
  constructor
  · refine ⟨rfl, ?_, ?_, ?_, ?_, ?_⟩
    all_goals
      simp only [Extent.Consecutive, Extent.stop, kernLinked]
      omega
  · intro region member
    simp only [List.mem_cons, List.not_mem_nil, or_false] at member
    have linkedUnits : kernLinked = 4096 * 256 := rfl
    rcases member with rfl | rfl | rfl | rfl | rfl
    all_goals
      apply Extent.aligned_mk
      all_goals omega

/-- The layout of `init_pmm`, for every kernel that ends in the first GiB and
every size of memory up to that GiB which leaves room for the page tables. -/
theorem init_pmm_layout (linked : 0x100000 ≤ kern_end.toNat)
    (aligned : max_phy_addr.toNat % 4096 = 0)
    (top : max_phy_addr.toNat ≤ 0x40000000)
    (above : tablesEnd kern_end max_phy_addr < max_phy_addr.toNat) :
    PlacedInOrder kern_end (layout kern_end max_phy_addr) := by
  have tablesLow : tablesEnd kern_end max_phy_addr < 0x40000000 := by omega
  have spec := layout_spec_of_end linked tablesLow
    ⟨aligned, Nat.le_of_lt above⟩
  have frames := frames_above_tables linked aligned top above
  obtain ⟨consecutive, unitAligned⟩ :=
    regions_consecutive linked aligned top above
  have pages := spec.phy_pages
  have managed := spec.managed
  have endEq : tablesEnd kern_end max_phy_addr =
      imageEnd kern_end + 4096 + tableCount max_phy_addr * 4096 := rfl
  have reached : kern_end.toNat ≤ imageEnd kern_end := by
    unfold imageEnd
    omega
  constructor
  · exact layout_no_underflow linked aligned top above
  · rw [BitVec.le_def, PFN_ALIGN_toNat (by omega)]
    exact reached
  · exact consecutive
  · exact unitAligned
  · exact consecutive.pairwise_disjoint
  · intro pfn below
    rw [spec.pte_pages]
    change pfn * 4096 < max_phy_addr.toNat at below
    unfold tableCount
    omega
  · have someFrame : 0 < framesAbove max_phy_addr
        (layout kern_end max_phy_addr).phy_pages := by
      rw [BitVec.lt_def]
      have zero : (0 : Word).toNat = 0 := by decide
      have tablesMod := tablesEnd_mod kern_end max_phy_addr
      omega
    have room := frame_array_room kern_end max_phy_addr someFrame
    have structSize : pageStructSize.toNat = 20 := by decide
    rw [structSize]
    omega
  · rw [spec.min_phy_addr, __pa_toNat (by omega), pages]
    omega
  · change _ = max_phy_addr.toNat
    omega

end Placement

/-- A kernel of 64 KiB in 128 MiB of memory. -/
theorem init_pmm_layout_128MiB :
    PlacedInOrder 0x110000 (layout 0x110000 0x8000000) :=
  init_pmm_layout (by decide) (by decide) (by decide) (by decide)

end Hlos.Mm
