import Hlos.Include.Page
import Hlos.Lib.ByteMemory

/-!
# `init_pmm`: the memory map and the layout

The loop over the multiboot memory map and the arithmetic that places the page
directory, the page tables, the frame array and the managed frames behind the
kernel image.  Physical memory is read byte by byte, all numbers are 32-bit
words.

`LayoutSpec` gives the values as natural numbers when nothing wraps around.
-/

set_option linter.style.nameCheck false

namespace Hlos.Mm

open Hlos.Lib Hlos.Include

/-- `mmap_entry_t`. -/
structure MmapEntry where
  size : Word
  base_addr_low : Word
  base_addr_high : Word
  length_low : Word
  length_high : Word
  type : Word
deriving DecidableEq, Repr

/-- `sizeof(mmap_entry_t)`. -/
def mmapEntrySize : Word := 24

def mmapEntryAt (mmap : Word) (m : Memory) : MmapEntry where
  size := m.load32 mmap.toNat
  base_addr_low := m.load32 (mmap + 4).toNat
  base_addr_high := m.load32 (mmap + 8).toNat
  length_low := m.load32 (mmap + 12).toNat
  length_high := m.load32 (mmap + 16).toNat
  type := m.load32 (mmap + 20).toNat

/-- The condition of the memory map loop: available memory above 1 MiB. -/
def Manageable (entry : MmapEntry) : Prop :=
  entry.type = 1 ∧ 0x100000 ≤ entry.base_addr_low

instance (entry : MmapEntry) : Decidable (Manageable entry) :=
  inferInstanceAs (Decidable (_ ∧ _))

/-- The body of the memory map loop. -/
def manageEntry (entry : MmapEntry) (max_phy_addr : Word) : Word :=
  if Manageable entry then
    (entry.base_addr_low + entry.length_low) &&& PAGE_MASK
  else max_phy_addr

/-- The memory map loop up to the address `stop`.  It has no result when
`fuel` turns are not enough. -/
def scanMemoryMap (stop : Word) (m : Memory) :
    (fuel : Nat) → (mmap max_phy_addr : Word) → Option Word
  | 0, mmap, max_phy_addr => if mmap < stop then none else some max_phy_addr
  | fuel + 1, mmap, max_phy_addr =>
      if mmap < stop then
        scanMemoryMap stop m fuel (mmap + mmapEntrySize)
          (manageEntry (mmapEntryAt mmap m) max_phy_addr)
      else
        some max_phy_addr

/-- `max_phy_addr` after the loop; it is zero before. -/
def maxPhyAddr (mmap_addr mmap_len : Word) (m : Memory) : Option Word :=
  scanMemoryMap (mmap_addr + mmap_len) m mmap_len.toNat mmap_addr 0

/-- `sizeof(struct page)`. -/
def pageStructSize : Word := 20

/-- The variables `init_pmm` computes. -/
structure Layout where
  max_phy_addr : Word
  kern_pgd : Word
  kern_pte : Word
  pte_pages : Word
  phy_pages : Word
  pfn_pages : Word
  phy_page_count : Word
  min_phy_addr : Word
deriving DecidableEq, Repr

/-- The number of page tables that `init_pmm` reserves. -/
def ptePages (max_phy_addr : Word) : Word :=
  (PFN_UP max_phy_addr + (PTE_SIZE - 1)) / PTE_SIZE

/-- The first value of `phy_page_count`: the frames above the page tables. -/
def framesAbove (max_phy_addr phy_pages : Word) : Word :=
  (max_phy_addr - __pa phy_pages) >>> PAGE_SHIFT

def layout (kern_end max_phy_addr : Word) : Layout :=
  let kern_pgd := __va (PFN_ALIGN kern_end)
  let kern_pte := kern_pgd + PAGE_SIZE
  let pte_pages := ptePages max_phy_addr
  let phy_pages := kern_pte + (pte_pages <<< PAGE_SHIFT)
  let phy_page_count := framesAbove max_phy_addr phy_pages
  let pfn_pages := PFN_UP (phy_page_count * pageStructSize)
  { max_phy_addr := max_phy_addr
    kern_pgd := kern_pgd
    kern_pte := kern_pte
    pte_pages := pte_pages
    phy_pages := phy_pages
    pfn_pages := pfn_pages
    phy_page_count := phy_page_count - pfn_pages
    min_phy_addr := __pa phy_pages + PFN_PHYS pfn_pages }

/-- `page_address(pfn_to_page(pfn))`. -/
def pageAddress (l : Layout) (pfn : Word) : Word :=
  __va (l.min_phy_addr + PFN_PHYS pfn)

/-- The physical address of a managed frame. -/
def frameAddress (l : Layout) (pfn : Nat) : Nat :=
  l.min_phy_addr.toNat + 4096 * pfn

/-! ## The frame array -/

/-- `pfn_pages` is the number of pages the frame structures fill, and the
subtraction of these pages does not underflow. -/
theorem frame_array_size (kern_end max_phy_addr : Word) :
    let l := layout kern_end max_phy_addr
    let above := (framesAbove max_phy_addr l.phy_pages).toNat
    above < 2 ^ 20 ∧ l.pfn_pages.toNat = (above * 20 + 4095) / 4096 ∧
      l.phy_page_count.toNat = above - l.pfn_pages.toNat := by
  intro l above
  have bound : above < 2 ^ 20 := by
    change ((max_phy_addr - __pa l.phy_pages) >>> PAGE_SHIFT).toNat < 2 ^ 20
    rw [BitVec.toNat_ushiftRight, Nat.shiftRight_eq_div_pow, PAGE_SHIFT]
    have small := (max_phy_addr - __pa l.phy_pages).isLt
    omega
  have bytes :
      (framesAbove max_phy_addr l.phy_pages * pageStructSize).toNat =
        above * 20 := by
    have twenty : pageStructSize.toNat = 20 := by decide
    rw [BitVec.toNat_mul, twenty]
    change above * 20 % 2 ^ 32 = above * 20
    omega
  have pages : l.pfn_pages.toNat = (above * 20 + 4095) / 4096 := by
    change (PFN_UP (framesAbove max_phy_addr l.phy_pages *
      pageStructSize)).toNat = _
    rw [PFN_UP_toNat (by omega), bytes]
  refine ⟨bound, pages, ?_⟩
  change (framesAbove max_phy_addr l.phy_pages - l.pfn_pages).toNat = _
  rw [BitVec.toNat_sub]
  change (2 ^ 32 - l.pfn_pages.toNat + above) % 2 ^ 32 =
    above - l.pfn_pages.toNat
  omega

/-- The zeroed frame array has room for one structure more than the managed
frames need. -/
theorem frame_array_room (kern_end max_phy_addr : Word)
    (some_frame :
      0 < framesAbove max_phy_addr (layout kern_end max_phy_addr).phy_pages) :
    20 * ((layout kern_end max_phy_addr).phy_page_count.toNat + 1) ≤
      (layout kern_end max_phy_addr).pfn_pages.toNat * 4096 := by
  obtain ⟨bound, pages, count⟩ := frame_array_size kern_end max_phy_addr
  have positive :
      0 < (framesAbove max_phy_addr
        (layout kern_end max_phy_addr).phy_pages).toNat :=
    BitVec.lt_def.mp some_frame
  have onePage : 0 < (layout kern_end max_phy_addr).pfn_pages.toNat := by
    rw [pages]
    exact Nat.div_pos (by omega) (by decide)
  rw [count]
  omega

/-! ## The layout without wrap-around -/

/-- The kernel is linked at 1 MiB and ends at least 16 MiB below the end of
the first GiB, which is what the kernel addresses can reach. -/
structure KernelImage (kern_end : Word) : Prop where
  linked : 0x100000 ≤ kern_end.toNat
  low : kern_end.toNat ≤ 0x3F000000

/-- The first page boundary behind the kernel image. -/
def imageEnd (kern_end : Word) : Nat := (kern_end.toNat + 4095) / 4096 * 4096

/-- The number of page tables that cover all memory. -/
def tableCount (max_phy_addr : Word) : Nat :=
  (max_phy_addr.toNat / 4096 + 1023) / 1024

/-- The first byte behind the page tables. -/
def tablesEnd (kern_end max_phy_addr : Word) : Nat :=
  imageEnd kern_end + 4096 + tableCount max_phy_addr * 4096

/-- Memory ends at a page boundary behind the page tables. -/
structure MemoryTop (kern_end max_phy_addr : Word) : Prop where
  aligned : max_phy_addr.toNat % 4096 = 0
  above : tablesEnd kern_end max_phy_addr ≤ max_phy_addr.toNat

theorem tablesEnd_lt {kern_end max_phy_addr : Word}
    (image : KernelImage kern_end) :
    tablesEnd kern_end max_phy_addr < 0x3F800000 := by
  have low := image.low
  have bound := max_phy_addr.isLt
  unfold tablesEnd imageEnd tableCount
  omega

theorem imageEnd_mod (kern_end : Word) : imageEnd kern_end % 4096 = 0 :=
  Nat.mul_mod_left _ _

theorem tablesEnd_mod (kern_end max_phy_addr : Word) :
    tablesEnd kern_end max_phy_addr % 4096 = 0 := by
  have aligned := imageEnd_mod kern_end
  unfold tablesEnd
  omega

theorem ptePages_toNat {max_phy_addr : Word}
    (aligned : max_phy_addr.toNat % 4096 = 0) :
    (ptePages max_phy_addr).toNat = tableCount max_phy_addr := by
  have bound := max_phy_addr.isLt
  have last : (PTE_SIZE - 1).toNat = 1023 := by decide
  have frames : (PFN_UP max_phy_addr).toNat = max_phy_addr.toNat / 4096 := by
    rw [PFN_UP_toNat (by omega)]
    omega
  rw [ptePages, BitVec.toNat_udiv, BitVec.toNat_add, frames, last,
    PTE_SIZE_toNat, Nat.mod_eq_of_lt (by omega)]
  rfl

/-- The variables that `init_kernel_vmm` uses as natural numbers. -/
structure TablesSpec (kern_end max_phy_addr : Word) (l : Layout) : Prop where
  top : l.max_phy_addr = max_phy_addr
  aligned : max_phy_addr.toNat % 4096 = 0
  kern_pgd : l.kern_pgd.toNat = imageEnd kern_end + 0xC0000000
  kern_pte : l.kern_pte.toNat = imageEnd kern_end + 4096 + 0xC0000000
  pte_pages : l.pte_pages.toNat = tableCount max_phy_addr

/-- The page tables are placed behind an image that leaves them a page of the
first GiB, wherever memory ends. -/
theorem layout_tables_of_end {kern_end max_phy_addr : Word}
    (linked : 0x100000 ≤ kern_end.toNat)
    (low : imageEnd kern_end + 4096 < 0x40000000)
    (aligned : max_phy_addr.toNat % 4096 = 0) :
    TablesSpec kern_end max_phy_addr (layout kern_end max_phy_addr) := by
  have reached : kern_end.toNat ≤ imageEnd kern_end := by
    unfold imageEnd
    omega
  have alignedEnd : (PFN_ALIGN kern_end).toNat = imageEnd kern_end := by
    rw [PFN_ALIGN_toNat (by omega)]
    rfl
  have pgd : (layout kern_end max_phy_addr).kern_pgd.toNat =
      imageEnd kern_end + 0xC0000000 := by
    change (__va (PFN_ALIGN kern_end)).toNat = _
    rw [__va_toNat (by omega) (by omega), alignedEnd]
  refine ⟨rfl, aligned, pgd, ?_, ptePages_toNat aligned⟩
  change ((layout kern_end max_phy_addr).kern_pgd + PAGE_SIZE).toNat = _
  rw [BitVec.toNat_add, pgd, PAGE_SIZE_toNat]
  omega

theorem layout_tables {kern_end max_phy_addr : Word}
    (image : KernelImage kern_end)
    (aligned : max_phy_addr.toNat % 4096 = 0) :
    TablesSpec kern_end max_phy_addr (layout kern_end max_phy_addr) := by
  have low := image.low
  apply layout_tables_of_end image.linked _ aligned
  unfold imageEnd
  omega

/-- The variables of `init_pmm` as natural numbers. -/
structure LayoutSpec (kern_end max_phy_addr : Word) (l : Layout) : Prop where
  kern_pgd : l.kern_pgd.toNat = imageEnd kern_end + 0xC0000000
  kern_pte : l.kern_pte.toNat = imageEnd kern_end + 4096 + 0xC0000000
  pte_pages : l.pte_pages.toNat = tableCount max_phy_addr
  phy_pages : l.phy_pages.toNat = tablesEnd kern_end max_phy_addr + 0xC0000000
  min_phy_addr : l.min_phy_addr.toNat =
    tablesEnd kern_end max_phy_addr + l.pfn_pages.toNat * 4096
  managed : l.min_phy_addr.toNat + l.phy_page_count.toNat * 4096 =
    max_phy_addr.toNat

/-- The frame array starts behind the page tables, wherever memory ends. -/
theorem layout_phyPages {kern_end max_phy_addr : Word}
    (linked : 0x100000 ≤ kern_end.toNat)
    (tablesLow : tablesEnd kern_end max_phy_addr < 0x40000000)
    (aligned : max_phy_addr.toNat % 4096 = 0) :
    (layout kern_end max_phy_addr).phy_pages.toNat =
        tablesEnd kern_end max_phy_addr + 0xC0000000 ∧
      (__pa (layout kern_end max_phy_addr).phy_pages).toNat =
        tablesEnd kern_end max_phy_addr := by
  have bound := max_phy_addr.isLt
  have endEq : tablesEnd kern_end max_phy_addr =
      imageEnd kern_end + 4096 + tableCount max_phy_addr * 4096 := rfl
  have countLow : tableCount max_phy_addr ≤ 1024 := by
    unfold tableCount
    omega
  obtain ⟨_, _, _, pte, tables⟩ :=
    @layout_tables_of_end kern_end _ linked (by omega) aligned
  have tableBytes :
      ((layout kern_end max_phy_addr).pte_pages <<< PAGE_SHIFT).toNat =
        tableCount max_phy_addr * 4096 := by
    have shifted :=
      @PFN_PHYS_toNat (layout kern_end max_phy_addr).pte_pages
        (by rw [tables]; omega)
    rw [tables] at shifted
    exact shifted
  have pages : (layout kern_end max_phy_addr).phy_pages.toNat =
      tablesEnd kern_end max_phy_addr + 0xC0000000 := by
    change ((layout kern_end max_phy_addr).kern_pte +
      ((layout kern_end max_phy_addr).pte_pages <<< PAGE_SHIFT)).toNat = _
    rw [BitVec.toNat_add, pte, tableBytes]
    omega
  refine ⟨pages, ?_⟩
  rw [__pa_toNat (by omega), pages]
  omega

/-- Nothing wraps around when the page tables end in the first GiB. -/
theorem layout_spec_of_end {kern_end max_phy_addr : Word}
    (linked : 0x100000 ≤ kern_end.toNat)
    (tablesLow : tablesEnd kern_end max_phy_addr < 0x40000000)
    (top : MemoryTop kern_end max_phy_addr) :
    LayoutSpec kern_end max_phy_addr (layout kern_end max_phy_addr) := by
  have bound := max_phy_addr.isLt
  have tablesAligned := tablesEnd_mod kern_end max_phy_addr
  have topAligned := top.aligned
  have topAbove := top.above
  have endEq : tablesEnd kern_end max_phy_addr =
      imageEnd kern_end + 4096 + tableCount max_phy_addr * 4096 := rfl
  obtain ⟨_, _, pgd, pte, tables⟩ :=
    @layout_tables_of_end kern_end _ linked (by omega) top.aligned
  obtain ⟨pages, physical⟩ := layout_phyPages linked tablesLow top.aligned
  have above : (framesAbove max_phy_addr
      (layout kern_end max_phy_addr).phy_pages).toNat =
        (max_phy_addr.toNat - tablesEnd kern_end max_phy_addr) / 4096 := by
    have difference : (max_phy_addr -
        __pa (layout kern_end max_phy_addr).phy_pages).toNat =
          max_phy_addr.toNat - tablesEnd kern_end max_phy_addr := by
      rw [BitVec.toNat_sub, physical]
      omega
    rw [framesAbove, BitVec.toNat_ushiftRight, difference,
      Nat.shiftRight_eq_div_pow]
    rfl
  obtain ⟨aboveBound, pfnPages, count⟩ := frame_array_size kern_end max_phy_addr
  rw [above] at aboveBound pfnPages count
  have min : (layout kern_end max_phy_addr).min_phy_addr.toNat =
      tablesEnd kern_end max_phy_addr +
        (layout kern_end max_phy_addr).pfn_pages.toNat * 4096 := by
    change (__pa (layout kern_end max_phy_addr).phy_pages +
      PFN_PHYS (layout kern_end max_phy_addr).pfn_pages).toNat = _
    rw [BitVec.toNat_add, physical, PFN_PHYS_toNat (by omega)]
    omega
  refine ⟨pgd, pte, tables, pages, min, ?_⟩
  rw [min, count]
  omega

theorem layout_spec {kern_end max_phy_addr : Word}
    (image : KernelImage kern_end) (top : MemoryTop kern_end max_phy_addr) :
    LayoutSpec kern_end max_phy_addr (layout kern_end max_phy_addr) :=
  layout_spec_of_end image.linked (Nat.lt_trans (tablesEnd_lt image)
    (by decide)) top

end Hlos.Mm
