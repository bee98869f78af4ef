import Hlos.Mm.Pmm

/-!
# `init_kernel_vmm` and the page walk

The two loops of `init_kernel_vmm` run while the boot page tables are loaded,
which take a kernel address `va` to the physical address `va - KERNBASE`.  The
walk of the finished tables is the one of the processor without large pages.
-/

set_option linter.style.nameCheck false

namespace Hlos.Mm

open Hlos.Lib Hlos.Include

/-- The value of a page table entry. -/
def tableEntry (address : Word) : Word :=
  address ||| PAGE_PRESENT ||| PAGE_WRITE

/-- The address of directory entry `idx` above `PAGE_OFFSET`. -/
def pgdCell (l : Layout) (idx : Nat) : Nat :=
  bootPhysical (l.kern_pgd + 4 * (PGD_INDEX PAGE_OFFSET + BitVec.ofNat 32 idx))

def pgdValue (l : Layout) (idx : Nat) : Word :=
  tableEntry (__pa (l.kern_pte + PFN_PHYS (BitVec.ofNat 32 idx)))

/-- The address of table entry `i`. -/
def pteCell (l : Layout) (i : Nat) : Nat :=
  bootPhysical (l.kern_pte + 4 * BitVec.ofNat 32 i)

def pteValue (i : Nat) : Word :=
  tableEntry (PFN_PHYS (BitVec.ofNat 32 i))

def initKernelVmm (l : Layout) (m : Memory) : Memory :=
  let m := m.storeLoop (pgdCell l) (pgdValue l) l.pte_pages.toNat 0
  m.storeLoop (pteCell l) pteValue (PFN_UP l.max_phy_addr).toNat 0

/-- The entries met by a page walk, and the address it delivers. -/
structure Translation where
  pde : Word
  pte : Word
  physical : Word
deriving DecidableEq, Repr

def walk (m : Memory) (cr3 va : Word) : Translation :=
  let pde := m.load32 ((cr3 &&& PAGE_MASK) + 4 * PGD_INDEX va).toNat
  let pte := m.load32 ((pde &&& PAGE_MASK) + 4 * PTE_INDEX va).toNat
  { pde := pde
    pte := pte
    physical := (pte &&& PAGE_MASK) + OFFSET_INDEX va }

/-- The walk of the tables that `init_kernel_vmm` loads. -/
def kernelWalk (l : Layout) (m : Memory) (va : Word) : Translation :=
  walk (initKernelVmm l m) (__pa l.kern_pgd) va

/-- The entry is present and writable. -/
def PresentWritable (entry : Word) : Prop :=
  entry &&& PAGE_PRESENT ≠ 0 ∧ entry &&& PAGE_WRITE ≠ 0

instance (entry : Word) : Decidable (PresentWritable entry) :=
  inferInstanceAs (Decidable (_ ∧ _))

/-- The walk finds usable entries and delivers the address. -/
structure TranslatesTo (t : Translation) (physical : Nat) : Prop where
  pde : PresentWritable t.pde
  pte : PresentWritable t.pte
  physical : t.physical.toNat = physical

/-! ## Entries -/

theorem tableEntry_presentWritable (address : Word) :
    PresentWritable (tableEntry address) := by
  constructor
  · intro absent
    have bit := congrArg (fun word : Word => word.getLsbD 0) absent
    simp [tableEntry, PAGE_PRESENT, PAGE_WRITE] at bit
  · intro absent
    have bit := congrArg (fun word : Word => word.getLsbD 1) absent
    simp [tableEntry, PAGE_PRESENT, PAGE_WRITE] at bit

/-- The flags do not disturb an aligned address. -/
theorem tableEntry_and_mask {address : Word}
    (aligned : address.toNat % 4096 = 0) :
    tableEntry address &&& PAGE_MASK = address := by
  have keep : address &&& PAGE_MASK = address := by
    apply BitVec.eq_of_toNat_eq
    rw [and_PAGE_MASK_toNat]
    omega
  have present : PAGE_PRESENT &&& PAGE_MASK = 0 := by decide
  have write : PAGE_WRITE &&& PAGE_MASK = 0 := by decide
  have first : (address ||| PAGE_PRESENT) &&& PAGE_MASK = address := by
    rw [BitVec.and_or_distrib_right, keep, present]
    exact BitVec.or_zero
  rw [tableEntry, BitVec.and_or_distrib_right, first, write]
  exact BitVec.or_zero

theorem pteValue_and_mask {i : Nat} (small : i < 2 ^ 20) :
    (pteValue i &&& PAGE_MASK).toNat = 4096 * i := by
  have index : (BitVec.ofNat 32 i).toNat = i := by
    rw [BitVec.toNat_ofNat]
    omega
  have address : (PFN_PHYS (BitVec.ofNat 32 i)).toNat = i * 4096 := by
    rw [PFN_PHYS_toNat (by omega), index]
  rw [pteValue, tableEntry_and_mask (by omega), address]
  omega

/-- A walk through an entry that names a table and an entry that names a
frame. -/
theorem walk_translatesTo {m : Memory} {cr3 va table : Word} {frame : Nat}
    (root : cr3.toNat % 4096 = 0) (aligned : table.toNat % 4096 = 0)
    (pde : m.load32 (cr3.toNat + 4 * (va.toNat / 2 ^ 22)) = tableEntry table)
    (pte : m.load32 (table.toNat + 4 * (va.toNat / 4096 % 1024)) =
      pteValue frame)
    (small : frame < 2 ^ 20) :
    TranslatesTo (walk m cr3 va) (4096 * frame + va.toNat % 4096) := by
  have four : (4 : Word).toNat = 4 := by decide
  have vaBound := va.isLt
  have rootBound := cr3.isLt
  have tableBound := table.isLt
  have pdeAddress :
      ((cr3 &&& PAGE_MASK) + 4 * PGD_INDEX va).toNat =
        cr3.toNat + 4 * (va.toNat / 2 ^ 22) := by
    rw [BitVec.toNat_add, BitVec.toNat_mul, and_PAGE_MASK_toNat, four,
      PGD_INDEX_toNat]
    omega
  have walkPde : (walk m cr3 va).pde = tableEntry table := by
    rw [← pde, ← pdeAddress]
    rfl
  have pteAddress :
      (((walk m cr3 va).pde &&& PAGE_MASK) + 4 * PTE_INDEX va).toNat =
        table.toNat + 4 * (va.toNat / 4096 % 1024) := by
    rw [walkPde, tableEntry_and_mask aligned, BitVec.toNat_add,
      BitVec.toNat_mul, four, PTE_INDEX_toNat]
    omega
  have walkPte : (walk m cr3 va).pte = pteValue frame := by
    rw [← pte, ← pteAddress]
    rfl
  constructor
  · rw [walkPde]
    exact tableEntry_presentWritable _
  · rw [walkPte]
    exact tableEntry_presentWritable _
  · have delivered : (walk m cr3 va).physical =
        ((walk m cr3 va).pte &&& PAGE_MASK) + OFFSET_INDEX va := rfl
    rw [delivered, BitVec.toNat_add, walkPte, pteValue_and_mask small,
      OFFSET_INDEX_toNat]
    omega

section Cells

variable {kern_end max_phy_addr : Word} {l : Layout}

theorem pgdCell_eq (image : KernelImage kern_end)
    (spec : TablesSpec kern_end max_phy_addr l) {idx : Nat}
    (small : idx < 1024) :
    pgdCell l idx = imageEnd kern_end + 3072 + 4 * idx := by
  have low := image.low
  have pgd := spec.kern_pgd
  have slot : (PGD_INDEX PAGE_OFFSET).toNat = 768 := by decide
  have base : KERNBASE.toNat = 0xC0000000 := by decide
  have four : (4 : Word).toNat = 4 := by decide
  unfold pgdCell bootPhysical
  rw [BitVec.toNat_sub, BitVec.toNat_add, BitVec.toNat_mul, BitVec.toNat_add,
    slot, base, four, pgd, BitVec.toNat_ofNat]
  unfold imageEnd
  omega

theorem pteCell_eq (image : KernelImage kern_end)
    (spec : TablesSpec kern_end max_phy_addr l) {i : Nat}
    (small : i < 2 ^ 20) :
    pteCell l i = imageEnd kern_end + 4096 + 4 * i := by
  have low := image.low
  have pte := spec.kern_pte
  have base : KERNBASE.toNat = 0xC0000000 := by decide
  have four : (4 : Word).toNat = 4 := by decide
  unfold pteCell bootPhysical
  rw [BitVec.toNat_sub, BitVec.toNat_add, BitVec.toNat_mul, base, four, pte,
    BitVec.toNat_ofNat]
  unfold imageEnd
  omega

/-- The table that directory entry `idx` names. -/
def tableFrame (l : Layout) (idx : Nat) : Word :=
  __pa (l.kern_pte + PFN_PHYS (BitVec.ofNat 32 idx))

theorem tableFrame_toNat (image : KernelImage kern_end)
    (spec : TablesSpec kern_end max_phy_addr l) {idx : Nat}
    (small : idx < 1024) :
    (tableFrame l idx).toNat = imageEnd kern_end + 4096 + 4096 * idx := by
  have low := image.low
  have pte := spec.kern_pte
  have index : (BitVec.ofNat 32 idx).toNat = idx := by
    rw [BitVec.toNat_ofNat]
    omega
  have address : (l.kern_pte + PFN_PHYS (BitVec.ofNat 32 idx)).toNat =
      imageEnd kern_end + 4096 + 4096 * idx + 0xC0000000 := by
    rw [BitVec.toNat_add, pte, PFN_PHYS_toNat (by omega), index]
    unfold imageEnd
    omega
  rw [tableFrame, __pa_toNat (by omega), address]
  omega

theorem pgdValue_and_mask (image : KernelImage kern_end)
    (spec : TablesSpec kern_end max_phy_addr l) {idx : Nat}
    (small : idx < 1024) :
    (pgdValue l idx &&& PAGE_MASK).toNat =
      imageEnd kern_end + 4096 + 4096 * idx := by
  have aligned := imageEnd_mod kern_end
  have table := tableFrame_toNat image spec small
  have tableAligned : (tableFrame l idx).toNat % 4096 = 0 := by omega
  have masked : pgdValue l idx &&& PAGE_MASK = tableFrame l idx :=
    tableEntry_and_mask tableAligned
  rw [masked, table]

theorem kernPgd_physical
    (spec : TablesSpec kern_end max_phy_addr l) :
    (__pa l.kern_pgd).toNat = imageEnd kern_end := by
  rw [__pa_toNat (by rw [spec.kern_pgd]; omega), spec.kern_pgd]
  omega

/-! ## The finished tables -/

theorem tableFrames_eq (aligned : max_phy_addr.toNat % 4096 = 0) :
    (PFN_UP max_phy_addr).toNat = max_phy_addr.toNat / 4096 := by
  have bound := max_phy_addr.isLt
  rw [PFN_UP_toNat (by omega)]
  omega

/-- A directory slot of the first GiB holds its table, and the second loop
does not reach it. -/
theorem load32_pgdCell (image : KernelImage kern_end)
    (spec : TablesSpec kern_end max_phy_addr l)
    (m : Memory) {idx : Nat}
    (bound : idx < tableCount max_phy_addr) (slot : idx < 256) :
    (initKernelVmm l m).load32 (pgdCell l idx) = pgdValue l idx := by
  have topBound := max_phy_addr.isLt
  have countBound : tableCount max_phy_addr ≤ 1024 := by
    unfold tableCount
    omega
  rw [initKernelVmm, spec.top, tableFrames_eq spec.aligned,
    Memory.storeLoop_load32_of_apart]
  · apply Memory.storeLoop_load32
    · intro i j _ less below
      rw [spec.pte_pages] at below
      rw [pgdCell_eq image spec (by omega), pgdCell_eq image spec (by omega)]
      omega
    · exact Nat.zero_le _
    · rw [spec.pte_pages]
      omega
  · intro i _ below
    rw [pgdCell_eq image spec (by omega), pteCell_eq image spec (by omega)]
    omega

/-- Every table entry below the end of memory maps its frame. -/
theorem load32_pteCell (image : KernelImage kern_end)
    (spec : TablesSpec kern_end max_phy_addr l)
    (m : Memory) {i : Nat}
    (bound : i < max_phy_addr.toNat / 4096) :
    (initKernelVmm l m).load32 (pteCell l i) = pteValue i := by
  have topBound := max_phy_addr.isLt
  rw [initKernelVmm, spec.top, tableFrames_eq spec.aligned]
  apply Memory.storeLoop_load32
  · intro j k _ less below
    rw [pteCell_eq image spec (by omega), pteCell_eq image spec (by omega)]
    omega
  · exact Nat.zero_le _
  · omega

/-- The directory page below `PAGE_OFFSET` is not written. -/
theorem load32_lowSlot (image : KernelImage kern_end)
    (spec : TablesSpec kern_end max_phy_addr l)
    (m : Memory) {slot : Nat}
    (low : slot < 768) :
    (initKernelVmm l m).load32 (imageEnd kern_end + 4 * slot) =
      m.load32 (imageEnd kern_end + 4 * slot) := by
  have topBound := max_phy_addr.isLt
  have countBound : tableCount max_phy_addr ≤ 1024 := by
    unfold tableCount
    omega
  rw [initKernelVmm, spec.top, tableFrames_eq spec.aligned,
    Memory.storeLoop_load32_of_apart, Memory.storeLoop_load32_of_apart]
  · intro idx _ below
    rw [spec.pte_pages] at below
    rw [pgdCell_eq image spec (by omega)]
    omega
  · intro i _ below
    rw [pteCell_eq image spec (by omega)]
    omega

/-- The directory entry the walk reads. -/
theorem kernelWalk_pde (image : KernelImage kern_end)
    (spec : TablesSpec kern_end max_phy_addr l) (m : Memory) (va : Word) :
    (kernelWalk l m va).pde =
      (initKernelVmm l m).load32
        (imageEnd kern_end + 4 * (va.toNat / 2 ^ 22)) := by
  have low := image.low
  have aligned := imageEnd_mod kern_end
  have vaBound := va.isLt
  have four : (4 : Word).toNat = 4 := by decide
  have pgd := kernPgd_physical spec
  have address :
      ((__pa l.kern_pgd &&& PAGE_MASK) + 4 * PGD_INDEX va).toNat =
        imageEnd kern_end + 4 * (va.toNat / 2 ^ 22) := by
    rw [BitVec.toNat_add, BitVec.toNat_mul, and_PAGE_MASK_toNat, pgd, four,
      PGD_INDEX_toNat]
    unfold imageEnd
    omega
  change (initKernelVmm l m).load32 _ = _
  rw [address]

/-- The cells of the kernel window hold what `init_kernel_vmm` stores. -/
structure TablesFilled (l : Layout) (m : Memory) : Prop where
  directory : ∀ idx, idx < l.pte_pages.toNat → idx < 256 →
    m.load32 (pgdCell l idx) = pgdValue l idx
  table : ∀ i, i < l.max_phy_addr.toNat / 4096 →
    m.load32 (pteCell l i) = pteValue i

theorem initKernelVmm_filled (image : KernelImage kern_end)
    (spec : TablesSpec kern_end max_phy_addr l) (m : Memory) :
    TablesFilled l (initKernelVmm l m) := by
  constructor
  · intro idx bound slot
    rw [spec.pte_pages] at bound
    exact load32_pgdCell image spec m bound slot
  · intro i bound
    rw [spec.top] at bound
    exact load32_pteCell image spec m bound

/-- Filled tables map the kernel addresses of memory below 1 GiB to that
memory. -/
theorem TablesFilled.translates (image : KernelImage kern_end)
    (spec : TablesSpec kern_end max_phy_addr l) {m : Memory}
    (filled : TablesFilled l m) {va : Word} {physical : Nat}
    (isVa : va.toNat = physical + 0xC0000000)
    (below : physical < max_phy_addr.toNat) :
    TranslatesTo (walk m (__pa l.kern_pgd) va) physical := by
  have vaBound := va.isLt
  have topAligned := spec.aligned
  have imageAligned := imageEnd_mod kern_end
  have root := kernPgd_physical spec
  have pages := spec.pte_pages
  have top := spec.top
  let q := physical / 2 ^ 22
  have qTable : q < tableCount max_phy_addr := by
    unfold tableCount
    omega
  have table := @tableFrame_toNat _ _ _ image spec q (by omega)
  have pgdAddress : (__pa l.kern_pgd).toNat + 4 * (va.toNat / 2 ^ 22) =
      pgdCell l q := by
    rw [root, pgdCell_eq image spec (by omega)]
    omega
  have pteAddress :
      (tableFrame l q).toNat + 4 * (va.toNat / 4096 % 1024) =
        pteCell l (physical / 4096) := by
    rw [table, pteCell_eq image spec (by omega)]
    omega
  have delivered : physical =
      4096 * (physical / 4096) + va.toNat % 4096 := by
    omega
  rw [delivered]
  apply @walk_translatesTo _ _ _ (tableFrame l q) _ (by omega) (by omega)
  · rw [pgdAddress]
    exact filled.directory q (by omega) (by omega)
  · rw [pteAddress]
    exact filled.table _ (by rw [top]; omega)
  · omega

/-- Kernel addresses of memory below 1 GiB are mapped to that memory. -/
theorem kernelWalk_mapped (image : KernelImage kern_end)
    (spec : TablesSpec kern_end max_phy_addr l)
    (m : Memory) {va : Word}
    {physical : Nat} (isVa : va.toNat = physical + 0xC0000000)
    (below : physical < max_phy_addr.toNat) :
    TranslatesTo (kernelWalk l m va) physical :=
  (initKernelVmm_filled image spec m).translates image spec isVa below

/-- Stores outside the directory and the tables leave them filled. -/
theorem TablesFilled.of_writes (image : KernelImage kern_end)
    (spec : TablesSpec kern_end max_phy_addr l) {m m' : Memory}
    (filled : TablesFilled l m) {range : Set Nat}
    (writes : Memory.WritesWithin range m m')
    (apart : ∀ position, position ∈ range →
      position < imageEnd kern_end ∨
        tablesEnd kern_end max_phy_addr ≤ position) :
    TablesFilled l m' := by
  have topBound := max_phy_addr.isLt
  have pages := spec.pte_pages
  have top := spec.top
  have aligned := spec.aligned
  have isCount : tableCount max_phy_addr =
      (max_phy_addr.toNat / 4096 + 1023) / 1024 := rfl
  have isEnd : tablesEnd kern_end max_phy_addr =
      imageEnd kern_end + 4096 + tableCount max_phy_addr * 4096 := rfl
  constructor
  · intro idx bound slot
    rw [writes.load32_eq, filled.directory idx bound slot]
    intro offset inside member
    have outside := apart _ member
    rw [pgdCell_eq image spec (by omega)] at outside
    omega
  · intro i bound
    rw [writes.load32_eq, filled.table i bound]
    intro offset inside member
    have outside := apart _ member
    rw [top] at bound
    rw [pteCell_eq image spec (by omega)] at outside
    omega

end Cells

/-! ## Managed pages -/

/-- Every managed page is mapped, whatever memory held before. -/
def PagesMapped (l : Layout) : Prop :=
  ∀ (m : Memory) (pfn : Nat), pfn < l.phy_page_count.toNat →
    TranslatesTo (kernelWalk l m (pageAddress l (BitVec.ofNat 32 pfn)))
      (frameAddress l pfn)

def DistinctAddresses (l : Layout) : Prop :=
  ∀ left right, left < l.phy_page_count.toNat →
    right < l.phy_page_count.toNat →
    pageAddress l (BitVec.ofNat 32 left) =
      pageAddress l (BitVec.ofNat 32 right) →
    left = right

section ManagedPages

variable {kern_end max_phy_addr : Word}

/-- The physical address of a managed frame does not wrap around. -/
theorem frameAddress_toNat {l : Layout}
    (spec : LayoutSpec kern_end max_phy_addr l) {pfn : Nat}
    (bound : pfn < l.phy_page_count.toNat) :
    (l.min_phy_addr + PFN_PHYS (BitVec.ofNat 32 pfn)).toNat =
      frameAddress l pfn := by
  have managed := spec.managed
  have topBound := max_phy_addr.isLt
  have index : (BitVec.ofNat 32 pfn).toNat = pfn := by
    rw [BitVec.toNat_ofNat]
    omega
  rw [BitVec.toNat_add, PFN_PHYS_toNat (by omega), index, frameAddress]
  omega

theorem frameAddress_pos {l : Layout} (image : KernelImage kern_end)
    (spec : LayoutSpec kern_end max_phy_addr l) (pfn : Nat) :
    0 < frameAddress l pfn := by
  have linked := image.linked
  have min := spec.min_phy_addr
  unfold tablesEnd at min
  unfold frameAddress
  omega

theorem pageAddress_low {l : Layout} (image : KernelImage kern_end)
    (spec : LayoutSpec kern_end max_phy_addr l)
    (low : max_phy_addr.toNat ≤ 2 ^ 30) {pfn : Nat}
    (bound : pfn < l.phy_page_count.toNat) :
    (pageAddress l (BitVec.ofNat 32 pfn)).toNat =
      frameAddress l pfn + 0xC0000000 := by
  have managed := spec.managed
  have address := frameAddress_toNat spec bound
  have positive := frameAddress_pos image spec pfn
  have below : frameAddress l pfn < 2 ^ 30 := by
    unfold frameAddress
    omega
  rw [pageAddress, __va_toNat (by omega) (by omega), address]

/-- A frame above 1 GiB has its address below `PAGE_OFFSET`. -/
theorem pageAddress_high {l : Layout}
    (spec : LayoutSpec kern_end max_phy_addr l) {pfn : Nat}
    (bound : pfn < l.phy_page_count.toNat)
    (high : 2 ^ 30 ≤ frameAddress l pfn) :
    (pageAddress l (BitVec.ofNat 32 pfn)).toNat =
      frameAddress l pfn - 2 ^ 30 := by
  have address := frameAddress_toNat spec bound
  have wordBound := (l.min_phy_addr + PFN_PHYS (BitVec.ofNat 32 pfn)).isLt
  have base : KERNBASE.toNat = 0xC0000000 := by decide
  have nonzero : l.min_phy_addr + PFN_PHYS (BitVec.ofNat 32 pfn) ≠ 0 := by
    intro zero
    rw [zero] at address
    change 0 = frameAddress l pfn at address
    omega
  rw [pageAddress, __va, if_neg nonzero, BitVec.toNat_add, base, address]
  omega

/-- Memory above the page tables and above 1 GiB has managed frames. -/
theorem managed_nonempty (image : KernelImage kern_end)
    (top : MemoryTop kern_end max_phy_addr)
    (high : 2 ^ 30 < max_phy_addr.toNat) :
    0 < (layout kern_end max_phy_addr).phy_page_count.toNat := by
  have spec := layout_spec image top
  have managed := spec.managed
  have min := spec.min_phy_addr
  have tables := @tablesEnd_lt kern_end max_phy_addr image
  obtain ⟨aboveBound, pages, count⟩ := frame_array_size kern_end max_phy_addr
  omega

theorem pages_mapped_low (image : KernelImage kern_end)
    (top : MemoryTop kern_end max_phy_addr)
    (low : max_phy_addr.toNat ≤ 2 ^ 30) :
    PagesMapped (layout kern_end max_phy_addr) ∧
      DistinctAddresses (layout kern_end max_phy_addr) := by
  have spec := layout_spec image top
  have managed := spec.managed
  constructor
  · intro m pfn bound
    apply kernelWalk_mapped image (layout_tables image top.aligned) m
    · exact pageAddress_low image spec low bound
    · unfold frameAddress
      omega
  · intro left right leftBound rightBound same
    have leftAddress := pageAddress_low image spec low leftBound
    have rightAddress := pageAddress_low image spec low rightBound
    rw [same, rightAddress] at leftAddress
    unfold frameAddress at leftAddress
    omega

/-- Memory that holds zeros only. -/
def zeroMemory : Memory := ⟨fun _ => 0, []⟩

theorem load32_zeroMemory (addr : Nat) : zeroMemory.load32 addr = 0 := by
  simp [Memory.load32, zeroMemory]

/-- The last frame above 1 GiB is looked up in a directory slot that was never
written. -/
theorem last_page_unmapped {l : Layout} (image : KernelImage kern_end)
    (tables : TablesSpec kern_end max_phy_addr l)
    (spec : LayoutSpec kern_end max_phy_addr l)
    (nonempty : 0 < l.phy_page_count.toNat)
    (high : 2 ^ 30 < max_phy_addr.toNat) : ¬ PagesMapped l := by
  intro mapped
  have managed := spec.managed
  have topBound := max_phy_addr.isLt
  have topAligned := tables.aligned
  have lastBound : l.phy_page_count.toNat - 1 < l.phy_page_count.toNat := by
    omega
  have lastFrame : frameAddress l (l.phy_page_count.toNat - 1) =
      max_phy_addr.toNat - 4096 := by
    unfold frameAddress
    omega
  have address := pageAddress_high spec lastBound (by omega)
  have walked := (mapped zeroMemory _ lastBound).pde
  rw [kernelWalk_pde image tables,
    load32_lowSlot image tables zeroMemory (by omega),
    load32_zeroMemory] at walked
  exact absurd walked (by decide)

/-- All managed pages are reachable at distinct kernel addresses exactly when
memory ends within the first GiB. -/
theorem managed_pages_mapped_iff (image : KernelImage kern_end)
    (top : MemoryTop kern_end max_phy_addr) :
    (PagesMapped (layout kern_end max_phy_addr) ∧
        DistinctAddresses (layout kern_end max_phy_addr)) ↔
      max_phy_addr.toNat ≤ 2 ^ 30 := by
  constructor
  · rintro ⟨mapped, _⟩
    by_contra low
    have high : 2 ^ 30 < max_phy_addr.toNat := by omega
    exact last_page_unmapped image (layout_tables image top.aligned)
      (layout_spec image top) (managed_nonempty image top high) high mapped
  · exact pages_mapped_low image top

end ManagedPages

theorem managed_pages_mapped_128MiB :
    PagesMapped (layout 0x110000 0x8000000) ∧
      DistinctAddresses (layout 0x110000 0x8000000) :=
  (managed_pages_mapped_iff ⟨by decide, by decide⟩
    ⟨by decide, by decide⟩).mpr (by decide)

/-- One page more than 1 GiB is too much. -/
theorem pages_unmapped_above_1GiB :
    ¬ ∀ kern_end max_phy_addr : Word, KernelImage kern_end →
      MemoryTop kern_end max_phy_addr →
      PagesMapped (layout kern_end max_phy_addr) ∧
        DistinctAddresses (layout kern_end max_phy_addr) := by
  intro general
  have image : KernelImage 0x110000 := ⟨by decide, by decide⟩
  have top : MemoryTop 0x110000 0x40001000 := ⟨by decide, by decide⟩
  exact last_page_unmapped image (layout_tables image top.aligned)
    (layout_spec image top) (by decide) (by decide)
     (general 0x110000 0x40001000 image top).1

end Hlos.Mm
