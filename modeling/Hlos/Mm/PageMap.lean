import Hlos.Mm.KernelVmm

/-!
# What the finished page tables expose

`init_kernel_vmm` fills the directory slots of the kernel window and the table
entries of existing frames.  It does not clear the directory before, so every
other entry is what memory held.  `CleanTables` says what memory must have
held for no other address to be mapped.
-/

namespace Hlos.Mm

open Hlos.Lib Hlos.Include

def Present (entry : Word) : Prop := entry &&& PAGE_PRESENT ≠ 0

instance (entry : Word) : Decidable (Present entry) :=
  inferInstanceAs (Decidable (_ ≠ _))

/-- The address lies in the kernel window of physical memory. -/
def InWindow (max_phy_addr va : Word) : Prop :=
  0xC0000000 ≤ va.toNat ∧ va.toNat < 0xC0000000 + max_phy_addr.toNat

/-- The walk finds no two present entries outside the kernel window. -/
def NothingElseMapped (l : Layout) (m : Memory) : Prop :=
  ∀ va, ¬ InWindow l.max_phy_addr va →
    ¬ (Present (kernelWalk l m va).pde ∧ Present (kernelWalk l m va).pte)

/-- The cells that the two loops fill in. -/
def Filled (kern_end max_phy_addr : Word) (addr : Nat) : Prop :=
  (imageEnd kern_end + 3072 ≤ addr ∧
    addr < imageEnd kern_end + 3072 + 4 * tableCount max_phy_addr) ∨
  (imageEnd kern_end + 4096 ≤ addr ∧
    addr < imageEnd kern_end + 4096 + 4 * (max_phy_addr.toNat / 4096))

/-- A directory slot that the first loop leaves alone. -/
def LeftSlot (max_phy_addr : Word) (slot : Nat) : Prop :=
  slot < 1024 ∧ (slot < 768 ∨ 768 + tableCount max_phy_addr ≤ slot)

/-- A present word in a directory slot that is left alone names a table
without present words and without cells that will be filled, and no word
behind the last filled table entry is present. -/
structure CleanTables (kern_end max_phy_addr : Word) (m : Memory) :
    Prop where
  slots : ∀ slot, LeftSlot max_phy_addr slot →
    Present (m.load32 (imageEnd kern_end + 4 * slot)) →
    ∀ i, i < 1024 →
      ¬ Filled kern_end max_phy_addr
        ((m.load32 (imageEnd kern_end + 4 * slot) &&& PAGE_MASK).toNat +
          4 * i) ∧
      ¬ Present (m.load32
        ((m.load32 (imageEnd kern_end + 4 * slot) &&& PAGE_MASK).toNat +
          4 * i))
  tail : ∀ i, max_phy_addr.toNat / 4096 ≤ i →
    i < 1024 * tableCount max_phy_addr →
    ¬ Present (m.load32 (imageEnd kern_end + 4096 + 4 * i))

section Walks

variable {kern_end max_phy_addr : Word} {l : Layout}

theorem tableCount_le (low : max_phy_addr.toNat ≤ 2 ^ 30) :
    tableCount max_phy_addr ≤ 256 := by
  unfold tableCount
  omega

/-- Other words keep their value. -/
theorem load32_unfilled (image : KernelImage kern_end)
    (spec : TablesSpec kern_end max_phy_addr l)
    (low : max_phy_addr.toNat ≤ 2 ^ 30) (m : Memory) {addr : Nat}
    (aligned : addr % 4 = 0) (unfilled : ¬ Filled kern_end max_phy_addr addr) :
    (initKernelVmm l m).load32 addr = m.load32 addr := by
  have imageAligned := imageEnd_mod kern_end
  have few := tableCount_le low
  unfold Filled at unfilled
  rw [initKernelVmm, spec.top, tableFrames_eq spec.aligned,
    Memory.storeLoop_load32_of_apart, Memory.storeLoop_load32_of_apart]
  · intro idx _ below
    rw [spec.pte_pages] at below
    rw [pgdCell_eq image spec (by omega)]
    omega
  · intro i _ below
    rw [pteCell_eq image spec (by omega)]
    omega

theorem present_filled (image : KernelImage kern_end)
    (spec : TablesSpec kern_end max_phy_addr l)
    (low : max_phy_addr.toNat ≤ 2 ^ 30) (m : Memory) {addr : Nat}
    (aligned : addr % 4 = 0) (filled : Filled kern_end max_phy_addr addr) :
    Present ((initKernelVmm l m).load32 addr) := by
  have imageAligned := imageEnd_mod kern_end
  have few := tableCount_le low
  cases filled with
  | inl directory =>
      let idx := (addr - (imageEnd kern_end + 3072)) / 4
      have cell : addr = pgdCell l idx := by
        rw [pgdCell_eq image spec (by omega)]
        omega
      rw [cell, load32_pgdCell image spec m (by omega) (by omega)]
      exact (tableEntry_presentWritable _).1
  | inr table =>
      let i := (addr - (imageEnd kern_end + 4096)) / 4
      have cell : addr = pteCell l i := by
        rw [pteCell_eq image spec (by omega)]
        omega
      rw [cell, load32_pteCell image spec m (by omega)]
      exact (tableEntry_presentWritable _).1

/-- A word is present afterwards if it was filled in or was present. -/
theorem present_after_iff (image : KernelImage kern_end)
    (spec : TablesSpec kern_end max_phy_addr l)
    (low : max_phy_addr.toNat ≤ 2 ^ 30) (m : Memory) {addr : Nat}
    (aligned : addr % 4 = 0) :
    Present ((initKernelVmm l m).load32 addr) ↔
      Filled kern_end max_phy_addr addr ∨ Present (m.load32 addr) := by
  by_cases filled : Filled kern_end max_phy_addr addr
  · exact ⟨fun _ => Or.inl filled,
      fun _ => present_filled image spec low m aligned filled⟩
  · rw [load32_unfilled image spec low m aligned filled]
    exact ⟨Or.inr, fun either => either.resolve_left filled⟩

/-- The table entry the walk reads. -/
theorem kernelWalk_pte (l : Layout) (m : Memory) (va : Word) :
    (kernelWalk l m va).pte =
      (initKernelVmm l m).load32
        (((kernelWalk l m va).pde &&& PAGE_MASK).toNat +
          4 * (va.toNat / 4096 % 1024)) := by
  have four : (4 : Word).toNat = 4 := by decide
  have masked := and_PAGE_MASK_toNat (kernelWalk l m va).pde
  have bound := (kernelWalk l m va).pde.isLt
  have address :
      (((kernelWalk l m va).pde &&& PAGE_MASK) + 4 * PTE_INDEX va).toNat =
        ((kernelWalk l m va).pde &&& PAGE_MASK).toNat +
          4 * (va.toNat / 4096 % 1024) := by
    rw [BitVec.toNat_add, BitVec.toNat_mul, four, PTE_INDEX_toNat]
    omega
  rw [← address]
  rfl

theorem table_word_aligned (entry : Word) (i : Nat) :
    ((entry &&& PAGE_MASK).toNat + 4 * i) % 4 = 0 := by
  rw [and_PAGE_MASK_toNat]
  omega

/-- A slot that is left alone is not filled. -/
theorem LeftSlot.unfilled {slot : Nat} (left : LeftSlot max_phy_addr slot) :
    ¬ Filled kern_end max_phy_addr (imageEnd kern_end + 4 * slot) := by
  obtain ⟨bound, outside⟩ := left
  unfold Filled
  omega

/-- A slot that is left alone is walked through to the old table. -/
theorem mapped_through_left_iff (image : KernelImage kern_end)
    (spec : TablesSpec kern_end max_phy_addr l)
    (low : max_phy_addr.toNat ≤ 2 ^ 30) (m : Memory) {va : Word}
    (left : LeftSlot max_phy_addr (va.toNat / 2 ^ 22)) :
    (Present (kernelWalk l m va).pde ∧ Present (kernelWalk l m va).pte) ↔
      Present (m.load32 (imageEnd kern_end + 4 * (va.toNat / 2 ^ 22))) ∧
        (Filled kern_end max_phy_addr
          ((m.load32 (imageEnd kern_end + 4 * (va.toNat / 2 ^ 22)) &&&
            PAGE_MASK).toNat + 4 * (va.toNat / 4096 % 1024)) ∨
        Present (m.load32
          ((m.load32 (imageEnd kern_end + 4 * (va.toNat / 2 ^ 22)) &&&
            PAGE_MASK).toNat + 4 * (va.toNat / 4096 % 1024)))) := by
  have imageAligned := imageEnd_mod kern_end
  have unchanged : (kernelWalk l m va).pde =
      m.load32 (imageEnd kern_end + 4 * (va.toNat / 2 ^ 22)) := by
    rw [kernelWalk_pde image spec,
      load32_unfilled image spec low m (by omega) left.unfilled]
  rw [kernelWalk_pte, unchanged,
    present_after_iff image spec low m (table_word_aligned _ _)]

/-- The other slots of the directory name the tables that are filled. -/
theorem mapped_through_kernel_iff (image : KernelImage kern_end)
    (spec : TablesSpec kern_end max_phy_addr l)
    (low : max_phy_addr.toNat ≤ 2 ^ 30) (m : Memory) {va : Word} {i : Nat}
    (isVa : va.toNat / 4096 = 0xC0000 + i)
    (bound : i < 1024 * tableCount max_phy_addr) :
    (Present (kernelWalk l m va).pde ∧ Present (kernelWalk l m va).pte) ↔
      i < max_phy_addr.toNat / 4096 ∨
        Present (m.load32 (imageEnd kern_end + 4096 + 4 * i)) := by
  have imageAligned := imageEnd_mod kern_end
  have few := tableCount_le low
  have slot : imageEnd kern_end + 4 * (va.toNat / 2 ^ 22) =
      pgdCell l (i / 1024) := by
    rw [pgdCell_eq image spec (by omega)]
    omega
  have pde : (kernelWalk l m va).pde = pgdValue l (i / 1024) := by
    rw [kernelWalk_pde image spec, slot,
      load32_pgdCell image spec m (by omega) (by omega)]
  have address : (pgdValue l (i / 1024) &&& PAGE_MASK).toNat +
      4 * (va.toNat / 4096 % 1024) = imageEnd kern_end + 4096 + 4 * i := by
    rw [pgdValue_and_mask image spec (by omega)]
    omega
  have filled : Filled kern_end max_phy_addr
      (imageEnd kern_end + 4096 + 4 * i) ↔ i < max_phy_addr.toNat / 4096 := by
    unfold Filled
    omega
  rw [kernelWalk_pte, pde, address,
    present_after_iff image spec low m (by omega), filled]
  exact and_iff_right (tableEntry_presentWritable _).1

end Walks

section Exposure

variable {kern_end max_phy_addr : Word}

/-- The first address of a page. -/
theorem page_va_toNat {page : Nat} (bound : page < 2 ^ 20) :
    (BitVec.ofNat 32 (4096 * page)).toNat = 4096 * page := by
  rw [BitVec.toNat_ofNat, Nat.mod_eq_of_lt (by omega)]

theorem cleanTables_of_nothingElseMapped (image : KernelImage kern_end)
    (aligned : max_phy_addr.toNat % 4096 = 0)
    (low : max_phy_addr.toNat ≤ 2 ^ 30) {m : Memory}
    (nothing : NothingElseMapped (layout kern_end max_phy_addr) m) :
    CleanTables kern_end max_phy_addr m := by
  have spec := layout_tables image aligned
  have few := tableCount_le low
  have covers : max_phy_addr.toNat ≤ tableCount max_phy_addr * 2 ^ 22 := by
    unfold tableCount
    omega
  constructor
  · intro slot left present i small
    obtain ⟨slotBound, outside⟩ := left
    let page := 1024 * slot + i
    have isVa := @page_va_toNat page (by omega)
    have isSlot : (BitVec.ofNat 32 (4096 * page)).toNat / 2 ^ 22 = slot := by
      omega
    have isIndex :
        (BitVec.ofNat 32 (4096 * page)).toNat / 4096 % 1024 = i := by
      omega
    have unmapped := nothing (BitVec.ofNat 32 (4096 * page)) (by
      rw [InWindow, spec.top]
      omega)
    rw [mapped_through_left_iff image spec low m
      (by rw [isSlot]; exact ⟨slotBound, outside⟩), isSlot, isIndex]
      at unmapped
    exact ⟨fun filled => unmapped ⟨present, Or.inl filled⟩,
      fun old => unmapped ⟨present, Or.inr old⟩⟩
  · intro i behind bound old
    have isVa := @page_va_toNat (0xC0000 + i) (by omega)
    have unmapped := nothing (BitVec.ofNat 32 (4096 * (0xC0000 + i))) (by
      rw [InWindow, spec.top]
      omega)
    rw [mapped_through_kernel_iff image spec low m (by omega) bound]
      at unmapped
    exact unmapped (Or.inr old)

theorem nothingElseMapped_of_cleanTables (image : KernelImage kern_end)
    (aligned : max_phy_addr.toNat % 4096 = 0)
    (low : max_phy_addr.toNat ≤ 2 ^ 30) {m : Memory}
    (clean : CleanTables kern_end max_phy_addr m) :
    NothingElseMapped (layout kern_end max_phy_addr) m := by
  have spec := layout_tables image aligned
  intro va outside mapped
  have vaBound := va.isLt
  rw [InWindow, spec.top] at outside
  by_cases left : LeftSlot max_phy_addr (va.toNat / 2 ^ 22)
  · obtain ⟨present, either⟩ :=
      (mapped_through_left_iff image spec low m left).mp mapped
    obtain ⟨unfilled, absent⟩ :=
      clean.slots _ left present (va.toNat / 4096 % 1024) (by omega)
    cases either with
    | inl filled => exact unfilled filled
    | inr old => exact absent old
  · unfold LeftSlot at left
    let i := va.toNat / 4096 - 0xC0000
    have isVa : va.toNat / 4096 = 0xC0000 + i := by omega
    have bound : i < 1024 * tableCount max_phy_addr := by omega
    have either :=
      (mapped_through_kernel_iff image spec low m isVa bound).mp mapped
    cases either with
    | inl filled => omega
    | inr old => exact clean.tail i (by omega) bound old

/-- The page map exposes nothing else exactly when memory held no stale
entries. -/
theorem nothing_else_mapped_iff (image : KernelImage kern_end)
    (aligned : max_phy_addr.toNat % 4096 = 0)
    (low : max_phy_addr.toNat ≤ 2 ^ 30) (m : Memory) :
    NothingElseMapped (layout kern_end max_phy_addr) m ↔
      CleanTables kern_end max_phy_addr m :=
  ⟨cleanTables_of_nothingElseMapped image aligned low,
    nothingElseMapped_of_cleanTables image aligned low⟩

end Exposure

theorem nothing_else_mapped_zeroMemory :
    NothingElseMapped (layout 0x110000 0x8000000) zeroMemory := by
  apply (nothing_else_mapped_iff ⟨by decide, by decide⟩ (by decide) (by decide)
    zeroMemory).mpr
  constructor
  · intro slot _ present
    rw [load32_zeroMemory] at present
    exact absurd present (by decide)
  · intro i _ _
    rw [load32_zeroMemory]
    decide

/-- A stale word in the first directory slot that names the first table. -/
def staleMemory : Memory := zeroMemory.store32 0x110000 0x00111003

theorem stale_entries_mapped :
    ¬ ∀ (kern_end max_phy_addr : Word) (m : Memory), KernelImage kern_end →
      max_phy_addr.toNat % 4096 = 0 → max_phy_addr.toNat ≤ 2 ^ 30 →
      NothingElseMapped (layout kern_end max_phy_addr) m := by
  intro general
  have image : KernelImage 0x110000 := ⟨by decide, by decide⟩
  have clean := cleanTables_of_nothingElseMapped image (by decide) (by decide)
    (general 0x110000 0x8000000 staleMemory image (by decide) (by decide))
  have word : staleMemory.load32 (imageEnd 0x110000 + 4 * 0) = 0x00111003 :=
    Memory.load32_store32_self _ _ _
  have slot := clean.slots 0 ⟨by decide, by decide⟩ (by rw [word]; decide) 0
    (by decide)
  rw [word] at slot
  exact slot.1 (Or.inr ⟨by decide, by decide⟩)

end Hlos.Mm
