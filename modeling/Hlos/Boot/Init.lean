import Hlos.Mm.KernelVmm

/-!
# `boot/init.c`: the boot page tables

`boot.s` reserves a page directory and five page tables one behind the other
in the kernel image.  `mmap_tmp_page` fills them while paging is off, so the
addresses it writes to are physical.  The kernel runs on these tables until
`init_kernel_vmm` loads its own.
-/

namespace Hlos.Boot

open Hlos.Lib Hlos.Include Hlos.Mm

/-- The pointers that `boot.s` sets up. -/
structure BootTables where
  pgd_tmp : Word
  pte_low : Word
  pte_high : Word
deriving DecidableEq, Repr

/-- `pgd_tmp_d`, `pte_low_d` and `pte_high_d` of `boot.s`. -/
def bootTables (pgd_tmp_d : Word) : BootTables where
  pgd_tmp := pgd_tmp_d
  pte_low := pgd_tmp_d + 4096
  pte_high := pgd_tmp_d + 8192

/-- The address of the directory entry of the `i`-th 4 MiB of the kernel. -/
def bootPgdCell (t : BootTables) (i : Nat) : Nat :=
  (t.pgd_tmp +
    4 * PGD_INDEX (PAGE_OFFSET + PAGE_MAP_SIZE * BitVec.ofNat 32 i)).toNat

def bootPgdValue (t : BootTables) (i : Nat) : Word :=
  tableEntry (t.pte_high + PAGE_SIZE * BitVec.ofNat 32 i)

/-- The address of entry `i` of a page table. -/
def bootPteCell (table : Word) (i : Nat) : Nat :=
  (table + 4 * BitVec.ofNat 32 i).toNat

def bootPteValue (i : Nat) : Word := tableEntry (BitVec.ofNat 32 i <<< 12)

def mmapTmpPage (t : BootTables) (m : Memory) : Memory :=
  let m := m.store32 t.pgd_tmp.toNat (tableEntry t.pte_low)
  let m := m.storeLoop (bootPgdCell t) (bootPgdValue t) 4 0
  let m := m.storeLoop (bootPteCell t.pte_low) bootPteValue 1024 0
  m.storeLoop (bootPteCell t.pte_high) bootPteValue (1024 * 4) 0

/-- The walk of the tables that `mmap_tmp_page` loads. -/
def bootWalk (t : BootTables) (m : Memory) (va : Word) : Translation :=
  walk (mmapTmpPage t m) t.pgd_tmp va

/-- The six pages of the tables are aligned and do not wrap around. -/
structure TablesPlaced (pgd_tmp_d : Word) : Prop where
  aligned : pgd_tmp_d.toNat % 4096 = 0
  inside : pgd_tmp_d.toNat + 6 * 4096 ≤ 2 ^ 32

section Cells

variable {pgd_tmp_d : Word}

theorem pteHigh_toNat (placed : TablesPlaced pgd_tmp_d) :
    (bootTables pgd_tmp_d).pte_high.toNat = pgd_tmp_d.toNat + 8192 := by
  have inside := placed.inside
  have offset : (8192 : Word).toNat = 8192 := by decide
  change (pgd_tmp_d + 8192).toNat = _
  rw [BitVec.toNat_add, offset]
  omega

theorem pteLow_toNat (placed : TablesPlaced pgd_tmp_d) :
    (bootTables pgd_tmp_d).pte_low.toNat = pgd_tmp_d.toNat + 4096 := by
  have inside := placed.inside
  have offset : (4096 : Word).toNat = 4096 := by decide
  change (pgd_tmp_d + 4096).toNat = _
  rw [BitVec.toNat_add, offset]
  omega

theorem bootPteCell_eq {table : Word} {i : Nat}
    (room : table.toNat + 4 * i < 2 ^ 32) :
    bootPteCell table i = table.toNat + 4 * i := by
  have four : (4 : Word).toNat = 4 := by decide
  rw [bootPteCell, BitVec.toNat_add, BitVec.toNat_mul, four,
    BitVec.toNat_ofNat]
  omega

theorem bootPgdCell_eq (placed : TablesPlaced pgd_tmp_d) {i : Nat}
    (small : i < 4) :
    bootPgdCell (bootTables pgd_tmp_d) i =
      pgd_tmp_d.toNat + 3072 + 4 * i := by
  have inside := placed.inside
  have four : (4 : Word).toNat = 4 := by decide
  have offset : PAGE_OFFSET.toNat = 0xC0000000 := by decide
  have size : PAGE_MAP_SIZE.toNat = 0x400000 := by decide
  rw [bootPgdCell, BitVec.toNat_add, BitVec.toNat_mul, four, PGD_INDEX_toNat,
    BitVec.toNat_add, BitVec.toNat_mul, offset, size, BitVec.toNat_ofNat]
  change (pgd_tmp_d.toNat + _) % 2 ^ 32 = _
  omega

/-- The table of the `i`-th 4 MiB. -/
theorem bootTable_toNat (placed : TablesPlaced pgd_tmp_d) {i : Nat}
    (small : i < 4) :
    ((bootTables pgd_tmp_d).pte_high +
        PAGE_SIZE * BitVec.ofNat 32 i).toNat =
      pgd_tmp_d.toNat + 8192 + 4096 * i := by
  have inside := placed.inside
  rw [BitVec.toNat_add, BitVec.toNat_mul, pteHigh_toNat placed,
    PAGE_SIZE_toNat, BitVec.toNat_ofNat]
  omega

/-! ## The filled tables -/

theorem load32_bootPgdCell (placed : TablesPlaced pgd_tmp_d)
    (m : Memory) {i : Nat} (small : i < 4) :
    (mmapTmpPage (bootTables pgd_tmp_d) m).load32
        (bootPgdCell (bootTables pgd_tmp_d) i) =
      bootPgdValue (bootTables pgd_tmp_d) i := by
  have inside := placed.inside
  have lowTable := pteLow_toNat placed
  have highTable := pteHigh_toNat placed
  rw [mmapTmpPage, Memory.storeLoop_load32_of_apart,
    Memory.storeLoop_load32_of_apart]
  · apply Memory.storeLoop_load32
    · intro j k _ less below
      rw [bootPgdCell_eq placed (by omega), bootPgdCell_eq placed (by omega)]
      omega
    · exact Nat.zero_le _
    · omega
  · intro j _ below
    rw [bootPteCell_eq (by omega), bootPgdCell_eq placed small]
    omega
  · intro j _ below
    rw [bootPteCell_eq (by omega), bootPgdCell_eq placed small]
    omega

theorem load32_bootPteCell (placed : TablesPlaced pgd_tmp_d)
    (m : Memory) {i : Nat} (small : i < 4096) :
    (mmapTmpPage (bootTables pgd_tmp_d) m).load32
        (bootPteCell (bootTables pgd_tmp_d).pte_high i) =
      bootPteValue i := by
  have inside := placed.inside
  have highTable := pteHigh_toNat placed
  rw [mmapTmpPage]
  apply Memory.storeLoop_load32
  · intro j k _ less below
    rw [bootPteCell_eq (by omega), bootPteCell_eq (by omega)]
    omega
  · exact Nat.zero_le _
  · omega

/-- The first 16 MiB of physical memory are mapped behind `KERNBASE`. -/
theorem bootWalk_window (placed : TablesPlaced pgd_tmp_d)
    (m : Memory) {va : Word} {physical : Nat}
    (isVa : va.toNat = physical + 0xC0000000) (below : physical < 2 ^ 24) :
    TranslatesTo (bootWalk (bootTables pgd_tmp_d) m va) physical := by
  have inside := placed.inside
  have aligned := placed.aligned
  have highTable := pteHigh_toNat placed
  let q := physical / 2 ^ 22
  have qSmall : q < 4 := by omega
  have table := bootTable_toNat placed qSmall
  have pgdAddress :
      pgd_tmp_d.toNat + 4 * (va.toNat / 2 ^ 22) =
        bootPgdCell (bootTables pgd_tmp_d) q := by
    rw [bootPgdCell_eq placed qSmall]
    omega
  have pteAddress :
      ((bootTables pgd_tmp_d).pte_high +
          PAGE_SIZE * BitVec.ofNat 32 q).toNat +
        4 * (va.toNat / 4096 % 1024) =
      bootPteCell (bootTables pgd_tmp_d).pte_high (physical / 4096) := by
    rw [table, bootPteCell_eq (by omega), highTable]
    omega
  have delivered : physical =
      4096 * (physical / 4096) + va.toNat % 4096 := by
    omega
  rw [delivered]
  apply @walk_translatesTo _ _ _
    ((bootTables pgd_tmp_d).pte_high + PAGE_SIZE * BitVec.ofNat 32 q) _
    aligned (by omega)
  · rw [pgdAddress]
    exact load32_bootPgdCell placed m qSmall
  · rw [pteAddress]
    exact load32_bootPteCell placed m (by omega)
  · omega

end Cells

/-- Loading the final page tables changes no kernel address of the first
16 MiB: both maps take it to the same physical address, and the final tables
lie in the window that the boot tables map. -/
theorem boot_map_agrees {pgd_tmp_d kern_end max_phy_addr : Word}
    (linked : 0x100000 ≤ kern_end.toNat) (small : kern_end.toNat ≤ 0x800000)
    (placed : TablesPlaced pgd_tmp_d)
    (aligned : max_phy_addr.toNat % 4096 = 0) (m m' : Memory) {pa : Nat}
    (below : pa < min (2 ^ 24) max_phy_addr.toNat) :
    tablesEnd kern_end max_phy_addr ≤ 2 ^ 24 ∧
      TranslatesTo
        (bootWalk (bootTables pgd_tmp_d) m (KERNBASE + BitVec.ofNat 32 pa))
        pa ∧
      TranslatesTo
        (kernelWalk (layout kern_end max_phy_addr) m'
          (KERNBASE + BitVec.ofNat 32 pa)) pa := by
  have image : KernelImage kern_end := ⟨linked, by omega⟩
  have bound := max_phy_addr.isLt
  have base : KERNBASE.toNat = 0xC0000000 := by decide
  have isVa : (KERNBASE + BitVec.ofNat 32 pa).toNat = pa + 0xC0000000 := by
    rw [BitVec.toNat_add, base, BitVec.toNat_ofNat]
    omega
  refine ⟨?_, bootWalk_window placed m isVa (by omega),
    kernelWalk_mapped image (layout_tables image aligned) m' isVa (by omega)⟩
  unfold tablesEnd imageEnd tableCount
  omega

/-- A machine with 2 GiB of memory. -/
theorem boot_map_agrees_2GiB :
    TranslatesTo
        (bootWalk (bootTables 0x101000) zeroMemory
          (KERNBASE + BitVec.ofNat 32 0x123456)) 0x123456 ∧
      TranslatesTo
        (kernelWalk (layout 0x140000 0x80000000) zeroMemory
          (KERNBASE + BitVec.ofNat 32 0x123456)) 0x123456 :=
  (boot_map_agrees (by decide) (by decide) ⟨by decide, by decide⟩ (by decide)
    zeroMemory zeroMemory (by decide)).2

end Hlos.Boot
