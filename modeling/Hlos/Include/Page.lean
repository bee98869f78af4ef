import Mathlib.Data.Nat.Bitwise
import Mathlib.Tactic.NormNum

/-!
# `include/page.h`

The page arithmetic on 32-bit words, with the wrap-around of the hardware.
Every macro comes with its value as a natural number.
-/

set_option linter.style.nameCheck false

namespace Hlos.Include

/-- `uint32_t`, `unsigned long` and every pointer. -/
abbrev Word : Type := BitVec 32

def KERNBASE : Word := 0xC0000000

def PAGE_OFFSET : Word := KERNBASE

def PAGE_SHIFT : Nat := 12

def PAGE_SIZE : Word := 1 <<< PAGE_SHIFT

def PAGE_MASK : Word := ~~~(PAGE_SIZE - 1)

def PFN_ALIGN (x : Word) : Word := (x + (PAGE_SIZE - 1)) &&& PAGE_MASK

def PFN_UP (x : Word) : Word := (x + PAGE_SIZE - 1) >>> PAGE_SHIFT

def PFN_PHYS (x : Word) : Word := x <<< PAGE_SHIFT

def PAGE_MAP_SIZE : Word := 0x400000

def PGD_INDEX (x : Word) : Word := (x >>> 22) &&& 0x3FF

def PTE_INDEX (x : Word) : Word := (x >>> 12) &&& 0x3FF

def OFFSET_INDEX (x : Word) : Word := x &&& 0xFFF

def PAGE_PRESENT : Word := 1

def PAGE_WRITE : Word := 2

/-- The number of 32-bit entries of a page. -/
def PTE_SIZE : Word := PAGE_SIZE / 4

def __pa (x : Word) : Word := if x = 0 then 0 else x - KERNBASE

def __va (x : Word) : Word := if x = 0 then 0 else x + KERNBASE

/-- The physical address behind a kernel address in the boot page tables. -/
def bootPhysical (va : Word) : Nat := (va - KERNBASE).toNat

/-! ## Values -/

theorem and_low_mask (x : Word) {bits : Nat} (mask : Word)
    (isMask : mask.toNat = 2 ^ bits - 1) :
    (x &&& mask).toNat = x.toNat % 2 ^ bits := by
  rw [BitVec.toNat_and, isMask, Nat.and_two_pow_sub_one_eq_mod]

/-- `PAGE_MASK` rounds down to a page boundary. -/
theorem and_PAGE_MASK_toNat (x : Word) :
    (x &&& PAGE_MASK).toNat = x.toNat / 4096 * 4096 := by
  have high : PAGE_MASK.toNat = (2 ^ 20 - 1) * 2 ^ 12 := by decide
  have bound := x.isLt
  rw [BitVec.toNat_and, high]
  change x.toNat &&& (2 ^ 20 - 1) * 2 ^ 12 = x.toNat / 2 ^ 12 * 2 ^ 12
  apply Nat.eq_of_testBit_eq
  intro bit
  rw [Nat.testBit_and, Nat.testBit_mul_two_pow, Nat.testBit_mul_two_pow,
    Nat.testBit_two_pow_sub_one, Nat.testBit_div_two_pow]
  by_cases low : 12 ≤ bit
  · have position : bit - 12 + 12 = bit := Nat.sub_add_cancel low
    rw [position]
    by_cases small : bit - 12 < 20
    · simp [low, small]
    · have above : x.toNat.testBit bit = false := by
        apply Nat.testBit_lt_two_pow
        calc
          x.toNat < 2 ^ 32 := bound
          _ ≤ 2 ^ bit := Nat.pow_le_pow_right (by decide) (by omega)
      simp [above]
  · simp [low]

theorem PFN_ALIGN_toNat {x : Word} (small : x.toNat + 4095 < 2 ^ 32) :
    (PFN_ALIGN x).toNat = (x.toNat + 4095) / 4096 * 4096 := by
  have last : (PAGE_SIZE - 1).toNat = 4095 := by decide
  rw [PFN_ALIGN, and_PAGE_MASK_toNat, BitVec.toNat_add, last,
    Nat.mod_eq_of_lt small]

theorem PFN_UP_toNat {x : Word} (small : x.toNat + 4095 < 2 ^ 32) :
    (PFN_UP x).toNat = (x.toNat + 4095) / 4096 := by
  have regroup : x + PAGE_SIZE - 1 = x + (PAGE_SIZE - 1) := by
    unfold PAGE_SIZE
    bv_omega
  have last : (PAGE_SIZE - 1).toNat = 4095 := by decide
  rw [PFN_UP, regroup, BitVec.toNat_ushiftRight, BitVec.toNat_add, last,
    Nat.mod_eq_of_lt small, Nat.shiftRight_eq_div_pow]
  rfl

theorem PFN_PHYS_toNat {x : Word} (small : x.toNat < 2 ^ 20) :
    (PFN_PHYS x).toNat = x.toNat * 4096 := by
  rw [PFN_PHYS, BitVec.toNat_shiftLeft, Nat.shiftLeft_eq]
  change x.toNat * 4096 % 2 ^ 32 = x.toNat * 4096
  omega

theorem PGD_INDEX_toNat (x : Word) :
    (PGD_INDEX x).toNat = x.toNat / 2 ^ 22 := by
  have bound := x.isLt
  rw [PGD_INDEX, @and_low_mask _ 10 _ (by decide), BitVec.toNat_ushiftRight,
    Nat.shiftRight_eq_div_pow]
  omega

theorem PTE_INDEX_toNat (x : Word) :
    (PTE_INDEX x).toNat = x.toNat / 4096 % 1024 := by
  rw [PTE_INDEX, @and_low_mask _ 10 _ (by decide), BitVec.toNat_ushiftRight,
    Nat.shiftRight_eq_div_pow]
  rfl

theorem OFFSET_INDEX_toNat (x : Word) :
    (OFFSET_INDEX x).toNat = x.toNat % 4096 :=
  @and_low_mask _ 12 _ (by decide)

/-- `__va` of a physical address in the first GiB. -/
theorem __va_toNat {x : Word} (positive : 0 < x.toNat)
    (low : x.toNat < 2 ^ 30) : (__va x).toNat = x.toNat + 0xC0000000 := by
  have nonzero : x ≠ 0 := by
    intro zero
    rw [zero] at positive
    exact absurd positive (by decide)
  have base : KERNBASE.toNat = 0xC0000000 := by decide
  rw [__va, if_neg nonzero, BitVec.toNat_add, base]
  omega

/-- `__pa` of a kernel address. -/
theorem __pa_toNat {x : Word} (high : 0xC0000000 ≤ x.toNat) :
    (__pa x).toNat = x.toNat - 0xC0000000 := by
  have bound := x.isLt
  have nonzero : x ≠ 0 := by
    intro zero
    rw [zero] at high
    exact absurd high (by decide)
  have base : KERNBASE.toNat = 0xC0000000 := by decide
  rw [__pa, if_neg nonzero, BitVec.toNat_sub, base]
  omega

theorem PTE_SIZE_toNat : PTE_SIZE.toNat = 1024 := by decide

theorem PAGE_SIZE_toNat : PAGE_SIZE.toNat = 4096 := by decide

end Hlos.Include
