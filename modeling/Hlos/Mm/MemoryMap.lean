import Hlos.Mm.Pmm

/-!
# The memory map

The loop of `init_pmm` reads an entry every 24 bytes and keeps the end of the
last available one that starts at or above 1 MiB, its bank.  Other entries are
not looked at.
-/

namespace Hlos.Mm

open Hlos.Lib Hlos.Include

/-- The entries lie one behind the other from `addr` on. -/
def MapAt (m : Memory) (addr : Word) : List MmapEntry → Prop
  | [] => True
  | entry :: rest =>
      mmapEntryAt addr m = entry ∧ MapAt m (addr + mmapEntrySize) rest

/-- What the loop reads as entries, the last of them perhaps in part behind the
buffer. -/
def readEntries (m : Memory) (mmap_addr mmap_len : Word) : List MmapEntry :=
  (List.range ((mmap_len.toNat + 23) / 24)).map fun index =>
    mmapEntryAt (mmap_addr + BitVec.ofNat 32 (24 * index)) m

theorem mapAt_range (m : Memory) (count : Nat) (addr : Word) :
    MapAt m addr ((List.range count).map fun index =>
      mmapEntryAt (addr + BitVec.ofNat 32 (24 * index)) m) := by
  induction count generalizing addr with
  | zero => trivial
  | succ count inductionCount =>
      rw [List.range_succ_eq_map, List.map_cons, List.map_map]
      have next : ∀ index : Nat,
          addr + BitVec.ofNat 32 (24 * (index + 1)) =
            addr + mmapEntrySize + BitVec.ofNat 32 (24 * index) := by
        intro index
        rw [Nat.mul_add, Nat.add_comm (24 * index), BitVec.ofNat_add,
          BitVec.add_assoc]
        rfl
      refine ⟨by simp, ?_⟩
      simpa only [Function.comp_def, Nat.succ_eq_add_one, next] using
        inductionCount (addr + mmapEntrySize)

/-- The loop visits the entries in order, up to the first one that does not
start in the buffer. -/
theorem scanMemoryMap_eq {m : Memory} {stop : Word}
    (entries : List MmapEntry) (fuel : Nat) (mmap max_phy_addr : Word)
    (at_ : MapAt m mmap entries)
    (reach : stop.toNat ≤ mmap.toNat + 24 * entries.length)
    (last : entries ≠ [] →
      mmap.toNat + 24 * entries.length < stop.toNat + 24)
    (inside : mmap.toNat + 24 * entries.length < 2 ^ 32)
    (enough : entries.length ≤ fuel) :
    scanMemoryMap stop m fuel mmap max_phy_addr =
      some (entries.foldl (fun max entry => manageEntry entry max)
        max_phy_addr) := by
  induction entries generalizing fuel mmap max_phy_addr with
  | nil =>
      have done : ¬ mmap < stop := by
        rw [BitVec.lt_def]
        simp only [List.length_nil] at reach
        omega
      cases fuel <;> simp [scanMemoryMap, done]
  | cons entry rest inductionRest =>
      obtain ⟨isEntry, restAt⟩ := at_
      have last := last (List.cons_ne_nil entry rest)
      simp only [List.length_cons] at reach last inside enough
      obtain ⟨fuel, rfl⟩ : ∃ left, fuel = left + 1 :=
        Nat.exists_eq_add_one.mpr (by omega)
      have more : mmap < stop := by
        rw [BitVec.lt_def]
        omega
      have next : (mmap + mmapEntrySize).toNat = mmap.toNat + 24 := by
        have size : mmapEntrySize.toNat = 24 := by decide
        rw [BitVec.toNat_add, size]
        omega
      rw [scanMemoryMap, if_pos more, isEntry, List.foldl_cons]
      exact inductionRest fuel _ _ restAt (by omega) (fun _ => by omega)
        (by omega) (by omega)

/-- The last available entry that starts at or above 1 MiB. -/
def bankOf : List MmapEntry → Option MmapEntry
  | [] => none
  | entry :: rest =>
      match bankOf rest with
      | some bank => some bank
      | none => if Manageable entry then some entry else none

theorem foldl_manageEntry (entries : List MmapEntry) (max_phy_addr : Word) :
    entries.foldl (fun max entry => manageEntry entry max) max_phy_addr =
      match bankOf entries with
      | some bank => (bank.base_addr_low + bank.length_low) &&& PAGE_MASK
      | none => max_phy_addr := by
  induction entries generalizing max_phy_addr with
  | nil => rfl
  | cons entry rest inductionRest =>
      rw [List.foldl_cons, inductionRest, bankOf]
      cases bankOf rest with
      | some bank => rfl
      | none =>
          by_cases usable : Manageable entry
          · simp [manageEntry, usable]
          · simp [manageEntry, usable]

/-- The end of the bank, or zero. -/
def bankEnd (entries : List MmapEntry) : Word :=
  match bankOf entries with
  | some bank => (bank.base_addr_low + bank.length_low) &&& PAGE_MASK
  | none => 0

theorem bankEnd_aligned (entries : List MmapEntry) :
    (bankEnd entries).toNat % 4096 = 0 := by
  rw [bankEnd]
  cases bankOf entries with
  | none => rfl
  | some bank =>
      rw [and_PAGE_MASK_toNat]
      exact Nat.mul_mod_left _ _

/-- `max_phy_addr` is the end of the bank among what the loop reads. -/
theorem maxPhyAddr_eq (m : Memory) {mmap_addr mmap_len : Word}
    (inside : mmap_addr.toNat + mmap_len.toNat + 24 ≤ 2 ^ 32) :
    maxPhyAddr mmap_addr mmap_len m =
      some (bankEnd (readEntries m mmap_addr mmap_len)) := by
  have reach : (mmap_addr + mmap_len).toNat =
      mmap_addr.toNat + mmap_len.toNat := by
    rw [BitVec.toNat_add]
    omega
  have length : (readEntries m mmap_addr mmap_len).length =
      (mmap_len.toNat + 23) / 24 := by
    simp [readEntries]
  have scan := @scanMemoryMap_eq m (mmap_addr + mmap_len)
    (readEntries m mmap_addr mmap_len) mmap_len.toNat mmap_addr 0
    (mapAt_range m _ mmap_addr) (by omega) (fun some_ => by
      have positive := List.length_pos_iff.mpr some_
      omega) (by omega) (by omega)
  rw [maxPhyAddr, scan, foldl_manageEntry]
  rfl

/-! ## Usable memory -/

/-- The 64-bit base of a region. -/
def MmapEntry.base (entry : MmapEntry) : Nat :=
  entry.base_addr_low.toNat + 2 ^ 32 * entry.base_addr_high.toNat

/-- The 64-bit length of a region. -/
def MmapEntry.length (entry : MmapEntry) : Nat :=
  entry.length_low.toNat + 2 ^ 32 * entry.length_high.toNat

/-- The bytes `[addr, addr + count)` lie in an available region. -/
def Usable (entries : List MmapEntry) (addr count : Nat) : Prop :=
  ∃ entry, entry ∈ entries ∧ entry.type = 1 ∧ entry.base ≤ addr ∧
    addr + count ≤ entry.base + entry.length

instance (entries : List MmapEntry) (addr count : Nat) :
    Decidable (Usable entries addr count) :=
  inferInstanceAs (Decidable (∃ entry, entry ∈ entries ∧ _))

/-- All managed frames are usable memory. -/
def OnlyUsableFrames (entries : List MmapEntry) (l : Layout) : Prop :=
  ∀ pfn, pfn < l.phy_page_count.toNat →
    Usable entries (frameAddress l pfn) 4096

/-! ## Maps in memory -/

def storeEntry (mmap : Word) (entry : MmapEntry) (m : Memory) : Memory :=
  let m := m.store32 mmap.toNat entry.size
  let m := m.store32 (mmap + 4).toNat entry.base_addr_low
  let m := m.store32 (mmap + 8).toNat entry.base_addr_high
  let m := m.store32 (mmap + 12).toNat entry.length_low
  let m := m.store32 (mmap + 16).toNat entry.length_high
  m.store32 (mmap + 20).toNat entry.type

/-- A memory that holds nothing but the entries of a map. -/
def memoryOfMap (mmap : Word) : List MmapEntry → Memory
  | [] => ⟨fun _ => 0, []⟩
  | entry :: rest =>
      storeEntry mmap entry (memoryOfMap (mmap + mmapEntrySize) rest)

/-- 128 MiB of memory with the hole below 1 MiB. -/
def plainMap : List MmapEntry :=
  [⟨20, 0, 0, 0x9FC00, 0, 1⟩, ⟨20, 0x100000, 0, 0x7EE0000, 0, 1⟩]

end Hlos.Mm
