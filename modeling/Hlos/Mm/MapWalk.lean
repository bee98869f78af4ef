import Hlos.Mm.MemoryMap

/-!
# The stride of the memory map loop

The `size` field of a memory map entry counts the bytes behind it, so that it
gives the way to the next entry.  It may exceed 20.  The loop in `init_pmm`
advances by the size of the C structure instead.
-/

set_option linter.style.nameCheck false

namespace Hlos.Mm

open Hlos.Lib Hlos.Include

/-! ## The addresses that the loop reads -/

/-- The addresses that the memory map loop takes for entries. -/
def visited (stop : Word) : (fuel : Nat) → (mmap : Word) → Option (List Word)
  | 0, mmap => if mmap < stop then none else some []
  | fuel + 1, mmap =>
      if mmap < stop then
        (visited stop fuel (mmap + mmapEntrySize)).map (mmap :: ·)
      else
        some []

/-- The loop is a fold over the entries at the visited addresses. -/
theorem scanMemoryMap_eq_visited (stop : Word) (m : Memory) (fuel : Nat)
    (mmap max_phy_addr : Word) :
    scanMemoryMap stop m fuel mmap max_phy_addr =
      (visited stop fuel mmap).map fun addrs =>
        addrs.foldl (fun max addr => manageEntry (mmapEntryAt addr m) max)
          max_phy_addr := by
  induction fuel generalizing mmap max_phy_addr with
  | zero =>
      by_cases more : mmap < stop
      · simp [scanMemoryMap, visited, more]
      · simp [scanMemoryMap, visited, more]
  | succ fuel inductionFuel =>
      by_cases more : mmap < stop
      · simp only [scanMemoryMap, visited, if_pos more, inductionFuel,
          Option.map_map]
        rfl
      · simp [scanMemoryMap, visited, more]

theorem visited_cases {stop mmap : Word} {fuel : Nat} {addrs : List Word}
    (visits : visited stop fuel mmap = some addrs) :
    (¬ mmap < stop ∧ addrs = []) ∨
      (mmap < stop ∧ ∃ left rest, addrs = mmap :: rest ∧
        visited stop left (mmap + mmapEntrySize) = some rest) := by
  by_cases more : mmap < stop
  · cases fuel with
    | zero =>
        rw [visited, if_pos more] at visits
        cases visits
    | succ left =>
        rw [visited, if_pos more] at visits
        rcases Option.map_eq_some_iff.mp visits with ⟨rest, visitsRest, rfl⟩
        exact Or.inr ⟨more, left, rest, rfl, visitsRest⟩
  · left
    cases fuel with
    | zero =>
        rw [visited, if_neg more] at visits
        exact ⟨more, (Option.some.inj visits).symm⟩
    | succ left =>
        rw [visited, if_neg more] at visits
        exact ⟨more, (Option.some.inj visits).symm⟩

theorem visited_cons {stop mmap head : Word} {fuel : Nat} {rest : List Word}
    (visits : visited stop fuel mmap = some (head :: rest)) :
    mmap < stop ∧ mmap = head ∧
      ∃ left, visited stop left (mmap + mmapEntrySize) = some rest := by
  rcases visited_cases visits with
    ⟨_, noEntry⟩ | ⟨more, left, others, isCons, visitsRest⟩
  · cases noEntry
  · cases isCons
    exact ⟨more, rfl, left, visitsRest⟩

theorem visited_nil {stop mmap : Word} {fuel : Nat}
    (visits : visited stop fuel mmap = some []) : ¬ mmap < stop := by
  rcases visited_cases visits with ⟨done, _⟩ | ⟨_, _, _, isCons, _⟩
  · exact done
  · cases isCons

/-! ## Buffers of entries -/

/-- The bytes from an entry to the next one. -/
def MmapEntry.stride (entry : MmapEntry) : Nat := entry.size.toNat + 4

def mapBytes : List MmapEntry → Nat
  | [] => 0
  | entry :: rest => entry.stride + mapBytes rest

def entryAddresses : (addr : Word) → List MmapEntry → List Word
  | _, [] => []
  | addr, entry :: rest =>
      addr :: entryAddresses (addr + (entry.size + 4)) rest

/-- Every entry lies where the one before it says. -/
def StridedAt (m : Memory) : (addr : Word) → List MmapEntry → Prop
  | _, [] => True
  | addr, entry :: rest =>
      mmapEntryAt addr m = entry ∧ StridedAt m (addr + (entry.size + 4)) rest

/-- A memory map in the multiboot format, in the 32-bit address space. -/
structure StridedBuffer (m : Memory) (mmap_addr mmap_len : Word)
    (entries : List MmapEntry) : Prop where
  entriesAt : StridedAt m mmap_addr entries
  minimal : ∀ entry, entry ∈ entries → 20 ≤ entry.size.toNat
  length : mmap_len.toNat = mapBytes entries
  inside : mmap_addr.toNat + mmap_len.toNat ≤ 2 ^ 32

theorem next_entry_toNat {addr : Word} {entry : MmapEntry}
    (room : addr.toNat + entry.stride < 2 ^ 32) :
    (addr + (entry.size + 4)).toNat = addr.toNat + entry.stride := by
  have four : (4 : Word).toNat = 4 := by decide
  unfold MmapEntry.stride at room ⊢
  rw [BitVec.toNat_add, BitVec.toNat_add, four]
  omega

/-- The loop advances by 24 bytes, which is the stride of an entry whose size
is 20. -/
theorem stride_eq_iff {entry : MmapEntry} :
    entry.size = 20 ↔ entry.stride = 24 := by
  unfold MmapEntry.stride
  constructor
  · intro isMinimal
    rw [isMinimal]
    rfl
  · intro stride
    apply BitVec.eq_of_toNat_eq
    change entry.size.toNat = 20
    omega

theorem foldl_entryAddresses {m : Memory} {addr : Word}
    {entries : List MmapEntry} (entriesAt : StridedAt m addr entries)
    (max_phy_addr : Word) :
    (entryAddresses addr entries).foldl
        (fun max at_ => manageEntry (mmapEntryAt at_ m) max) max_phy_addr =
      entries.foldl (fun max entry => manageEntry entry max) max_phy_addr := by
  induction entries generalizing addr max_phy_addr with
  | nil => rfl
  | cons entry rest inductionRest =>
      rw [entryAddresses, List.foldl_cons, List.foldl_cons, entriesAt.1]
      exact inductionRest entriesAt.2 _

/-! ## The two walks -/

section Walks

variable {stop addr : Word} {entries : List MmapEntry}

/-- Entries of the minimal size are visited one after the other. -/
theorem visited_of_minimal (packed : ∀ entry, entry ∈ entries →
      entry.size = 20) (reach : addr.toNat + mapBytes entries = stop.toNat)
    {fuel : Nat} (enough : entries.length ≤ fuel) :
    visited stop fuel addr = some (entryAddresses addr entries) := by
  induction entries generalizing addr fuel with
  | nil =>
      have done : ¬ addr < stop := by
        rw [BitVec.lt_def]
        simp only [mapBytes] at reach
        omega
      cases fuel <;> simp [visited, entryAddresses, done]
  | cons entry rest inductionRest =>
      have isMinimal : entry.size = 20 := packed entry List.mem_cons_self
      have stride := stride_eq_iff.mp isMinimal
      have bound := stop.isLt
      simp only [mapBytes] at reach
      simp only [List.length_cons] at enough
      obtain ⟨left, rfl⟩ : ∃ left, fuel = left + 1 :=
        Nat.exists_eq_add_one.mpr (by omega)
      have more : addr < stop := by
        rw [BitVec.lt_def]
        omega
      have next : addr + mmapEntrySize = addr + (entry.size + 4) := by
        rw [isMinimal]
        rfl
      have nextAt := @next_entry_toNat addr entry (by omega)
      have visitsRest := @inductionRest (addr + (entry.size + 4))
        (fun other member => packed other (List.mem_cons_of_mem entry member))
        (by omega) left (by omega)
      rw [visited, if_pos more, next, visitsRest]
      rfl

/-- A walk that visits the entries and nothing else finds only entries of the
minimal size. -/
theorem minimal_of_visited (minimal : ∀ entry, entry ∈ entries →
      20 ≤ entry.size.toNat)
    (reach : addr.toNat + mapBytes entries = stop.toNat) {fuel : Nat}
    (visits : visited stop fuel addr = some (entryAddresses addr entries)) :
    ∀ entry, entry ∈ entries → entry.size = 20 := by
  induction entries generalizing addr fuel with
  | nil =>
      intro entry member
      cases member
  | cons entry rest inductionRest =>
      have bound := stop.isLt
      simp only [mapBytes] at reach
      rw [entryAddresses] at visits
      obtain ⟨_, _, left, visitsRest⟩ := visited_cons visits
      have isMinimal : entry.size = 20 := by
        cases rest with
        | nil =>
            -- the walk has passed the end of the buffer
            have passed := visited_nil visitsRest
            have atLeast := minimal entry List.mem_cons_self
            have size : mmapEntrySize.toNat = 24 := by decide
            have next : (addr + mmapEntrySize).toNat = addr.toNat + 24 := by
              unfold MmapEntry.stride at reach
              rw [BitVec.toNat_add, size]
              omega
            rw [BitVec.lt_def, next] at passed
            rw [stride_eq_iff]
            simp only [mapBytes] at reach
            unfold MmapEntry.stride at reach ⊢
            omega
        | cons second others =>
            have same := (visited_cons visitsRest).2.1
            have strides : mmapEntrySize = entry.size + 4 :=
              (BitVec.add_right_inj addr).mp same
            have twenty : (20 : Word) + 4 = entry.size + 4 := strides
            exact ((BitVec.add_left_inj 4).mp twenty).symm
      have next : addr + mmapEntrySize = addr + (entry.size + 4) := by
        rw [isMinimal]
        rfl
      have nextAt := @next_entry_toNat addr entry (by omega)
      rw [next] at visitsRest
      have restMinimal := inductionRest
        (fun other member => minimal other (List.mem_cons_of_mem entry member))
        (by omega) visitsRest
      intro other member
      cases member with
      | head => exact isMinimal
      | tail _ restMember => exact restMinimal other restMember

end Walks

theorem length_le_mapBytes (entries : List MmapEntry) :
    entries.length ≤ mapBytes entries := by
  induction entries with
  | nil => exact Nat.le_refl 0
  | cons entry rest inductionRest =>
      simp only [List.length_cons, mapBytes, MmapEntry.stride]
      omega

/-- The loop of `init_pmm` visits the entries of the buffer, once each and in
order, and computes `max_phy_addr` from them alone. -/
def WalksEntries (m : Memory) (mmap_addr mmap_len : Word)
    (entries : List MmapEntry) : Prop :=
  visited (mmap_addr + mmap_len) mmap_len.toNat mmap_addr =
      some (entryAddresses mmap_addr entries) ∧
    maxPhyAddr mmap_addr mmap_len m =
      some (entries.foldl (fun max entry => manageEntry entry max) 0)

section Buffer

variable {m : Memory} {mmap_addr mmap_len : Word} {entries : List MmapEntry}

theorem walksEntries_iff_visited
    (buffer : StridedBuffer m mmap_addr mmap_len entries) :
    WalksEntries m mmap_addr mmap_len entries ↔
      visited (mmap_addr + mmap_len) mmap_len.toNat mmap_addr =
        some (entryAddresses mmap_addr entries) := by
  constructor
  · exact fun walks => walks.1
  · intro visits
    refine ⟨visits, ?_⟩
    rw [maxPhyAddr, scanMemoryMap_eq_visited, visits, Option.map_some,
      foldl_entryAddresses buffer.entriesAt]

/-- The walk follows the format on exactly the buffers whose entries all have
the minimal size, and which end below the end of the address space. -/
theorem memory_map_walk_iff
    (buffer : StridedBuffer m mmap_addr mmap_len entries) :
    WalksEntries m mmap_addr mmap_len entries ↔
      (∀ entry, entry ∈ entries → entry.size = 20) ∧
        (entries ≠ [] → mmap_addr.toNat + mmap_len.toNat < 2 ^ 32) := by
  have length := buffer.length
  have inside := buffer.inside
  rw [walksEntries_iff_visited buffer]
  by_cases empty : entries = []
  · have noBytes : mmap_len.toNat = 0 := by
      rw [length, empty]
      rfl
    have reach : mmap_addr.toNat + mapBytes entries =
        (mmap_addr + mmap_len).toNat := by
      have bound := mmap_addr.isLt
      rw [BitVec.toNat_add]
      omega
    have packed : ∀ entry, entry ∈ entries → entry.size = 20 := by
      rw [empty]
      intro entry member
      cases member
    have enough : entries.length ≤ mmap_len.toNat := by
      rw [empty]
      exact Nat.zero_le mmap_len.toNat
    have visits := visited_of_minimal packed reach enough
    exact ⟨fun _ => ⟨packed, fun someEntry => absurd empty someEntry⟩,
      fun _ => visits⟩
  · by_cases below : mmap_addr.toNat + mmap_len.toNat < 2 ^ 32
    · have reach : mmap_addr.toNat + mapBytes entries =
          (mmap_addr + mmap_len).toNat := by
        rw [BitVec.toNat_add]
        omega
      have enough := length_le_mapBytes entries
      exact ⟨fun visits =>
          ⟨minimal_of_visited buffer.minimal reach visits, fun _ => below⟩,
        fun condition =>
          visited_of_minimal condition.1 reach (by omega)⟩
    · -- the end of the buffer wraps around to zero
      have wrapped : mmap_addr + mmap_len = 0 := by
        apply BitVec.eq_of_toNat_eq
        rw [BitVec.toNat_add]
        change _ = 0
        omega
      obtain ⟨entry, rest, isCons⟩ := List.exists_cons_of_ne_nil empty
      constructor
      · intro visits
        rw [isCons, entryAddresses] at visits
        have more := (visited_cons visits).1
        rw [wrapped, BitVec.lt_def] at more
        exact absurd more (Nat.not_lt_zero _)
      · exact fun condition => absurd (condition.2 empty) below

end Buffer

theorem memory_map_walk_iff_plainMap :
    WalksEntries (memoryOfMap 0x9000 plainMap) 0x9000 48 plainMap ↔
      (∀ entry, entry ∈ plainMap → entry.size = 20) ∧
        (plainMap ≠ [] → (0x9000 : Word).toNat + (48 : Word).toNat < 2 ^ 32) :=
  memory_map_walk_iff ⟨by
    change mmapEntryAt _ _ = _ ∧ mmapEntryAt _ _ = _ ∧ True
    decide +kernel, by decide, by decide, by decide⟩

/-- The first entry has four bytes behind its type. -/
def extendedMap : List MmapEntry :=
  [⟨24, 0, 0, 0x9FC00, 0, 1⟩, ⟨20, 0x100000, 0, 0x7EE0000, 0, 1⟩]

/-- The two entries, and zero between them. -/
def memoryOfExtendedMap : Memory :=
  storeEntry 0x9000 ⟨24, 0, 0, 0x9FC00, 0, 1⟩
    (storeEntry 0x901C ⟨20, 0x100000, 0, 0x7EE0000, 0, 1⟩ ⟨fun _ => 0, []⟩)

/-- The loop misses the second entry of `extendedMap`: it reads the bytes
between the entries as the size of the next one. -/
theorem memory_map_stride_fixed :
    ¬ ∀ (m : Memory) (mmap_addr mmap_len : Word) (entries : List MmapEntry),
      StridedBuffer m mmap_addr mmap_len entries →
        WalksEntries m mmap_addr mmap_len entries := by
  intro general
  have walks := general memoryOfExtendedMap 0x9000 52 extendedMap
    ⟨by
      change mmapEntryAt _ _ = _ ∧ mmapEntryAt _ _ = _ ∧ True
      decide +kernel, by decide, by decide, by decide⟩
  have visits : visited (0x9000 + 52) (52 : Word).toNat 0x9000 =
      some [0x9000, 0x9018, 0x9030] := by
    decide
  exact absurd (visits.symm.trans walks.1) (by decide)

end Hlos.Mm
