import Hlos.Kernel.SymbolTable
import Hlos.Mm.PagedMemory

/-!
# Symbol names in boot-loader memory

`kallsyms_name` points into the string table where the boot loader put it.
`init_pmm` does not look at the multiboot information for it: it claims the
memory behind the kernel image up to `max_phy_addr`.  The names survive exactly
where the table is not claimed.

The machine of this module performs the stores of `init_pmm`, of the page
allocator and of the owners of allocated pages, in any order.  Only `slob_init`
waits for the page allocator and for the page tables, since its header goes
where these put it.
-/

namespace Hlos.Kernel

open Hlos.Lib Hlos.Include Hlos.Mm

/-- Physical memory and the page allocator. -/
structure SystemState (frames : Nat) where
  memory : Memory
  buddy : BuddyState frames

inductive SystemOp where
  | clearFrames
  | mapMemory
  | slobInit (nullPfn slobHead : Word)
  | frameStore (page offset : Nat) (value : BitVec 8)
  | variableStore (addr : Nat) (value : BitVec 8)
  | call (op : BuddyOp)
  | pageStore (addr : Nat) (value : BitVec 8)
deriving DecidableEq, Repr

/-- The frames that `init_pmm` gives to the page allocator. -/
abbrev managedCount (kern_end max_phy_addr : Word) : Nat :=
  (layout kern_end max_phy_addr).phy_page_count.toNat

/-- The start of the frame array, where the boot page tables map it. -/
def frameArray (l : Layout) : Nat := bootPhysical l.phy_pages

section System

variable (kern_end max_phy_addr : Word)

/-- `slob_init` is called behind `pmm_free_pages` and `init_kernel_vmm`, with
the static list head empty.  Frame structures are written below the managed
count only, variables lie in the kernel image, and pages are written by the
owners of their blocks. -/
def systemLegal (s : SystemState (managedCount kern_end max_phy_addr)) :
    SystemOp → Prop
  | .clearFrames => True
  | .mapMemory => True
  | .slobInit _ slobHead =>
      s.buddy = bootState _ ∧
        TablesFilled (layout kern_end max_phy_addr) s.memory ∧
        0xC0100000 ≤ slobHead.toNat ∧
        slobHead.toNat + 8 ≤ kern_end.toNat + 0xC0000000 ∧
        s.memory.load32 (bootPhysical slobHead + 4) = slobHead
  | .frameStore page offset _ =>
      page < managedCount kern_end max_phy_addr ∧
        offset < pageStructSize.toNat
  | .variableStore addr _ => 0x100000 ≤ addr ∧ addr < kern_end.toNat
  | .call op => buddyLegal s.buddy op
  | .pageStore addr _ => ∃ entry, entry ∈ s.buddy.allocated ∧
      frameAddress (layout kern_end max_phy_addr) entry.1 ≤ addr ∧
      addr < frameAddress (layout kern_end max_phy_addr)
        (entry.1 + 2 ^ entry.2)

def systemStep (s : SystemState (managedCount kern_end max_phy_addr)) :
    SystemOp → Option (SystemState (managedCount kern_end max_phy_addr))
  | .clearFrames =>
      let l := layout kern_end max_phy_addr
      some ⟨s.memory.memset 0 (l.pfn_pages <<< PAGE_SHIFT).toNat
        (frameArray l), s.buddy⟩
  | .mapMemory =>
      some ⟨initKernelVmm (layout kern_end max_phy_addr) s.memory, s.buddy⟩
  | .slobInit nullPfn slobHead => do
      let l := layout kern_end max_phy_addr
      let (block, _) ← __slobAllocPages l nullPfn SLOB_PAGE_ORDER s.buddy.zone
      let buddy ← buddyStep s.buddy (.alloc SLOB_PAGE_ORDER)
      let paged ← PagedMemory.firstBlock slobHead block
        ⟨s.memory, __pa l.kern_pgd⟩
      return ⟨paged.memory, buddy⟩
  | .frameStore page offset value =>
      some ⟨s.memory.store8 (frameArray (layout kern_end max_phy_addr) +
        pageStructSize.toNat * page + offset) value, s.buddy⟩
  | .variableStore addr value => some ⟨s.memory.store8 addr value, s.buddy⟩
  | .call op => do
      let buddy ← buddyStep s.buddy op
      some ⟨s.memory, buddy⟩
  | .pageStore addr value => some ⟨s.memory.store8 addr value, s.buddy⟩

def systemMachine :
    Machine (SystemState (managedCount kern_end max_phy_addr)) SystemOp where
  legal := systemLegal kern_end max_phy_addr
  step := systemStep kern_end max_phy_addr

/-- The page allocator after `pmm_free_pages`. -/
def systemStart (m : Memory) :
    SystemState (managedCount kern_end max_phy_addr) :=
  ⟨m, bootState _⟩

/-- The bytes that `init_pmm` claims: the directory entries and table entries
it fills in, the frame array and the managed frames. -/
def claimedBytes : Set Nat :=
  {position |
    (imageEnd kern_end + 3072 ≤ position ∧
      position < imageEnd kern_end + 3072 + 4 * tableCount max_phy_addr) ∨
    (imageEnd kern_end + 4096 ≤ position ∧
      position < imageEnd kern_end + 4096 + 4 * (max_phy_addr.toNat / 4096)) ∨
    (tablesEnd kern_end max_phy_addr ≤ position ∧
      position < max_phy_addr.toNat)}

/-- The state after `init_kernel_vmm` alone. -/
theorem mapMemory_reaches (m : Memory) :
    (systemMachine kern_end max_phy_addr).Reaches
      (systemStart kern_end max_phy_addr m)
      ⟨initKernelVmm (layout kern_end max_phy_addr) m, bootState _⟩ :=
  @Machine.Reaches.step _ _ _ _ _ _ .mapMemory .start trivial rfl

/-- A byte of memory that kernel addresses reach and that is neither claimed
nor part of the kernel image. -/
structure Spared (position : Nat) : Prop where
  present : position < max_phy_addr.toNat
  low : position < 2 ^ 30
  unclaimed : position ∉ claimedBytes kern_end max_phy_addr
  outside : position < 0x100000 ∨ kern_end.toNat ≤ position

end System

/-- The bytes of the string table that `load_ksym` finds. -/
def nameTable (mb : Multiboot) (stack : Word × Word) (m : Memory)
    (size : Nat) : Set Nat :=
  {position |
    bootPhysical (symbolSource mb stack m).strtab_offset ≤ position ∧
    position < bootPhysical (symbolSource mb stack m).strtab_offset + size}

/-- A string in the table, given without its NUL. -/
def StringIn (table : Set Nat) (m : Memory) (name : Word) :
    List (BitVec 8) → Prop
  | [] => bootPhysical name ∈ table ∧ m.load8 (bootPhysical name) = 0
  | c :: rest =>
      bootPhysical name ∈ table ∧ m.load8 (bootPhysical name) = c ∧ c ≠ 0 ∧
        StringIn table m (name + 1) rest

@[simp]
theorem stringIn_nil {table : Set Nat} {m : Memory} {name : Word} :
    StringIn table m name [] ↔
      bootPhysical name ∈ table ∧ m.load8 (bootPhysical name) = 0 :=
  Iff.rfl

theorem StringIn.congr {table : Set Nat} {m m' : Memory}
    (same : ∀ position, position ∈ table →
      m'.bytes position = m.bytes position)
    {string : List (BitVec 8)} {name : Word}
    (isString : StringIn table m name string) :
    StringIn table m' name string := by
  induction string generalizing name with
  | nil => exact ⟨isString.1, (same _ isString.1).trans isString.2⟩
  | cons c rest inductionRest =>
      exact ⟨isString.1, (same _ isString.1).trans isString.2.1,
        isString.2.2.1, inductionRest isString.2.2.2⟩

/-! ## What is written -/

section Writes

variable {kern_end max_phy_addr : Word}

/-- The bytes that the system may write. -/
def ownBytes (kern_end max_phy_addr : Word) : Set Nat :=
  {position | position ∈ claimedBytes kern_end max_phy_addr ∨
    (0x100000 ≤ position ∧ position < kern_end.toNat)}

theorem initKernelVmm_writes (image : KernelImage kern_end)
    (top : MemoryTop kern_end max_phy_addr) (m : Memory) :
    Memory.WritesWithin (ownBytes kern_end max_phy_addr) m
      (initKernelVmm (layout kern_end max_phy_addr) m) := by
  have spec := layout_tables image top.aligned
  have topBound := max_phy_addr.isLt
  have countBound : tableCount max_phy_addr ≤ 1024 := by
    unfold tableCount
    omega
  have frames : (PFN_UP (layout kern_end max_phy_addr).max_phy_addr).toNat =
      max_phy_addr.toNat / 4096 := tableFrames_eq top.aligned
  rw [initKernelVmm, frames, spec.pte_pages]
  refine (Memory.storeLoop_writesWithin ?_).trans
    (Memory.storeLoop_writesWithin ?_)
  · intro idx _ below offset bound
    rw [pgdCell_eq image spec (by omega)]
    exact Or.inl (Or.inl ⟨by omega, by omega⟩)
  · intro i _ below offset bound
    rw [pteCell_eq image spec (by omega)]
    exact Or.inl (Or.inr (Or.inl ⟨by omega, by omega⟩))

theorem frameArray_eq (image : KernelImage kern_end)
    (top : MemoryTop kern_end max_phy_addr) :
    frameArray (layout kern_end max_phy_addr) =
      tablesEnd kern_end max_phy_addr := by
  have spec := layout_spec image top
  have low := @tablesEnd_lt kern_end max_phy_addr image
  have base : KERNBASE.toNat = 0xC0000000 := by decide
  rw [frameArray, bootPhysical, BitVec.toNat_sub, base, spec.phy_pages]
  omega

theorem clearFrames_writes (image : KernelImage kern_end)
    (top : MemoryTop kern_end max_phy_addr) (m : Memory) :
    Memory.WritesWithin (ownBytes kern_end max_phy_addr) m
      (m.memset 0
        ((layout kern_end max_phy_addr).pfn_pages <<< PAGE_SHIFT).toNat
        (frameArray (layout kern_end max_phy_addr))) := by
  have spec := layout_spec image top
  have min := spec.min_phy_addr
  have managed := spec.managed
  have topBound := max_phy_addr.isLt
  have bytes :
      ((layout kern_end max_phy_addr).pfn_pages <<< PAGE_SHIFT).toNat =
        (layout kern_end max_phy_addr).pfn_pages.toNat * 4096 :=
    PFN_PHYS_toNat (by omega)
  rw [bytes, frameArray_eq image top]
  apply Memory.memset_writesWithin
  intro offset bound
  exact Or.inl (Or.inr (Or.inr ⟨by omega, by omega⟩))

/-- The invariant of the system: the page allocator is consistent, and only
own bytes were written. -/
def SystemInvariant (m₀ : Memory)
    (s : SystemState (managedCount kern_end max_phy_addr)) : Prop :=
  BuddyInvariant s.buddy ∧
    Memory.WritesWithin (ownBytes kern_end max_phy_addr) m₀ s.memory

theorem systemStart_invariant (m : Memory) :
    SystemInvariant m (systemStart kern_end max_phy_addr m) :=
  ⟨bootState_invariant _, Memory.WritesWithin.refl _ m⟩

/-- A store to its own bytes leaves the allocator alone. -/
theorem SystemInvariant.written {m₀ m : Memory}
    {s : SystemState (managedCount kern_end max_phy_addr)}
    (inv : SystemInvariant m₀ s)
    (writes :
      Memory.WritesWithin (ownBytes kern_end max_phy_addr) s.memory m) :
    SystemInvariant m₀ ⟨m, s.buddy⟩ :=
  ⟨inv.1, inv.2.trans writes⟩

/-- The header words of an arena that fits. -/
theorem arena_reached (image : KernelImage kern_end)
    (top : MemoryTop kern_end max_phy_addr)
    (fits : ArenaFits (layout kern_end max_phy_addr)) {offset : Nat}
    (small : offset ≤ 8) :
    PagedMemory.Reached kern_end max_phy_addr
      (pageAddress (layout kern_end max_phy_addr) (BitVec.ofNat 32
        (arenaPage (managedCount kern_end max_phy_addr))) +
          BitVec.ofNat 32 offset)
      (frameAddress (layout kern_end max_phy_addr)
        (arenaPage (managedCount kern_end max_phy_addr)) + offset) := by
  have spec := layout_spec image top
  have min := spec.min_phy_addr
  have managed := spec.managed
  have inside := arenaPage_inside fits.enough
  have order : 2 ^ SLOB_PAGE_ORDER = 1024 := rfl
  have mapped := fits.mapped
  unfold frameAddress at mapped
  refine ⟨fits.address image top (by omega), ?_, ?_, Or.inr ?_⟩ <;>
    unfold managedCount frameAddress <;> omega

/-- The words of the static list head. -/
theorem head_reached (image : KernelImage kern_end)
    (top : MemoryTop kern_end max_phy_addr) {slobHead : Word}
    (low : 0xC0100000 ≤ slobHead.toNat)
    (high : slobHead.toNat + 8 ≤ kern_end.toNat + 0xC0000000) {offset : Nat}
    (small : offset ≤ 4) :
    PagedMemory.Reached kern_end max_phy_addr
      (slobHead + BitVec.ofNat 32 offset) (bootPhysical slobHead + offset) := by
  have imageLow := image.low
  have above := top.above
  have base : KERNBASE.toNat = 0xC0000000 := by decide
  have physical : bootPhysical slobHead = slobHead.toNat - 0xC0000000 := by
    rw [bootPhysical, BitVec.toNat_sub, base]
    omega
  have isEnd : kern_end.toNat ≤ imageEnd kern_end := by
    unfold imageEnd
    omega
  have bound := slobHead.isLt
  have tables : imageEnd kern_end ≤ tablesEnd kern_end max_phy_addr := by
    unfold tablesEnd
    omega
  refine ⟨?_, by omega, by omega, Or.inl (by omega)⟩
  rw [BitVec.toNat_add, BitVec.toNat_ofNat, physical]
  omega

/-- The arena is delivered, and its header and the list head are own bytes. -/
theorem SystemInvariant.slobInit (image : KernelImage kern_end)
    (top : MemoryTop kern_end max_phy_addr)
    (fits : ArenaFits (layout kern_end max_phy_addr)) {m₀ : Memory}
    {s : SystemState (managedCount kern_end max_phy_addr)}
    (inv : SystemInvariant m₀ s) {nullPfn slobHead : Word}
    (legal : systemLegal kern_end max_phy_addr s
      (.slobInit nullPfn slobHead)) :
    ∃ s', systemStep kern_end max_phy_addr s (.slobInit nullPfn slobHead) =
      some s' ∧ SystemInvariant m₀ s' := by
  obtain ⟨boot, filled, low, high, empty⟩ := legal
  have tables := layout_tables image top.aligned
  obtain ⟨free, handed⟩ :=
    bootZone_handedOut (managedCount kern_end max_phy_addr)
  obtain ⟨z', delivered, _⟩ := boot_arena handed fits.enough
  obtain ⟨buddy, taken, buddyInv⟩ := buddyMachine_keeps _ s.buddy
    (.alloc SLOB_PAGE_ORDER) inv.1 trivial
  have taken : buddyStep s.buddy (.alloc SLOB_PAGE_ORDER) = some buddy := taken
  have isZone : s.buddy.zone =
      bootZone (managedCount kern_end max_phy_addr) := by
    rw [boot]
    rfl
  have spec := layout_spec image top
  have min := spec.min_phy_addr
  have managed := spec.managed
  have inside := arenaPage_inside fits.enough
  have order : 2 ^ SLOB_PAGE_ORDER = 1024 := rfl
  have base : KERNBASE.toNat = 0xC0000000 := by decide
  have physical : bootPhysical slobHead = slobHead.toNat - 0xC0000000 := by
    rw [bootPhysical, BitVec.toNat_sub, base]
    omega
  have isEnd : kern_end.toNat ≤ tablesEnd kern_end max_phy_addr := by
    unfold tablesEnd imageEnd
    omega
  have inPlace : PagedMemory.KernelTables (layout kern_end max_phy_addr)
      ⟨s.memory, __pa (layout kern_end max_phy_addr).kern_pgd⟩ := ⟨rfl, filled⟩
  obtain ⟨paged, wrote, _, writes⟩ := inPlace.firstBlock_spec image tables
    (fun i small => arena_reached image top fits (by omega))
    (fun i small => head_reached image top low high (by omega))
    (by unfold frameAddress; omega) empty
  refine ⟨⟨paged.memory, buddy⟩, ?_, buddyInv, inv.2.trans (writes.mono ?_)⟩
  · simp only [systemStep, __slobAllocPages, isZone, delivered, pageToPfn,
      taken, wrote, Option.bind_eq_bind, Option.bind_some, Option.pure_def]
  · rintro position (⟨first, last⟩ | ⟨first, last⟩)
    · unfold frameAddress at first last
      unfold managedCount at first last
      exact Or.inl (Or.inr (Or.inr ⟨by omega, by omega⟩))
    · exact Or.inr ⟨by omega, by omega⟩

theorem systemMachine_keeps (image : KernelImage kern_end)
    (top : MemoryTop kern_end max_phy_addr)
    (fits : ArenaFits (layout kern_end max_phy_addr)) (m₀ : Memory) :
    (systemMachine kern_end max_phy_addr).Keeps (SystemInvariant m₀) := by
  have spec := layout_spec image top
  have min := spec.min_phy_addr
  have managed := spec.managed
  rintro s op inv legal
  cases op with
  | clearFrames =>
      exact ⟨_, rfl, inv.written (clearFrames_writes image top s.memory)⟩
  | mapMemory =>
      exact ⟨_, rfl, inv.written (initKernelVmm_writes image top s.memory)⟩
  | slobInit nullPfn slobHead => exact inv.slobInit image top fits legal
  | frameStore page offset value =>
      obtain ⟨pageBound, offsetBound⟩ := legal
      refine ⟨_, rfl, inv.written (Memory.store8_writesWithin value _ ?_)⟩
      obtain ⟨_, pages, count⟩ := frame_array_size kern_end max_phy_addr
      have twenty : pageStructSize.toNat = 20 := by decide
      rw [twenty] at offsetBound
      unfold managedCount at pageBound
      rw [twenty, frameArray_eq image top]
      exact Or.inl (Or.inr (Or.inr ⟨by omega, by omega⟩))
  | variableStore addr value =>
      exact ⟨_, rfl,
        inv.written (Memory.store8_writesWithin value _ (Or.inr legal))⟩
  | call op =>
      obtain ⟨buddy, run, buddyInv⟩ :=
        buddyMachine_keeps _ s.buddy op inv.1 legal
      have run : buddyStep s.buddy op = some buddy := run
      refine ⟨⟨s.memory, buddy⟩, ?_, buddyInv, inv.2⟩
      change (buddyStep s.buddy op).bind _ = _
      rw [run, Option.bind_some]
  | pageStore addr value =>
      obtain ⟨entry, member, low, high⟩ := legal
      obtain ⟨free, consistent⟩ := inv.1
      have inside := consistent.tiling.inside member
      refine ⟨_, rfl, inv.written (Memory.store8_writesWithin value _ ?_)⟩
      unfold managedCount at inside
      unfold frameAddress at low high
      exact Or.inl (Or.inr (Or.inr ⟨by omega, by omega⟩))

/-- A spared byte is outside every managed frame. -/
theorem Spared.unmanaged (image : KernelImage kern_end)
    (top : MemoryTop kern_end max_phy_addr) {position pfn : Nat}
    (spared : Spared kern_end max_phy_addr position)
    (_ : pfn < managedCount kern_end max_phy_addr) :
    position < frameAddress (layout kern_end max_phy_addr) pfn ∨
      frameAddress (layout kern_end max_phy_addr) (pfn + 1) ≤ position := by
  have spec := layout_spec image top
  have min := spec.min_phy_addr
  have managed := spec.managed
  have present := spared.present
  have unclaimed : ¬ tablesEnd kern_end max_phy_addr ≤ position :=
    fun above => spared.unclaimed (Or.inr (Or.inr ⟨above, present⟩))
  left
  unfold frameAddress
  omega

theorem Spared.not_own {position : Nat}
    (spared : Spared kern_end max_phy_addr position) :
    position ∉ ownBytes kern_end max_phy_addr := by
  intro own
  cases own with
  | inl claimed => exact spared.unclaimed claimed
  | inr inImage =>
      cases spared.outside with
      | inl below => exact absurd inImage.1 (by omega)
      | inr above => exact absurd inImage.2 (by omega)

/-- The new page tables map a spared byte to its kernel address. -/
theorem Spared.translates (image : KernelImage kern_end)
    (top : MemoryTop kern_end max_phy_addr) {position : Nat}
    (spared : Spared kern_end max_phy_addr position) (m : Memory) :
    TranslatesTo (kernelWalk (layout kern_end max_phy_addr) m
      (BitVec.ofNat 32 (position + 0xC0000000))) position := by
  have low := spared.low
  apply kernelWalk_mapped image (layout_tables image top.aligned) m
  · rw [BitVec.toNat_ofNat]
    exact Nat.mod_eq_of_lt (by omega)
  · exact spared.present

end Writes

/-! ## The names -/

/-- Behind `init_kernel_vmm` the heap may be started. -/
theorem slobInit_legal {kern_end max_phy_addr : Word}
    (image : KernelImage kern_end) (top : MemoryTop kern_end max_phy_addr)
    (m : Memory) (nullPfn : Word) {slobHead : Word}
    (low : 0xC0100000 ≤ slobHead.toNat)
    (high : slobHead.toNat + 8 ≤ kern_end.toNat + 0xC0000000)
    (empty : (initKernelVmm (layout kern_end max_phy_addr) m).load32
      (bootPhysical slobHead + 4) = slobHead) :
    (systemMachine kern_end max_phy_addr).legal
      ⟨initKernelVmm (layout kern_end max_phy_addr) m, bootState _⟩
      (.slobInit nullPfn slobHead) :=
  ⟨rfl, initKernelVmm_filled image (layout_tables image top.aligned) m, low,
    high, empty⟩

/-- The sample tables, with the static list head of the heap empty. -/
def readyMemory : Memory :=
  (sampleMemory.store32 0x108000 0xC0108000).store32 0x108004 0xC0108000

end Hlos.Kernel
