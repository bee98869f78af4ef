import Hlos.Mm.BuddyCalls
import Hlos.Mm.HeapRuns
import Hlos.Mm.KernelVmm

/-!
# Heap start-up

`slob_init` asks the page allocator for the arena, right after `pmm_free_pages`
has freed all frames.  The answer of `alloc_pages` goes through `page_address`
without a test for `NULL`, and the address is used without a test whether
`init_kernel_vmm` has mapped it.
-/

set_option linter.style.nameCheck false

namespace Hlos.Mm

open Hlos.Lib Hlos.Include

variable {frames : Nat}

/-- `page_to_pfn`.  The pointer subtraction gives the index of a frame
structure; for `NULL` the language leaves the difference open, and `nullPfn` is
what the compiled code computes. -/
def pageToPfn (nullPfn : Word) : (page : Option Nat) → Word
  | some page => BitVec.ofNat 32 page
  | none => nullPfn

def __slobAllocPages (l : Layout) (nullPfn : Word) (order : Nat)
    (z : Zone frames) : Option (Word × Zone frames) := do
  let (page, z) ← allocPages order z
  return (pageAddress l (pageToPfn nullPfn page), z)

/-- The statements of `slob_init` that write the first block. -/
def firstBlock (slobHead block : Word) (m : Memory) : Option Memory := do
  let m := setAllocated block SLOB_FREE m
  let m := setLength block
    (((1 : Word) <<< SLOB_PAGE_ORDER) * PAGE_SIZE - blockSize) m
  listAdd (blockList block) slobHead m

/-- `slob_init` up to the call of `slob_test`. -/
def heapStart (l : Layout) (nullPfn slobHead : Word) (z : Zone frames)
    (m : Memory) : Option (Zone frames × Memory) := do
  let (block, z) ← __slobAllocPages l nullPfn SLOB_PAGE_ORDER z
  let m ← firstBlock slobHead block m
  return (z, m)

/-- The managed frames are counted by `frames` and lie in the physical address
space, above its first page. -/
structure FramesPlaced (l : Layout) (frames : Nat) : Prop where
  count : l.phy_page_count.toNat = frames
  aligned : l.min_phy_addr.toNat % 4096 = 0
  positive : 0 < l.min_phy_addr.toNat
  inside : l.min_phy_addr.toNat + 4096 * frames ≤ 2 ^ 32

/-- `init_pmm` places the frames. -/
theorem layout_framesPlaced {kern_end max_phy_addr : Word}
    (image : KernelImage kern_end) (top : MemoryTop kern_end max_phy_addr) :
    FramesPlaced (layout kern_end max_phy_addr)
      (layout kern_end max_phy_addr).phy_page_count.toNat := by
  have spec := layout_spec image top
  have min := spec.min_phy_addr
  have managed := spec.managed
  have bound := max_phy_addr.isLt
  have tables := tablesEnd_mod kern_end max_phy_addr
  have endEq : tablesEnd kern_end max_phy_addr =
      imageEnd kern_end + 4096 + tableCount max_phy_addr * 4096 := rfl
  exact ⟨rfl, by omega, by omega, by omega⟩

/-- The static list head is an empty ring in the kernel image. -/
structure HeadPlaced (kern_end slobHead : Word) (m : Memory) : Prop where
  low : 0xC0100000 ≤ slobHead.toNat
  high : slobHead.toNat + 8 ≤ kern_end.toNat + 0xC0000000
  empty : Ring (nextLink m) (prevLink m) slobHead []

/-- The addresses of the arena at `block`. -/
def arenaBytes (block : Word) : Set Nat :=
  {position | ∃ i, i < 2 ^ 22 ∧ position = (block + BitVec.ofNat 32 i).toNat}

/-- The allocator has handed out `2 ^ 10` managed frames from `page` on, the
page tables map every byte of the arena to these frames, whatever memory held
before, and the header is written there. -/
structure HeaderInside (l : Layout) (slobHead : Word) (z z' : Zone frames)
    (m m' : Memory) (page : Nat) : Prop where
  managed : page + 2 ^ SLOB_PAGE_ORDER ≤ frames
  allocated : HandsOut z z' (page, SLOB_PAGE_ORDER)
  mapped : ∀ ram i, i < 2 ^ 22 →
    TranslatesTo (kernelWalk l ram
      (pageAddress l (BitVec.ofNat 32 page) + BitVec.ofNat 32 i))
      (frameAddress l page + i)
  written : m.WritesWithin
    (arenaBytes (pageAddress l (BitVec.ofNat 32 page)) ∪
      linkBytes [slobHead]) m'

/-- The header goes to memory that the page allocator has delivered, or nothing
is written. -/
def SafeStart (l : Layout) (nullPfn slobHead : Word) (m : Memory) : Prop :=
  ∃ z z' m', pmmFreePages l.phy_page_count.toNat
      (zeroedZone l.phy_page_count.toNat) = some z ∧
    heapStart l nullPfn slobHead z m = some (z', m') ∧
    ((∃ page, allocPages SLOB_PAGE_ORDER z = some (some page, z') ∧
        HeaderInside l slobHead z z' m m' page) ∨ m' = m)

/-- The first frame of the last whole run of `2 ^ 10` frames. -/
def arenaPage (frames : Nat) : Nat :=
  (frames / 2 ^ SLOB_PAGE_ORDER - 1) * 2 ^ SLOB_PAGE_ORDER

/-- There is a whole run of `2 ^ 10` frames, and the last one ends in the first
GiB. -/
structure ArenaFits (l : Layout) : Prop where
  enough : 2 ^ SLOB_PAGE_ORDER ≤ l.phy_page_count.toNat
  mapped : frameAddress l (arenaPage l.phy_page_count.toNat) + 2 ^ 22 ≤ 2 ^ 30

/-! ## Kernel addresses of frames -/

section Addresses

variable {l : Layout}

theorem pageAddress_toNat (placed : FramesPlaced l frames) {pfn : Nat}
    (managed : pfn < frames) :
    (pageAddress l (BitVec.ofNat 32 pfn)).toNat =
      (l.min_phy_addr.toNat + 4096 * pfn + 0xC0000000) % 2 ^ 32 := by
  have positive := placed.positive
  have inside := placed.inside
  have index : (BitVec.ofNat 32 pfn).toNat = pfn := by
    rw [BitVec.toNat_ofNat]
    omega
  have physical : (l.min_phy_addr + PFN_PHYS (BitVec.ofNat 32 pfn)).toNat =
      l.min_phy_addr.toNat + 4096 * pfn := by
    rw [BitVec.toNat_add, PFN_PHYS_toNat (by omega), index]
    omega
  have nonzero : l.min_phy_addr + PFN_PHYS (BitVec.ofNat 32 pfn) ≠ 0 := by
    intro zero
    rw [zero] at physical
    change 0 = _ at physical
    omega
  have base : KERNBASE.toNat = 0xC0000000 := by decide
  rw [pageAddress, __va, if_neg nonzero, BitVec.toNat_add, physical, base]

theorem pageAddress_mod (placed : FramesPlaced l frames) {pfn : Nat}
    (managed : pfn < frames) :
    (pageAddress l (BitVec.ofNat 32 pfn)).toNat % 4096 = 0 := by
  have aligned := placed.aligned
  rw [pageAddress_toNat placed managed]
  omega

end Addresses

/-! ## The stores of the first header -/

/-- The stores of `list_add` on byte memory. -/
theorem listAdd_eq (new head : Word) (m : Memory) :
    listAdd new head m =
      some ((((m.store32 (nextLink m head).toNat new).store32
        (new + 4).toNat (nextLink m head)).store32 new.toNat head).store32
          (head + 4).toNat new) :=
  rfl

/-- The header is always written, wherever the block is. -/
theorem firstBlock_writes {slobHead block : Word} {m m' : Memory}
    (run : firstBlock slobHead block m = some m') : m' ≠ m := by
  rw [firstBlock] at run
  simp only [listAdd_eq, Option.some.injEq] at run
  intro same
  have logs : m'.log.length = m.log.length := by rw [same]
  rw [← run] at logs
  simp only [Memory.store32, setAllocated, setLength, List.length_cons] at logs
  omega

/-- The fields of a header leave a list head apart from it as it is. -/
theorem nextLink_headerFields {slobHead block : Word} (m : Memory)
    (inside : slobHead.toNat + 8 ≤ 2 ^ 32)
    (apart : block.toNat + 4 ≤ slobHead.toNat + 4 ∨
      slobHead.toNat + 8 ≤ block.toNat) (length : Word) :
    nextLink (setLength block length (setAllocated block SLOB_FREE m))
      slobHead = nextLink m slobHead := by
  have headNext : (slobHead + 4).toNat = slobHead.toNat + 4 :=
    nextWord_toNat (by omega)
  change Memory.load32 _ (Memory.store32 _ _ (Memory.store32 _ _ m)) =
    Memory.load32 _ m
  rw [headNext, Memory.load32_store32_of_apart _ _ (by omega),
    Memory.load32_store32_of_apart _ _ (by omega)]

/-- A header at a page boundary is written inside any range that holds its
twelve bytes. -/
theorem firstBlock_writesWithin {slobHead block : Word} {m : Memory}
    {range : Set Nat} (aligned : block.toNat % 4096 = 0)
    (header : ∀ position, block.toNat ≤ position →
      position < block.toNat + 12 → position ∈ range)
    (inside : slobHead.toNat + 8 ≤ 2 ^ 32)
    (apart : ∀ position, position ∈ linkBytes [slobHead] → position ∉ range)
    (empty : Ring (nextLink m) (prevLink m) slobHead []) :
    ∃ m', firstBlock slobHead block m = some m' ∧
      m.WritesWithin (range ∪ linkBytes [slobHead]) m' := by
  have bound := block.isLt
  have list : (blockList block).toNat = block.toNat + 4 :=
    blockList_toNat (by omega)
  have listNext : (blockList block + 4).toNat = block.toNat + 8 := by
    rw [nextWord_toNat (by omega), list]
  have headNext : (slobHead + 4).toNat = slobHead.toNat + 4 :=
    nextWord_toNat (by omega)
  have headMember : slobHead ∈ [slobHead] := List.mem_singleton.mpr rfl
  let m₁ := setAllocated block SLOB_FREE m
  let m₂ := setLength block
    (((1 : Word) <<< SLOB_PAGE_ORDER) * PAGE_SIZE - blockSize) m₁
  -- the list head is not part of the block, so that it is still empty
  have next : nextLink m₂ slobHead = slobHead := by
    have outside : ∀ position, block.toNat ≤ position →
        position < block.toNat + 4 → position ∉ linkBytes [slobHead] :=
      fun position low high member =>
        apart position member (header position low (by omega))
    have first := outside block.toNat (Nat.le_refl _) (by omega)
    have last := outside (block.toNat + 3) (by omega) (by omega)
    have places : block.toNat + 4 ≤ slobHead.toNat + 4 ∨
        slobHead.toNat + 8 ≤ block.toNat := by
      by_contra overlap
      by_cases below : slobHead.toNat ≤ block.toNat
      · exact first ⟨slobHead, headMember, below, by omega⟩
      · exact last ⟨slobHead, headMember, by omega, by omega⟩
    exact (nextLink_headerFields m inside places _).trans
      (Ring.nil_iff.mp empty).1
  have storeHeader : ∀ (offset : Nat) (value : Word) (n : Memory),
      offset ≤ 8 → n.WritesWithin (range ∪ linkBytes [slobHead])
        (n.store32 (block.toNat + offset) value) := by
    intro offset value n small
    apply Memory.store32_writesWithin
    intro byte small
    exact Or.inl (header _ (by omega) (by omega))
  have storeLink : ∀ (offset : Nat) (value : Word) (n : Memory),
      offset ≤ 4 → n.WritesWithin (range ∪ linkBytes [slobHead])
        (n.store32 (slobHead.toNat + offset) value) := by
    intro offset value n small
    exact (SeparateNodes.store32_writesWithin headMember small value n).mono
      fun position member => Or.inr member
  refine ⟨_, listAdd_eq (blockList block) slobHead m₂, ?_⟩
  rw [next, list, listNext, headNext]
  apply Memory.WritesWithin.trans _ (storeLink 4 _ _ (Nat.le_refl 4))
  apply Memory.WritesWithin.trans _ (storeHeader 4 _ _ (by decide))
  apply Memory.WritesWithin.trans _ (storeHeader 8 _ _ (by decide))
  apply Memory.WritesWithin.trans _ (storeLink 0 _ _ (by decide))
  exact (storeHeader 0 _ m (by decide)).trans (storeHeader 0 _ m₁ (by decide))

/-! ## Start-up for every number of frames -/

/-- All frames are free after `pmm_free_pages`, so that an aligned run of an
order is free exactly when there are enough of them. -/
theorem boot_freeRun_iff {z : Zone frames} {free : List DyadicBlock}
    (handed : HandedOut z free frames) (order : Nat) :
    (∃ head, z.FreeRunAt (head, order)) ↔ 2 ^ order ≤ frames := by
  have isFree : ∀ page, z.PageFree page ↔ page < frames := by
    intro page
    rw [pageFree_iff handed.represents handed.valid, handed.positions]
  constructor
  · intro exists_
    obtain ⟨head, run⟩ := exists_
    have inside := run.inside
    change head + 2 ^ order ≤ frames at inside
    omega
  · intro enough
    refine ⟨0, Nat.dvd_zero _, ?_, ?_⟩
    · change 0 + 2 ^ order ≤ frames
      omega
    · intro page holds
      have bound : page < 0 + 2 ^ order := holds.2
      rw [isFree]
      omega

section Start

variable {slobHead : Word} {m : Memory} {z : Zone frames}
  {free : List DyadicBlock}

/-- The first request is answered with the last whole run of frames. -/
theorem boot_arena (handed : HandedOut z free frames)
    (enough : 2 ^ SLOB_PAGE_ORDER ≤ frames) :
    ∃ z', allocPages SLOB_PAGE_ORDER z = some (some (arenaPage frames), z') ∧
      HandsOut z z' (arenaPage frames, SLOB_PAGE_ORDER) := by
  obtain ⟨count, isCount⟩ : ∃ count, frames / 2 ^ topOrder = count + 1 :=
    Nat.exists_eq_add_one.mpr (Nat.div_pos enough (Nat.two_pow_pos topOrder))
  have first : free.find? (fun block => block.order = SLOB_PAGE_ORDER) =
      some ⟨SLOB_PAGE_ORDER, count⟩ := by
    have isFirst := handed.first
    rw [isCount] at isFirst
    exact isFirst
  have isHead : arenaPage frames = count * 2 ^ SLOB_PAGE_ORDER := by
    change (frames / 2 ^ topOrder - 1) * _ = _
    rw [isCount, Nat.add_sub_cancel]
  have allocated : allocate free SLOB_PAGE_ORDER =
      some (free.erase ⟨SLOB_PAGE_ORDER, count⟩, ⟨SLOB_PAGE_ORDER, count⟩) := by
    change (smallestFree free 1 SLOB_PAGE_ORDER).map _ = _
    rw [smallestFree, first]
    rfl
  have spec := allocPages_spec handed.represents handed.valid SLOB_PAGE_ORDER
  rw [allocated] at spec
  obtain ⟨z', run, represents', counts⟩ := spec
  have handsOut := handsOut_of_allocate handed.represents handed.valid allocated
    represents' (by rw [counts, if_pos rfl])
  rw [isHead]
  exact ⟨z', run, handsOut⟩

/-- With fewer frames the request fails. -/
theorem boot_fails (handed : HandedOut z free frames)
    (few : frames < 2 ^ SLOB_PAGE_ORDER) :
    allocPages SLOB_PAGE_ORDER z = some (none, z) := by
  have missing : ¬ ∃ head, z.FreeRunAt (head, SLOB_PAGE_ORDER) := by
    rw [boot_freeRun_iff handed]
    omega
  exact (allocPages_complete handed.represents handed.valid
    SLOB_PAGE_ORDER).1.mpr (Or.inr missing)

/-- The header is written in every run. -/
theorem heapStart_writes {l : Layout} {nullPfn : Word} {z' : Zone frames}
    {m' : Memory} (run : heapStart l nullPfn slobHead z m = some (z', m')) :
    m' ≠ m := by
  rw [heapStart] at run
  obtain ⟨⟨block, zone⟩, _, rest⟩ := Option.bind_eq_some_iff.mp run
  obtain ⟨memory, wrote, results⟩ := Option.bind_eq_some_iff.mp rest
  obtain ⟨rfl, rfl⟩ : zone = z' ∧ memory = m' := by simpa using results
  exact firstBlock_writes wrote

/-- The header lies in the arena when the list head is below. -/
theorem firstBlock_arena {block : Word} (aligned : block.toNat % 4096 = 0)
    (room : block.toNat + 2 ^ 22 ≤ 2 ^ 32)
    (below : slobHead.toNat + 8 ≤ block.toNat)
    (empty : Ring (nextLink m) (prevLink m) slobHead []) :
    ∃ m', firstBlock slobHead block m = some m' ∧
      m.WritesWithin (arenaBytes block ∪ linkBytes [slobHead]) m' := by
  have address : ∀ i, i < 2 ^ 22 →
      (block + BitVec.ofNat 32 i).toNat = block.toNat + i := by
    intro i small
    rw [BitVec.toNat_add, BitVec.toNat_ofNat]
    omega
  apply firstBlock_writesWithin aligned _ (by omega) _ empty
  · intro position low high
    refine ⟨position - block.toNat, by omega, ?_⟩
    rw [address _ (by omega)]
    omega
  · rintro position ⟨node, member, _, high⟩ ⟨i, small, rfl⟩
    rw [List.mem_singleton.mp member, address i small] at high
    omega

section Layout

variable {kern_end max_phy_addr : Word}

theorem arenaPage_inside (enough : 2 ^ SLOB_PAGE_ORDER ≤ frames) :
    arenaPage frames + 2 ^ SLOB_PAGE_ORDER ≤ frames := by
  have whole := Nat.div_mul_le_self frames (2 ^ SLOB_PAGE_ORDER)
  have positive := Nat.div_pos enough (Nat.two_pow_pos SLOB_PAGE_ORDER)
  unfold arenaPage
  rw [Nat.sub_mul, Nat.one_mul]
  have one := Nat.mul_le_mul_right (2 ^ SLOB_PAGE_ORDER) positive
  omega

/-- The kernel address of an arena in the first GiB. -/
theorem ArenaFits.start (image : KernelImage kern_end)
    (top : MemoryTop kern_end max_phy_addr)
    (fits : ArenaFits (layout kern_end max_phy_addr)) :
    (pageAddress (layout kern_end max_phy_addr) (BitVec.ofNat 32
        (arenaPage (layout kern_end max_phy_addr).phy_page_count.toNat))).toNat =
      frameAddress (layout kern_end max_phy_addr)
        (arenaPage (layout kern_end max_phy_addr).phy_page_count.toNat) +
          0xC0000000 := by
  have inside := arenaPage_inside fits.enough
  have positive := Nat.two_pow_pos SLOB_PAGE_ORDER
  have mapped := fits.mapped
  have start := pageAddress_toNat (layout_framesPlaced image top)
    (show arenaPage (layout kern_end max_phy_addr).phy_page_count.toNat < _ by
      omega)
  unfold frameAddress at mapped ⊢
  rw [start]
  omega

theorem ArenaFits.address (image : KernelImage kern_end)
    (top : MemoryTop kern_end max_phy_addr)
    (fits : ArenaFits (layout kern_end max_phy_addr)) {i : Nat}
    (small : i < 2 ^ 22) :
    (pageAddress (layout kern_end max_phy_addr) (BitVec.ofNat 32
        (arenaPage (layout kern_end max_phy_addr).phy_page_count.toNat)) +
        BitVec.ofNat 32 i).toNat =
      frameAddress (layout kern_end max_phy_addr)
        (arenaPage (layout kern_end max_phy_addr).phy_page_count.toNat) + i +
          0xC0000000 := by
  have mapped := fits.mapped
  rw [BitVec.toNat_add, fits.start image top, BitVec.toNat_ofNat]
  omega

theorem ArenaFits.translates (image : KernelImage kern_end)
    (top : MemoryTop kern_end max_phy_addr)
    (fits : ArenaFits (layout kern_end max_phy_addr)) (ram : Memory) {i : Nat}
    (small : i < 2 ^ 22) :
    TranslatesTo (kernelWalk (layout kern_end max_phy_addr) ram
      (pageAddress (layout kern_end max_phy_addr) (BitVec.ofNat 32
        (arenaPage (layout kern_end max_phy_addr).phy_page_count.toNat)) +
          BitVec.ofNat 32 i))
      (frameAddress (layout kern_end max_phy_addr)
        (arenaPage (layout kern_end max_phy_addr).phy_page_count.toNat) +
          i) := by
  have managed := (layout_spec image top).managed
  have inside := arenaPage_inside fits.enough
  have order : 2 ^ SLOB_PAGE_ORDER = 1024 := rfl
  apply kernelWalk_mapped image (layout_tables image top.aligned) ram
    (fits.address image top small)
  unfold frameAddress
  omega

/-- An arena that fits is delivered and gets the header. -/
theorem heapStart_of_fits (image : KernelImage kern_end)
    (top : MemoryTop kern_end max_phy_addr)
    (head : HeadPlaced kern_end slobHead m)
    (fits : ArenaFits (layout kern_end max_phy_addr))
    {z : Zone (layout kern_end max_phy_addr).phy_page_count.toNat}
    (handed : HandedOut z free
      (layout kern_end max_phy_addr).phy_page_count.toNat) (nullPfn : Word) :
    ∃ z' m' page,
      heapStart (layout kern_end max_phy_addr) nullPfn slobHead z m =
        some (z', m') ∧
      allocPages SLOB_PAGE_ORDER z = some (some page, z') ∧
      HeaderInside (layout kern_end max_phy_addr) slobHead z z' m m' page := by
  obtain ⟨z', run, handsOut⟩ := boot_arena handed fits.enough
  have inside := arenaPage_inside fits.enough
  have positive := Nat.two_pow_pos SLOB_PAGE_ORDER
  have high := head.high
  have mapped := fits.mapped
  have min := (layout_spec image top).min_phy_addr
  have reached : kern_end.toNat ≤ imageEnd kern_end := by
    unfold imageEnd
    omega
  have start := fits.start image top
  have below : kern_end.toNat ≤ frameAddress (layout kern_end max_phy_addr)
      (arenaPage (layout kern_end max_phy_addr).phy_page_count.toNat) := by
    rw [frameAddress, min]
    unfold tablesEnd
    omega
  obtain ⟨m', wrote, within⟩ := firstBlock_arena
    (pageAddress_mod (layout_framesPlaced image top)
      (show arenaPage (layout kern_end max_phy_addr).phy_page_count.toNat < _ by
        omega))
    (by rw [start]; omega) (by rw [start]; omega) head.empty
  refine ⟨z', m', _, ?_, run, inside, handsOut,
    fun ram i small => fits.translates image top ram small, within⟩
  simp only [heapStart, __slobAllocPages, run, Option.bind_eq_bind,
    Option.bind_some, Option.pure_def, pageToPfn, wrote]

/-- The last frame of an arena that ends above 1 GiB is looked up in a
directory slot that was never written. -/
theorem arena_unmapped (image : KernelImage kern_end)
    (top : MemoryTop kern_end max_phy_addr)
    (enough : 2 ^ SLOB_PAGE_ORDER ≤
      (layout kern_end max_phy_addr).phy_page_count.toNat)
    (high : 2 ^ 30 < frameAddress (layout kern_end max_phy_addr)
      (arenaPage (layout kern_end max_phy_addr).phy_page_count.toNat) +
        2 ^ 22) :
    ∃ i, i < 2 ^ 22 ∧ ∀ physical,
      ¬ TranslatesTo (kernelWalk (layout kern_end max_phy_addr) zeroMemory
        (pageAddress (layout kern_end max_phy_addr) (BitVec.ofNat 32
          (arenaPage (layout kern_end max_phy_addr).phy_page_count.toNat)) +
            BitVec.ofNat 32 i)) physical := by
  have placed := layout_framesPlaced image top
  have tables := layout_tables image top.aligned
  have inside := arenaPage_inside enough
  have order : 2 ^ SLOB_PAGE_ORDER = 1024 := rfl
  have aligned := placed.aligned
  have reached := placed.inside
  have start := pageAddress_toNat placed
    (show arenaPage (layout kern_end max_phy_addr).phy_page_count.toNat < _ by
      omega)
  unfold frameAddress at high
  refine ⟨2 ^ 22 - 4096, by omega, ?_⟩
  intro physical translates
  have present := translates.pde
  rw [kernelWalk_pde image tables, load32_lowSlot image tables zeroMemory,
    load32_zeroMemory] at present
  · exact absurd present (by decide)
  · rw [BitVec.toNat_add, start, BitVec.toNat_ofNat]
    omega

end Layout

end Start

/-- The heap starts safely exactly when there is a whole run of 1024 frames and
the last one lies in the first GiB. -/
theorem heap_start_safe_iff {kern_end max_phy_addr slobHead : Word}
    {m : Memory} (nullPfn : Word) (image : KernelImage kern_end)
    (top : MemoryTop kern_end max_phy_addr)
    (head : HeadPlaced kern_end slobHead m) :
    SafeStart (layout kern_end max_phy_addr) nullPfn slobHead m ↔
      ArenaFits (layout kern_end max_phy_addr) := by
  obtain ⟨z, free, boot, handed⟩ :=
    pmmFreePages_spec (layout kern_end max_phy_addr).phy_page_count.toNat
  constructor
  · rintro ⟨z₁, z', m', boot₁, start, outcome⟩
    rw [boot] at boot₁
    obtain rfl := Option.some.inj boot₁
    obtain ⟨page, delivered, inside⟩ :=
      outcome.resolve_right (heapStart_writes start)
    have enough : 2 ^ SLOB_PAGE_ORDER ≤
        (layout kern_end max_phy_addr).phy_page_count.toNat := by
      by_contra few
      rw [boot_fails handed (Nat.lt_of_not_le few)] at delivered
      cases delivered
    refine ⟨enough, ?_⟩
    by_contra high
    obtain ⟨zone, delivered', _⟩ := boot_arena handed enough
    rw [delivered'] at delivered
    obtain ⟨rfl, rfl⟩ : arenaPage _ = page ∧ zone = z' := by
      simpa using delivered
    obtain ⟨i, small, unmapped⟩ :=
      arena_unmapped image top enough (Nat.lt_of_not_le high)
    exact unmapped _ (inside.mapped zeroMemory i small)
  · intro fits
    obtain ⟨z', m', page, start, run, inside⟩ :=
      heapStart_of_fits image top head fits handed nullPfn
    exact ⟨z, z', m', boot, start, Or.inl ⟨page, run, inside⟩⟩

theorem headPlaced_example : HeadPlaced 0x110000 0xC0108000
    (emptyListMemory 0xC0108000) :=
  ⟨by decide, by decide, emptyListMemory_ring⟩

/-- 16 MiB of memory. -/
theorem heap_start_safe_iff_16MiB :
    SafeStart (layout 0x110000 0x1000000) 0 0xC0108000
      (emptyListMemory 0xC0108000) :=
  (heap_start_safe_iff 0 ⟨by decide, by decide⟩ ⟨by decide, by decide⟩
    headPlaced_example).mpr ⟨by decide, by decide⟩

/-- With 4 MiB of memory there are 746 frames, and the order-10 request
fails. -/
theorem heap_start_unsafe :
    ¬ ∀ (kern_end max_phy_addr nullPfn slobHead : Word) (m : Memory),
      KernelImage kern_end → MemoryTop kern_end max_phy_addr →
      HeadPlaced kern_end slobHead m →
        SafeStart (layout kern_end max_phy_addr) nullPfn slobHead m := by
  intro general
  obtain ⟨z, z', m', boot, start, outcome⟩ :=
    general 0x110000 0x400000 0 0xC0108000 (emptyListMemory 0xC0108000)
      ⟨by decide, by decide⟩ ⟨by decide, by decide⟩ headPlaced_example
  obtain ⟨z₁, free, boot₁, handed⟩ :=
    pmmFreePages_spec (layout 0x110000 0x400000).phy_page_count.toNat
  rw [boot] at boot₁
  obtain rfl := Option.some.inj boot₁
  obtain ⟨page, delivered, _⟩ :=
    outcome.resolve_right (heapStart_writes start)
  rw [boot_fails handed (by decide)] at delivered
  cases delivered

end Hlos.Mm
