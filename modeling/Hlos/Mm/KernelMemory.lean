import Hlos.Mm.HeapOwnership
import Hlos.Mm.HeapStart

/-!
# Both allocators at work

`slob_init` takes its arena from the page allocator.  From then on clients call
both allocators in any order and store into what they own, blocks of pages and
heap allocations.  The kernel stores elsewhere: to the frame structures, the
page tables and its variables.

The arena is one block in the ledger of the page allocator, and nobody frees
it.
-/

namespace Hlos.Mm

open Hlos.Lib Hlos.Include

variable {frames : Nat}

structure KernelMemory (frames : Nat) where
  memory : Memory
  pages : BuddyState frames
  outstanding : List Allocation

/-- What the heap and its clients see. -/
def KernelMemory.heap (s : KernelMemory frames) : ClientState :=
  ⟨s.memory, s.outstanding⟩

inductive MemoryOp where
  | pages (op : BuddyOp)
  | heap (op : ClientOp)
  | pageStore (addr : Nat) (value : BitVec 8)
  | kernelStore (addr : Nat) (value : BitVec 8)
deriving DecidableEq, Repr

/-- A range that a client owns. -/
inductive Owned where
  | block (entry : Entry)
  | allocation (range : Allocation)
deriving DecidableEq, Repr

/-- The kernel addresses of the bytes of the frames `[page, page + count)`. -/
def frameBytes (l : Layout) (page count : Nat) : Set Nat :=
  {position | ∃ pfn offset, page ≤ pfn ∧ pfn < page + count ∧ offset < 4096 ∧
    position = (pageAddress l (BitVec.ofNat 32 pfn) +
      BitVec.ofNat 32 offset).toNat}

/-- The kernel addresses of a block of pages. -/
def blockBytes (l : Layout) (entry : Entry) : Set Nat :=
  {position |
    (pageAddress l (BitVec.ofNat 32 entry.1)).toNat ≤ position ∧
    position < (pageAddress l (BitVec.ofNat 32 entry.1)).toNat +
      4096 * 2 ^ entry.2}

def Owned.bytes (l : Layout) : Owned → Set Nat
  | .block entry => blockBytes l entry
  | .allocation range => range.bytes

/-- The operation frees the range or stores into it. -/
def MemoryOp.Touches (l : Layout) (owned : Owned) : MemoryOp → Prop
  | .pages (.free page _) => ∃ order, owned = .block (page, order)
  | .heap (.kfree addr) => ∃ size, owned = .allocation (addr, size)
  | .heap (.store addr _) => addr ∈ owned.bytes l
  | .pageStore addr _ => addr ∈ owned.bytes l
  | _ => False

/-- The frames lie in the kernel window, above the image with the static list
head. -/
structure KernelWindow (l : Layout) (frames : Nat) (slobHead : Word) :
    Prop where
  placed : FramesPlaced l frames
  reached : l.min_phy_addr.toNat + 4096 * frames ≤ 0x40000000
  below : slobHead.toNat + 8 ≤ l.min_phy_addr.toNat + 0xC0000000

section Machine

variable (l : Layout) (slobHead : Word) (arenaPage : Nat)

/-- The clients own all blocks but the arena. -/
def KernelMemory.Owns (s : KernelMemory frames) : Owned → Prop
  | .block entry => entry ∈ s.pages.allocated ∧ entry.1 ≠ arenaPage
  | .allocation range => range ∈ s.outstanding

/-- Clients free what they own and store into what they own; requests to the
heap take a divisible block. -/
def memoryLegal (s : KernelMemory frames) : MemoryOp → Prop
  | .pages (.free page order) => s.Owns arenaPage (.block (page, order))
  | .pages op => buddyLegal s.pages op
  | .heap op => clientLegal s.heap op ∧ TakesDivisible slobHead s.heap op
  | .pageStore addr _ => ∃ entry, s.Owns arenaPage (.block entry) ∧
      addr ∈ blockBytes l entry
  | .kernelStore addr _ => addr ∉ frameBytes l 0 frames ∧
      addr ∉ linkBytes [slobHead]

def memoryStep (s : KernelMemory frames) :
    MemoryOp → Option (KernelMemory frames)
  | .pages op => do
      let pages ← buddyStep s.pages op
      return { s with pages := pages }
  | .heap op => do
      let heap ← clientStep slobHead s.heap op
      return ⟨heap.memory, s.pages, heap.outstanding⟩
  | .pageStore addr value =>
      some { s with memory := s.memory.store8 addr value }
  | .kernelStore addr value =>
      some { s with memory := s.memory.store8 addr value }

def memoryMachine (frames : Nat) :
    Machine (KernelMemory frames) MemoryOp where
  legal := memoryLegal l slobHead arenaPage
  step := memoryStep slobHead

structure MemoryInvariant (s : KernelMemory frames) : Prop where
  pages : BuddyInvariant s.pages
  arena : (arenaPage, SLOB_PAGE_ORDER) ∈ s.pages.allocated
  heap : ClientInvariant slobHead
    (pageAddress l (BitVec.ofNat 32 arenaPage)) s.heap

end Machine

section Window

variable {l : Layout} {slobHead : Word} {arenaPage : Nat}

/-! ## Places in the kernel window -/

/-- A byte behind the start of a frame belongs to that frame or to a later
one. -/
theorem pageAddress_add (placed : FramesPlaced l frames) {page i : Nat}
    (managed : page + i / 4096 < frames) :
    pageAddress l (BitVec.ofNat 32 page) + BitVec.ofNat 32 i =
      pageAddress l (BitVec.ofNat 32 (page + i / 4096)) +
        BitVec.ofNat 32 (i % 4096) := by
  apply BitVec.eq_of_toNat_eq
  rw [BitVec.toNat_add, BitVec.toNat_add, pageAddress_toNat placed managed,
    pageAddress_toNat placed (by omega), BitVec.toNat_ofNat,
    BitVec.toNat_ofNat]
  omega

/-- All bytes of a run of frames are kernel addresses of these frames. -/
theorem mem_frameBytes (placed : FramesPlaced l frames) {page count i : Nat}
    (managed : page + count ≤ frames) (inside : i < 4096 * count) :
    (pageAddress l (BitVec.ofNat 32 page) + BitVec.ofNat 32 i).toNat ∈
      frameBytes l page count := by
  refine ⟨page + i / 4096, i % 4096, Nat.le_add_right _ _, by omega,
    Nat.mod_lt i (by decide), ?_⟩
  rw [pageAddress_add placed (by omega)]

theorem KernelWindow.pageAddress_eq (window : KernelWindow l frames slobHead)
    {pfn : Nat} (managed : pfn < frames) :
    (pageAddress l (BitVec.ofNat 32 pfn)).toNat =
      l.min_phy_addr.toNat + 0xC0000000 + 4096 * pfn := by
  have reached := window.reached
  rw [pageAddress_toNat window.placed managed]
  omega

/-- All addresses behind the first frame are addresses of frames. -/
theorem KernelWindow.mem_frames (window : KernelWindow l frames slobHead)
    {position : Nat}
    (low : l.min_phy_addr.toNat + 0xC0000000 ≤ position)
    (high : position < l.min_phy_addr.toNat + 0xC0000000 + 4096 * frames) :
    position ∈ frameBytes l 0 frames := by
  have reached := window.reached
  have first := window.pageAddress_eq (show 0 < frames by omega)
  have member := mem_frameBytes window.placed (show 0 + frames ≤ frames by omega)
    (show position - (l.min_phy_addr.toNat + 0xC0000000) < 4096 * frames by
      omega)
  rw [BitVec.toNat_add, first, BitVec.toNat_ofNat] at member
  have isPosition : (l.min_phy_addr.toNat + 0xC0000000 + 4096 * 0 +
      (position - (l.min_phy_addr.toNat + 0xC0000000)) % 2 ^ 32) % 2 ^ 32 =
        position := by
    omega
  rwa [isPosition] at member

theorem KernelWindow.mem_blockBytes (window : KernelWindow l frames slobHead)
    {entry : Entry} (inside : entry.1 + 2 ^ entry.2 ≤ frames)
    {position : Nat} :
    position ∈ blockBytes l entry ↔
      l.min_phy_addr.toNat + 0xC0000000 + 4096 * entry.1 ≤ position ∧
      position < l.min_phy_addr.toNat + 0xC0000000 +
        4096 * (entry.1 + 2 ^ entry.2) := by
  have positive := Nat.two_pow_pos entry.2
  have start := window.pageAddress_eq (show entry.1 < frames by omega)
  change _ ≤ _ ∧ _ < _ ↔ _
  rw [start, Nat.mul_add, ← Nat.add_assoc]

theorem KernelWindow.block_in_frames (window : KernelWindow l frames slobHead)
    {entry : Entry} (inside : entry.1 + 2 ^ entry.2 ≤ frames) {position : Nat}
    (member : position ∈ blockBytes l entry) :
    position ∈ frameBytes l 0 frames := by
  obtain ⟨low, high⟩ := (window.mem_blockBytes inside).mp member
  exact window.mem_frames (by omega) (by omega)

/-- The list head is not in a frame. -/
theorem KernelWindow.head_below (window : KernelWindow l frames slobHead)
    {entry : Entry} (inside : entry.1 + 2 ^ entry.2 ≤ frames) {position : Nat}
    (member : position ∈ blockBytes l entry) :
    slobHead.toNat + 8 ≤ position := by
  have below := window.below
  obtain ⟨low, _⟩ := (window.mem_blockBytes inside).mp member
  omega

theorem KernelWindow.isArena (window : KernelWindow l frames slobHead)
    (inside : arenaPage + 2 ^ SLOB_PAGE_ORDER ≤ frames) :
    Arena slobHead (pageAddress l (BitVec.ofNat 32 arenaPage)) := by
  have reached := window.reached
  have below := window.below
  have order : 2 ^ SLOB_PAGE_ORDER = 1024 := rfl
  rw [order] at inside
  have start := window.pageAddress_eq (show arenaPage < frames by omega)
  exact ⟨by unfold arenaLength; omega, by omega, by omega⟩

/-- The arena as a block of pages. -/
theorem mem_arenaBytes {position : Nat} :
    position ∈ blockBytes l (arenaPage, SLOB_PAGE_ORDER) ↔
      (pageAddress l (BitVec.ofNat 32 arenaPage)).toNat ≤ position ∧
      position < (pageAddress l (BitVec.ofNat 32 arenaPage)).toNat +
        arenaLength :=
  Iff.rfl

/-! ## What clients own -/

section Invariant

variable {s : KernelMemory frames}

theorem MemoryInvariant.block_inside
    (inv : MemoryInvariant l slobHead arenaPage s) {entry : Entry}
    (member : entry ∈ s.pages.allocated) :
    entry.1 + 2 ^ entry.2 ≤ frames := by
  obtain ⟨free, consistent⟩ := inv.pages
  exact consistent.tiling.inside (Finset.mem_coe.mpr member)

theorem MemoryInvariant.isArena (window : KernelWindow l frames slobHead)
    (inv : MemoryInvariant l slobHead arenaPage s) :
    Arena slobHead (pageAddress l (BitVec.ofNat 32 arenaPage)) :=
  window.isArena (inv.block_inside inv.arena)

/-- Different blocks of the ledger have no byte in common. -/
theorem MemoryInvariant.blocks_apart (window : KernelWindow l frames slobHead)
    (inv : MemoryInvariant l slobHead arenaPage s) {left right : Entry}
    (leftHeld : left ∈ s.pages.allocated)
    (rightHeld : right ∈ s.pages.allocated) (different : left ≠ right)
    {position : Nat} (inLeft : position ∈ blockBytes l left) :
    position ∉ blockBytes l right := by
  intro inRight
  obtain ⟨free, consistent⟩ := inv.pages
  rw [window.mem_blockBytes (inv.block_inside leftHeld)] at inLeft
  rw [window.mem_blockBytes (inv.block_inside rightHeld)] at inRight
  -- the page that the byte lies in
  apply different
  apply consistent.tiling.disjoint left leftHeld right rightHeld
    ((position - (l.min_phy_addr.toNat + 0xC0000000)) / 4096)
  · exact ⟨by omega, by omega⟩
  · exact ⟨by omega, by omega⟩

/-- A client's block has no byte in common with the arena. -/
theorem MemoryInvariant.outside_arena
    (window : KernelWindow l frames slobHead)
    (inv : MemoryInvariant l slobHead arenaPage s) {entry : Entry}
    (owns : s.Owns arenaPage (.block entry)) {position : Nat}
    (inBlock : position ∈ blockBytes l entry) :
    position ∉ blockBytes l (arenaPage, SLOB_PAGE_ORDER) := by
  apply inv.blocks_apart window owns.1 inv.arena _ inBlock
  intro same
  exact owns.2 (congrArg Prod.fst same)

theorem MemoryInvariant.ownedApart (window : KernelWindow l frames slobHead)
    (inv : MemoryInvariant l slobHead arenaPage s) :
    OwnedApart (pageAddress l (BitVec.ofNat 32 arenaPage)) s.outstanding := by
  obtain ⟨chunks, tiles, heap, owns⟩ := inv.heap
  exact owns.apart (inv.isArena window) tiles

theorem MemoryInvariant.allocation_in_arena
    (window : KernelWindow l frames slobHead)
    (inv : MemoryInvariant l slobHead arenaPage s) {range : Allocation}
    (member : range ∈ s.outstanding) {position : Nat}
    (inRange : position ∈ range.bytes) :
    position ∈ blockBytes l (arenaPage, SLOB_PAGE_ORDER) := by
  obtain ⟨low, high⟩ := (inv.ownedApart window).inside range member
  obtain ⟨above, below⟩ := inRange
  exact mem_arenaBytes.mpr ⟨by omega, by omega⟩

/-- What clients own is disjoint, within one allocator and across them. -/
theorem MemoryInvariant.disjoint (window : KernelWindow l frames slobHead)
    (inv : MemoryInvariant l slobHead arenaPage s) {left right : Owned}
    (ownsLeft : s.Owns arenaPage left) (ownsRight : s.Owns arenaPage right)
    (different : left ≠ right) {position : Nat}
    (inLeft : position ∈ left.bytes l) : position ∉ right.bytes l := by
  intro inRight
  cases left with
  | block left =>
      cases right with
      | block right =>
          exact inv.blocks_apart window ownsLeft.1 ownsRight.1
            (fun same => different (congrArg Owned.block same)) inLeft inRight
      | allocation right =>
          exact inv.outside_arena window ownsLeft inLeft
            (inv.allocation_in_arena window ownsRight inRight)
  | allocation left =>
      cases right with
      | block right =>
          exact inv.outside_arena window ownsRight inRight
            (inv.allocation_in_arena window ownsLeft inLeft)
      | allocation right =>
          have apart := (inv.ownedApart window).disjoint
          have symmetric : Std.Symm fun left right : Allocation =>
              ∀ position, position ∈ left.bytes → position ∉ right.bytes :=
            ⟨fun _ _ disjoint position inRight inLeft =>
              disjoint position inLeft inRight⟩
          exact apart.forall ownsLeft ownsRight
            (fun same => different (congrArg Owned.allocation same))
            position inLeft inRight

/-- What clients own lies in managed frames. -/
theorem MemoryInvariant.in_frames (window : KernelWindow l frames slobHead)
    (inv : MemoryInvariant l slobHead arenaPage s) {owned : Owned}
    (owns : s.Owns arenaPage owned) {position : Nat}
    (inside : position ∈ owned.bytes l) :
    position ∈ frameBytes l 0 frames := by
  cases owned with
  | block entry =>
      exact window.block_in_frames (inv.block_inside owns.1) inside
  | allocation range =>
      exact window.block_in_frames (inv.block_inside inv.arena)
        (inv.allocation_in_arena window owns inside)

/-! ## Steps -/

/-- A call of the page allocator keeps the blocks that it does not free. -/
theorem buddyStep_keeps {s s' : BuddyState frames} {op : BuddyOp}
    (run : buddyStep s op = some s') {entry : Entry}
    (member : entry ∈ s.allocated)
    (spared : ∀ order, op ≠ .free entry.1 order) : entry ∈ s'.allocated := by
  cases op with
  | alloc order =>
      obtain ⟨⟨page, zone⟩, _, rest⟩ := Option.bind_eq_some_iff.mp run
      cases page with
      | none =>
          rw [← Option.some.inj rest]
          exact member
      | some page =>
          rw [← Option.some.inj rest]
          exact Finset.mem_insert_of_mem member
  | get page =>
      obtain ⟨zone, _, rest⟩ := Option.bind_eq_some_iff.mp run
      rw [← Option.some.inj rest]
      exact member
  | free page order =>
      obtain ⟨⟨last, _⟩, _, rest⟩ := Option.bind_eq_some_iff.mp run
      obtain ⟨zone, _, rest⟩ := Option.bind_eq_some_iff.mp rest
      rw [← Option.some.inj rest]
      have other : entry ≠ (page, order) := by
        rintro rfl
        exact spared order rfl
      cases last with
      | false => exact member
      | true => exact Finset.mem_erase.mpr ⟨other, member⟩

/-- A call of the heap keeps the allocations that it does not free. -/
theorem clientStep_keeps {s s' : ClientState} {op : ClientOp}
    (run : clientStep slobHead s op = some s') {range : Allocation}
    (member : range ∈ s.outstanding) (spared : op ≠ .kfree range.1) :
    range ∈ s'.outstanding := by
  cases op with
  | kmalloc size =>
      obtain ⟨⟨addr, m⟩, _, rest⟩ := Option.bind_eq_some_iff.mp run
      rw [← Option.some.inj rest]
      change range ∈ if addr = 0 then _ else _
      by_cases failed : addr = 0
      · rwa [if_pos failed]
      · rw [if_neg failed]
        exact List.mem_cons_of_mem _ member
  | kfree addr =>
      obtain ⟨m, _, rest⟩ := Option.bind_eq_some_iff.mp run
      rw [← Option.some.inj rest]
      have other : ¬ range.1 = addr := fun same => spared (by rw [same])
      exact (List.mem_eraseP_of_neg (by simpa using other)).mpr member
  | store addr value =>
      rw [← Option.some.inj run]
      exact member

/-- The bytes that a heap operation may write. -/
def ClientOp.area (slobHead base : Word) (chunks : List Chunk) :
    ClientOp → Set Nat
  | .store addr _ => {addr}
  | _ => heapArea slobHead base chunks

theorem clientStep_writes {base : Word} (arena : Arena slobHead base)
    {s s' : ClientState} {chunks : List Chunk} (tiles : HeapTiles chunks)
    (heap : HeapAt slobHead base s.memory chunks)
    (owns : Hlos.Mm.Owns base chunks s.outstanding) {op : ClientOp}
    (legal : clientLegal s op) (divisible : TakesDivisible slobHead s op)
    (run : clientStep slobHead s op = some s') :
    Memory.WritesWithin (op.area slobHead base chunks) s.memory s'.memory := by
  cases op with
  | kmalloc size =>
      obtain ⟨other, otherRun, _, writes⟩ :=
        kmalloc_keeps arena tiles heap owns legal divisible
      rw [run] at otherRun
      rwa [Option.some.inj otherRun]
  | kfree addr =>
      obtain ⟨other, otherRun, _, writes⟩ :=
        kfree_keeps arena tiles heap owns legal
      rw [run] at otherRun
      rwa [Option.some.inj otherRun]
  | store addr value =>
      rw [← Option.some.inj run]
      exact Memory.store8_writesWithin value s.memory rfl

/-- A store outside the arena and the list head leaves the heap alone. -/
theorem MemoryInvariant.stored (window : KernelWindow l frames slobHead)
    (inv : MemoryInvariant l slobHead arenaPage s) {addr : Nat}
    (value : BitVec 8)
    (offArena : addr ∉ blockBytes l (arenaPage, SLOB_PAGE_ORDER))
    (offHead : addr < slobHead.toNat ∨ slobHead.toNat + 8 ≤ addr) :
    MemoryInvariant l slobHead arenaPage
      { s with memory := s.memory.store8 addr value } := by
  obtain ⟨chunks, tiles, heap, owns⟩ := inv.heap
  have heap' := heap.frame (inv.isArena window) tiles.fits
    (Memory.store8_writesWithin value s.memory (Set.mem_singleton addr))
  refine ⟨inv.pages, inv.arena, chunks, tiles, heap' ?_, owns⟩
  rintro position isAddr (inHead | ⟨block, member, low, high⟩)
  · rw [Set.mem_singleton_iff.mp isAddr] at inHead
    omega
  · rw [Set.mem_singleton_iff.mp isAddr] at low high
    have bounds := block_bounds tiles.fits member
    unfold headerLength at high
    exact offArena (mem_arenaBytes.mpr ⟨by omega, by omega⟩)

theorem memoryLegal.buddy {op : BuddyOp}
    (legal : memoryLegal l slobHead arenaPage s (.pages op)) :
    buddyLegal s.pages op := by
  cases op with
  | alloc order => trivial
  | get page => exact legal
  | free page order => exact legal.1

/-- The kernel's own stores miss the arena and the list head. -/
theorem MemoryInvariant.elsewhere (window : KernelWindow l frames slobHead)
    (inv : MemoryInvariant l slobHead arenaPage s) {addr : Nat}
    (offFrames : addr ∉ frameBytes l 0 frames)
    (offHead : addr ∉ linkBytes [slobHead]) :
    addr ∉ blockBytes l (arenaPage, SLOB_PAGE_ORDER) ∧
      (addr < slobHead.toNat ∨ slobHead.toNat + 8 ≤ addr) := by
  constructor
  · intro inArena
    exact offFrames
      (window.block_in_frames (inv.block_inside inv.arena) inArena)
  · by_contra inHead
    exact offHead ⟨slobHead, List.mem_singleton.mpr rfl, by omega, by omega⟩

theorem memoryMachine_keeps (window : KernelWindow l frames slobHead) :
    (memoryMachine l slobHead arenaPage frames).Keeps
      (MemoryInvariant l slobHead arenaPage) := by
  intro s op inv legal
  have arena := inv.isArena window
  cases op with
  | pages op =>
      obtain ⟨pages, run, pagesInv⟩ :=
        buddyMachine_keeps frames s.pages op inv.pages legal.buddy
      have run : buddyStep s.pages op = some pages := run
      have spared : ∀ order, op ≠ .free arenaPage order := by
        rintro order rfl
        exact legal.2 rfl
      refine ⟨{ s with pages := pages }, ?_, pagesInv,
        buddyStep_keeps run inv.arena spared, inv.heap⟩
      change (buddyStep s.pages op).bind _ = _
      rw [run]
      rfl
  | heap op =>
      obtain ⟨heap, run, heapInv⟩ :=
        dividingMachine_keeps arena s.heap op inv.heap legal
      have run : clientStep slobHead s.heap op = some heap := run
      refine ⟨⟨heap.memory, s.pages, heap.outstanding⟩, ?_, inv.pages,
        inv.arena, heapInv⟩
      change (clientStep slobHead s.heap op).bind _ = _
      rw [run]
      rfl
  | pageStore addr value =>
      obtain ⟨entry, owns, inBlock⟩ := legal
      have above := window.head_below (inv.block_inside owns.1) inBlock
      exact ⟨_, rfl, inv.stored window value
        (inv.outside_arena window owns inBlock) (Or.inr above)⟩
  | kernelStore addr value =>
      obtain ⟨offArena, offHead⟩ := inv.elsewhere window legal.1 legal.2
      exact ⟨_, rfl, inv.stored window value offArena offHead⟩

/-- Calls of the heap write neither to blocks of clients nor to their
allocations. -/
theorem MemoryInvariant.heapArea_outside
    (window : KernelWindow l frames slobHead)
    (inv : MemoryInvariant l slobHead arenaPage s) {chunks : List Chunk}
    (tiles : HeapTiles chunks)
    (heapOwns : Hlos.Mm.Owns (pageAddress l (BitVec.ofNat 32 arenaPage)) chunks
      s.outstanding) {owned : Owned} (owns : s.Owns arenaPage owned)
    {position : Nat} (inside : position ∈ owned.bytes l) :
    position ∉
      heapArea slobHead (pageAddress l (BitVec.ofNat 32 arenaPage)) chunks := by
  cases owned with
  | block entry =>
      have above := window.head_below (inv.block_inside owns.1) inside
      rintro (⟨_, inHead⟩ | ⟨low, high, _⟩)
      · omega
      · exact inv.outside_arena window owns inside
          (mem_arenaBytes.mpr ⟨low, high⟩)
  | allocation range =>
      intro inArea
      exact heapOwns.heapArea_outside (inv.isArena window) tiles owns position
        inArea inside

/-- One operation leaves alone what it does not touch. -/
theorem memoryStep_frame (window : KernelWindow l frames slobHead)
    {s' : KernelMemory frames} {op : MemoryOp}
    (inv : MemoryInvariant l slobHead arenaPage s)
    (legal : memoryLegal l slobHead arenaPage s op)
    (run : memoryStep slobHead s op = some s') {owned : Owned}
    (untouched : ¬ op.Touches l owned) (owns : s.Owns arenaPage owned) :
    s'.Owns arenaPage owned ∧ ∀ position, position ∈ owned.bytes l →
      s'.memory.bytes position = s.memory.bytes position := by
  have stored : ∀ (addr : Nat) (value : BitVec 8), addr ∉ owned.bytes l →
      ∀ position, position ∈ owned.bytes l →
        (s.memory.store8 addr value).bytes position =
          s.memory.bytes position := by
    intro addr value outside position inside
    apply if_neg
    rintro rfl
    exact outside inside
  cases op with
  | pages op =>
      obtain ⟨pages, pagesRun, rest⟩ := Option.bind_eq_some_iff.mp run
      rw [← Option.some.inj rest]
      refine ⟨?_, fun position _ => rfl⟩
      cases owned with
      | block entry =>
          refine ⟨buddyStep_keeps pagesRun owns.1 ?_, owns.2⟩
          rintro order rfl
          exact untouched ⟨entry.2, rfl⟩
      | allocation range => exact owns
  | heap op =>
      obtain ⟨heap, heapRun, rest⟩ := Option.bind_eq_some_iff.mp run
      rw [← Option.some.inj rest]
      obtain ⟨chunks, tiles, heapAt, heapOwns⟩ := inv.heap
      have writes := clientStep_writes (inv.isArena window) tiles heapAt heapOwns
        legal.1 legal.2 heapRun
      constructor
      · cases owned with
        | block entry => exact owns
        | allocation range =>
            apply clientStep_keeps heapRun owns
            rintro rfl
            exact untouched ⟨range.2, rfl⟩
      · intro position inside
        apply writes.unchanged
        have outside :=
          inv.heapArea_outside window tiles heapOwns owns inside
        cases op with
        | kmalloc size => exact outside
        | kfree addr => exact outside
        | store addr value =>
            rintro rfl
            exact untouched inside
  | pageStore addr value =>
      rw [← Option.some.inj run]
      exact ⟨owns, stored addr value untouched⟩
  | kernelStore addr value =>
      rw [← Option.some.inj run]
      exact ⟨owns, stored addr value
        fun inside => legal.1 (inv.in_frames window owns inside)⟩

end Invariant

end Window

/-! ## Runs -/

section Runs

variable {l : Layout} {slobHead : Word}

/-- The last whole run of frames is the arena. -/
def startMemory (memory : Memory) (zone : Zone frames) : KernelMemory frames :=
  ⟨memory, ⟨zone, {(arenaPage frames, SLOB_PAGE_ORDER)}⟩, []⟩

/-- `slob_init` behind `pmm_free_pages` starts the machine. -/
theorem memoryStart (window : KernelWindow l frames slobHead)
    (enough : 1024 ≤ frames) (nullPfn : Word) {m : Memory}
    (empty : Ring (nextLink m) (prevLink m) slobHead []) :
    ∃ zone m',
      __slobAllocPages l nullPfn SLOB_PAGE_ORDER (bootZone frames) =
        some (pageAddress l (BitVec.ofNat 32 (arenaPage frames)), zone) ∧
      slobInit slobHead (pageAddress l (BitVec.ofNat 32 (arenaPage frames))) m =
        some m' ∧
      MemoryInvariant l slobHead (arenaPage frames) (startMemory m' zone) := by
  obtain ⟨free, handed⟩ := bootZone_handedOut frames
  obtain ⟨zone, run, _⟩ := boot_arena handed enough
  obtain ⟨free, consistent⟩ := bootState_invariant frames
  rcases consistent.alloc SLOB_PAGE_ORDER with
    failed | ⟨page, zone', rest, sameRun, consistent', _⟩
  · have failed : allocPages SLOB_PAGE_ORDER (bootZone frames) = _ := failed
    rw [run] at failed
    simp at failed
  · have sameRun : allocPages SLOB_PAGE_ORDER (bootZone frames) = _ := sameRun
    rw [run] at sameRun
    obtain ⟨rfl, rfl⟩ : arenaPage frames = page ∧ zone = zone' := by
      simpa using sameRun
    have pages : BuddyInvariant (startMemory m zone).pages := by
      refine ⟨rest, ?_⟩
      rw [bootState, Finset.coe_empty, insert_empty_eq] at consistent'
      rw [startMemory, Finset.coe_singleton]
      exact consistent'
    have arena := window.isArena (consistent'.tiling.inside
      (Set.mem_insert _ _))
    obtain ⟨m', init, heap, _⟩ := slobInit_spec arena empty
    refine ⟨zone, m', ?_, init, pages, Finset.mem_singleton.mpr rfl,
      clientStart_invariant arena empty init⟩
    simp only [__slobAllocPages, run, Option.bind_eq_bind, Option.bind_some,
      Option.pure_def, pageToPfn]

/-- In every run of both allocators what clients own is disjoint and lies in
managed frames, no legal operation faults, and an owned range keeps its bytes
and its owner until the owner stores into it or frees it. -/
theorem kernel_memory_owned (window : KernelWindow l frames slobHead)
    (enough : 1024 ≤ frames) (nullPfn : Word) {m : Memory}
    (empty : Ring (nextLink m) (prevLink m) slobHead []) :
    ∃ zone m',
      __slobAllocPages l nullPfn SLOB_PAGE_ORDER (bootZone frames) =
        some (pageAddress l (BitVec.ofNat 32 (arenaPage frames)), zone) ∧
      slobInit slobHead (pageAddress l (BitVec.ofNat 32 (arenaPage frames))) m =
        some m' ∧
      ∀ s, (memoryMachine l slobHead (arenaPage frames) frames).Reaches
        (startMemory m' zone) s →
        (∀ left right, s.Owns (arenaPage frames) left →
          s.Owns (arenaPage frames) right → left ≠ right →
          ∀ position, position ∈ left.bytes l → position ∉ right.bytes l) ∧
        (∀ owned, s.Owns (arenaPage frames) owned → ∀ position,
          position ∈ owned.bytes l → position ∈ frameBytes l 0 frames) ∧
        (∀ op, memoryLegal l slobHead (arenaPage frames) s op →
          ∃ s', memoryStep slobHead s op = some s') ∧
        ∀ ops s', (memoryMachine l slobHead (arenaPage frames) frames).Runs s
          ops s' →
          ∀ owned, s.Owns (arenaPage frames) owned →
            (∀ op, op ∈ ops → ¬ op.Touches l owned) →
            s'.Owns (arenaPage frames) owned ∧
              ∀ position, position ∈ owned.bytes l →
                s'.memory.bytes position = s.memory.bytes position := by
  obtain ⟨zone, m', pagesRun, init, initial⟩ :=
    memoryStart window enough nullPfn empty
  refine ⟨zone, m', pagesRun, init, ?_⟩
  intro s run
  have keeps : (memoryMachine l slobHead (arenaPage frames) frames).Keeps
    (MemoryInvariant l slobHead (arenaPage frames)) :=
      memoryMachine_keeps window
  have inv := keeps.reaches initial run
  refine ⟨fun left right ownsLeft ownsRight different position =>
      inv.disjoint window ownsLeft ownsRight different,
    fun owned owns position => inv.in_frames window owns, ?_, ?_⟩
  · intro op legal
    obtain ⟨s', step, _⟩ := keeps s op inv legal
    exact ⟨s', step⟩
  · intro ops s' later owned owns untouched
    apply keeps.along (fun op => ¬ op.Touches l owned) _ later inv
      ⟨owns, fun _ _ => rfl⟩ untouched
    rintro state op next stateInv legal step apart ⟨stateOwns, same⟩
    obtain ⟨nextOwns, kept⟩ :=
      memoryStep_frame window stateInv legal step apart stateOwns
    exact ⟨nextOwns, fun position inside =>
      (kept position inside).trans (same position inside)⟩

/-! ## A page and an allocation -/

/-- The first frame is free behind the start if the arena is not there. -/
theorem startMemory_alloc {zone : Zone frames} {m : Memory}
    (inv : MemoryInvariant l slobHead (arenaPage frames) (startMemory m zone))
    (above : 0 < arenaPage frames) :
    ∃ page zone', page ≠ arenaPage frames ∧
      buddyStep (startMemory m zone).pages (.alloc 0) =
        some ⟨zone', {(page, 0), (arenaPage frames, SLOB_PAGE_ORDER)}⟩ := by
  obtain ⟨free, consistent⟩ := inv.pages
  rw [startMemory, Finset.coe_singleton] at consistent
  have inside : 0 < frames := by
    have arena := consistent.head_lt (Set.mem_singleton _)
    omega
  have isFree : zone.PageFree 0 := by
    rw [pageFree_iff consistent.represents consistent.valid]
    rcases (consistent.tiling.cover 0).mp inside with isFree | ⟨entry, member, holds⟩
    · exact isFree
    · have low : entry.1 ≤ 0 := holds.1
      rw [Set.mem_singleton_iff.mp member] at low
      change arenaPage frames ≤ 0 at low
      omega
  have run : zone.FreeRunAt (0, 0) := by
    refine ⟨Nat.dvd_zero _, inside, ?_⟩
    rintro page ⟨_, high⟩
    obtain rfl : page = 0 := Nat.lt_one_iff.mp high
    exact isFree
  rcases consistent.alloc 0 with
    failed | ⟨page, zone', rest, alloc, consistent', _⟩
  · have missing := (allocPages_complete consistent.represents consistent.valid
      0).1.mp failed
    exact absurd ⟨0, run⟩ (missing.resolve_left (by decide))
  · refine ⟨page, zone', ?_, ?_⟩
    · rintro rfl
      have same := consistent'.tiling.disjoint _ (Set.mem_insert _ _) _
        (Set.mem_insert_of_mem _ (Set.mem_singleton _)) (arenaPage frames)
        ⟨le_rfl, Nat.lt_add_of_pos_right (Nat.two_pow_pos _)⟩
        ⟨le_rfl, Nat.lt_add_of_pos_right (Nat.two_pow_pos _)⟩
      have orders : 0 = SLOB_PAGE_ORDER := congrArg Prod.snd same
      exact absurd orders (by decide)
    · simp only [buddyStep, startMemory, alloc, Option.bind_eq_bind,
        Option.bind_some]
      rfl

/-- The heap answers a small request behind the start. -/
theorem startMemory_kmalloc (window : KernelWindow l frames slobHead)
    {zone : Zone frames} {m m' : Memory}
    (inv : MemoryInvariant l slobHead (arenaPage frames) (startMemory m' zone))
    (empty : Ring (nextLink m) (prevLink m) slobHead [])
    (init : slobInit slobHead
      (pageAddress l (BitVec.ofNat 32 (arenaPage frames))) m = some m') :
    TakesDivisible slobHead ⟨m', []⟩ (.kmalloc 100) ∧
      ∃ addr m'', clientStep slobHead ⟨m', []⟩ (.kmalloc 100) =
        some ⟨m'', [(addr, 100)]⟩ := by
  have arena := inv.isArena window
  obtain ⟨_, sameInit, heap, _⟩ := slobInit_spec arena empty
  rw [init] at sameInit
  obtain rfl := Option.some.inj sameInit
  have taken : allocateChunk (requestLength 100).toNat [wholeArena] =
      some (0, [takenChunk (requestLength 100),
        restChunk wholeArena (requestLength 100)]) := by
    decide
  have call := kmalloc_refines arena (show (100 : Word).toNat + 12 < 2 ^ 32 by
    decide) wholeArena_tiles.fits heap
  rw [taken] at call
  obtain ⟨m'', run, _, _⟩ := call
  have positive : 0 < wholeArena.length := by decide
  have nonzero : payloadAt _ 0 ≠ 0 :=
    payloadAt_ne_zero arena (show Chunks.span headerLength
      ([] ++ wholeArena :: []) ≤ arenaLength from wholeArena_tiles.fits) positive
  exact ⟨takesDivisible_wholeArena arena heap (by decide), _, m'',
    clientStep_kmalloc run nonzero⟩

/-- A page and 100 bytes are taken behind the start. -/
theorem startMemory_serves (window : KernelWindow l frames slobHead)
    {zone : Zone frames} {m m' : Memory}
    (inv : MemoryInvariant l slobHead (arenaPage frames) (startMemory m' zone))
    (above : 0 < arenaPage frames)
    (empty : Ring (nextLink m) (prevLink m) slobHead [])
    (init : slobInit slobHead
      (pageAddress l (BitVec.ofNat 32 (arenaPage frames))) m = some m') :
    ∃ page addr s,
      (memoryMachine l slobHead (arenaPage frames) frames).Runs
        (startMemory m' zone) [.pages (.alloc 0), .heap (.kmalloc 100)] s ∧
      s.Owns (arenaPage frames) (.block (page, 0)) ∧
      s.Owns (arenaPage frames) (.allocation (addr, 100)) := by
  obtain ⟨page, zone', different, alloc⟩ := startMemory_alloc inv above
  obtain ⟨divisible, addr, m'', answer⟩ :=
    startMemory_kmalloc window inv empty init
  let middle : KernelMemory frames :=
    ⟨m', ⟨zone', {(page, 0), (arenaPage frames, SLOB_PAGE_ORDER)}⟩, []⟩
  let last : KernelMemory frames := ⟨m'', middle.pages, [(addr, 100)]⟩
  have first : memoryStep slobHead (startMemory m' zone)
      (.pages (.alloc 0)) = some middle := by
    rw [memoryStep, alloc]
    rfl
  have second : memoryStep slobHead middle (.heap (.kmalloc 100)) =
      some last := by
    have same : middle.heap = ⟨m', []⟩ := rfl
    rw [memoryStep, same, answer]
    rfl
  have noWrap : (100 : Word).toNat + 12 < 2 ^ 32 := by decide
  exact ⟨page, addr, last,
    .step trivial first (.step ⟨noWrap, divisible⟩ second .done),
    ⟨Finset.mem_insert_self _ _, different⟩, List.mem_singleton.mpr rfl⟩

end Runs

/-- A machine with 16 MiB of memory. -/
def smallLayout : Layout := layout 0x110000 0x1000000

def smallFrames : Nat := smallLayout.phy_page_count.toNat

theorem smallLayout_window :
    KernelWindow smallLayout smallFrames 0xC0108000 :=
  ⟨@layout_framesPlaced 0x110000 0x1000000 ⟨by decide, by decide⟩
    ⟨by decide, by decide⟩, by decide, by decide⟩

/-- A page and 100 bytes are taken behind the start, and they are apart. -/
theorem kernel_memory_owned_16MiB :
    ∃ (zone : Zone smallFrames) (m' : Memory) (page : Nat) (addr : Word)
      (s : KernelMemory smallFrames),
      slobInit 0xC0108000
        (pageAddress smallLayout (BitVec.ofNat 32 (arenaPage smallFrames)))
        (emptyListMemory 0xC0108000) = some m' ∧
      (memoryMachine smallLayout 0xC0108000 (arenaPage smallFrames)
        smallFrames).Runs (startMemory m' zone)
          [.pages (.alloc 0), .heap (.kmalloc 100)] s ∧
      s.Owns (arenaPage smallFrames) (.block (page, 0)) ∧
      s.Owns (arenaPage smallFrames) (.allocation (addr, 100)) ∧
      ∀ position, position ∈ blockBytes smallLayout (page, 0) →
        position ∉ Allocation.bytes (addr, 100) := by
  have enough : 1024 ≤ smallFrames := by decide
  obtain ⟨zone, m', pagesRun, init, general⟩ :=
    kernel_memory_owned smallLayout_window enough 0 emptyListMemory_ring
  obtain ⟨_, _, sameRun, sameInit, inv⟩ :=
    memoryStart smallLayout_window enough 0 emptyListMemory_ring
  rw [pagesRun] at sameRun
  rw [init] at sameInit
  obtain ⟨-, rfl⟩ := Prod.mk.inj (Option.some.inj sameRun)
  obtain rfl := Option.some.inj sameInit
  obtain ⟨page, addr, s, run, block, allocation⟩ := startMemory_serves
    smallLayout_window inv (by decide) emptyListMemory_ring init
  have apart := (general s (Machine.Reaches.start.run run)).1 _ _ block allocation (by simp)
  exact ⟨zone, m', page, addr, s, init, run, block, allocation, apart⟩

end Hlos.Mm
