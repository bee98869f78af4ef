import Hlos.Lib.Machine
import Hlos.Mm.HeapInit

/-!
# Runs of the heap

Every run of `kmalloc` and `kfree` that starts behind `slob_init` keeps the
arena tiled.  `kfree` may be called for every listed block, used or free.
-/

namespace Hlos.Mm

open Hlos.Lib Hlos.Include

inductive HeapOp where
  | kmalloc (size : Word)
  | kfree (addr : Word)
deriving DecidableEq, Repr

/-- The block is on the list. -/
def Listed (slobHead : Word) (m : Memory) (block : Word) : Prop :=
  ∃ items, Ring (nextLink m) (prevLink m) slobHead items ∧
    slobHead ∉ items ∧ blockList block ∈ items

/-- Sizes do not wrap around when the header is added, and `kfree` gets the
payload of a listed block. -/
def heapLegal (slobHead : Word) (m : Memory) : HeapOp → Prop
  | .kmalloc size => size.toNat + 12 < 2 ^ 32
  | .kfree addr => Listed slobHead m (addr - blockSize)

def heapStep (slobHead : Word) (m : Memory) : HeapOp → Option Memory
  | .kmalloc size => (kmalloc slobHead size m).map Prod.snd
  | .kfree addr => kfree slobHead addr m

def heapMachine (slobHead : Word) : Machine Memory HeapOp where
  legal := heapLegal slobHead
  step := heapStep slobHead

/-- Memory holds a heap that tiles the arena. -/
def HeapInvariant (slobHead base : Word) (m : Memory) : Prop :=
  ∃ chunks, HeapTiles chunks ∧ HeapAt slobHead base m chunks

variable {slobHead base : Word} {chunks : List Chunk} {m : Memory}

/-- The listed blocks are the blocks of the chunk list. -/
theorem HeapAt.listed_iff (heap : HeapAt slobHead base m chunks)
    (arena : Arena slobHead base)
    (fits : Chunks.span headerLength chunks ≤ arenaLength) {block : Word} :
    Listed slobHead m block ↔
      ∃ placed, placed ∈ blocks base chunks ∧ block = blockAddress placed := by
  have fresh := (List.nodup_cons.mp (nodes_nodup arena fits)).1
  constructor
  · rintro ⟨items, ring, itemsFresh, member⟩
    rw [ring.unique heap.ring itemsFresh fresh] at member
    obtain ⟨placed, placedMember, isNode⟩ := block_of_node member
    refine ⟨placed, placedMember, ?_⟩
    rw [← leToBlock_blockList block, isNode, blockNode, leToBlock_blockList]
  · rintro ⟨placed, placedMember, rfl⟩
    exact ⟨_, heap.ring, fresh, List.mem_map_of_mem placedMember⟩

/-- A listed block is found at its position. -/
theorem HeapAt.listed_position (heap : HeapAt slobHead base m chunks)
    (arena : Arena slobHead base)
    (fits : Chunks.span headerLength chunks ≤ arenaLength) {addr : Word}
    (listed : Listed slobHead m (addr - blockSize)) :
    ∃ position before chunk after, addr = payloadAt base position ∧
      Chunks.findAt headerLength position chunks =
        some (before, chunk, after) := by
  obtain ⟨placed, member, isBlock⟩ := (heap.listed_iff arena fits).mp listed
  obtain ⟨before, after, split, place⟩ := Chunks.exists_split_of_mem member
  refine ⟨Chunks.span headerLength before, before, placed.2, after, ?_, ?_⟩
  · rw [payloadAt, ← place, ← blockAddress, ← isBlock, BitVec.sub_add_cancel]
  · rw [split]
    exact Chunks.findAt_span (by decide) placed.2 after before

/-- No call faults, and every call keeps the tiling. -/
theorem heapMachine_keeps (arena : Arena slobHead base) :
    (heapMachine slobHead).Keeps (HeapInvariant slobHead base) := by
  rintro m op ⟨chunks, tiles, heap⟩ legal
  cases op with
  | kmalloc size =>
      have call := kmalloc_refines arena legal tiles.fits heap
      cases taken : allocateChunk (requestLength size).toNat chunks with
      | none =>
          rw [taken] at call
          refine ⟨m, ?_, chunks, tiles, heap⟩
          exact congrArg (Option.map Prod.snd) call
      | some result =>
          rw [taken] at call
          obtain ⟨m', run, heap', _⟩ := call
          refine ⟨m', ?_, result.2, allocateChunk_tiles legal tiles taken,
            heap'⟩
          exact congrArg (Option.map Prod.snd) run
  | kfree addr =>
      obtain ⟨position, before, chunk, after, rfl, found⟩ :=
        heap.listed_position arena tiles.fits legal
      obtain ⟨m', run, heap', _⟩ :=
        kfree_refines arena tiles.fits heap found
      exact ⟨m', run, _, releaseAt_tiles tiles, heap'⟩

/-! ## Listed blocks -/

/-- The blocks follow each other without a gap from `addr` to `stop`. -/
def TilesFrom (stop : Nat) : (addr : Nat) → List (Word × BlockInfo) → Prop
  | addr, [] => addr = stop
  | addr, (block, info) :: rest =>
      block.toNat = addr ∧ TilesFrom stop (addr + 12 + info.length.toNat) rest

/-- What the list of `slob_head` looks like. -/
structure ArenaTiled (slobHead base : Word) (m : Memory)
    (listed : List (Word × BlockInfo)) : Prop where
  ring : Ring (nextLink m) (prevLink m) slobHead
    (listed.map fun block => blockList block.1)
  infos : ∀ block, block ∈ listed → blockInfo block.1 m = block.2
  ascending : listed.Pairwise fun left right => left.1 < right.1
  tiles : TilesFrom (base.toNat + arenaLength) base.toNat listed
  long : ∀ block, block ∈ listed → 32 ≤ block.2.length.toNat
  coalesced : listed.IsChain fun left right =>
    ¬ (left.2.allocated = SLOB_FREE ∧ right.2.allocated = SLOB_FREE)

theorem TilesFrom.le {stop : Nat} {listed : List (Word × BlockInfo)}
    {addr : Nat} (tiles : TilesFrom stop addr listed) :
    ∀ block, block ∈ listed → addr ≤ block.1.toNat := by
  induction listed generalizing addr with
  | nil => simp
  | cons first rest inductionRest =>
      intro block member
      rcases List.mem_cons.mp member with rfl | inRest
      · exact Nat.le_of_eq tiles.1.symm
      · have behind := inductionRest tiles.2 block inRest
        omega

theorem TilesFrom.ascending {stop : Nat} {listed : List (Word × BlockInfo)}
    {addr : Nat} (tiles : TilesFrom stop addr listed) :
    listed.Pairwise fun left right => left.1 < right.1 := by
  induction listed generalizing addr with
  | nil => exact List.Pairwise.nil
  | cons first rest inductionRest =>
      refine List.Pairwise.cons ?_ (inductionRest tiles.2)
      intro block member
      have behind := TilesFrom.le tiles.2 block member
      have start := tiles.1
      rw [BitVec.lt_def]
      omega

/-- A block as its address and its header. -/
def listedBlock (block : Nat × Chunk) : Word × BlockInfo :=
  (blockAddress block, chunkInfo block.2)

theorem place_tilesFrom (chunks : List Chunk) (addr : Nat)
    (inside : addr + Chunks.span headerLength chunks ≤ 2 ^ 32)
    (fits : Chunks.span headerLength chunks ≤ arenaLength) :
    TilesFrom (addr + Chunks.span headerLength chunks) addr
      ((Chunks.place headerLength addr chunks).map listedBlock) := by
  induction chunks generalizing addr with
  | nil => rfl
  | cons chunk rest inductionRest =>
      rw [Chunks.span] at inside fits ⊢
      unfold headerLength at inside fits
      unfold arenaLength at fits
      have length : (chunkInfo chunk).length.toNat = chunk.length := by
        rw [chunkInfo, BitVec.toNat_ofNat]
        omega
      refine ⟨?_, ?_⟩
      · rw [blockAddress, BitVec.toNat_ofNat]
        exact Nat.mod_eq_of_lt (by change addr < _; omega)
      · have further := inductionRest (addr + headerLength + chunk.length)
          (by unfold headerLength; omega)
          (by unfold headerLength arenaLength; omega)
        have same : addr + headerLength + chunk.length +
            Chunks.span headerLength rest =
              addr + (headerLength + chunk.length +
                Chunks.span headerLength rest) := by
          omega
        rw [same] at further
        change TilesFrom _ (addr + 12 + (chunkInfo chunk).length.toNat) _
        rw [length]
        exact further

/-- A heap that tiles the arena looks so. -/
theorem HeapAt.arenaTiled (heap : HeapAt slobHead base m chunks)
    (arena : Arena slobHead base) (tiles : HeapTiles chunks) :
    ArenaTiled slobHead base m ((blocks base chunks).map listedBlock) := by
  have span := tiles.span
  have inside := arena.inside
  have length : ∀ chunk, chunk ∈ chunks →
      (chunkInfo chunk).length.toNat = chunk.length := by
    intro chunk member
    obtain ⟨before, after, rfl⟩ := List.append_of_mem member
    have small := chunk_length_lt tiles.fits
    rw [chunkInfo, BitVec.toNat_ofNat]
    omega
  have tilesFrom := place_tilesFrom chunks base.toNat (by omega) tiles.fits
  rw [span] at tilesFrom
  constructor
  · rw [List.map_map]
    exact heap.ring
  · intro block member
    obtain ⟨placed, placedMember, rfl⟩ := List.mem_map.mp member
    exact heap.headers placed placedMember
  · exact tilesFrom.ascending
  · exact tilesFrom
  · intro block member
    obtain ⟨placed, placedMember, rfl⟩ := List.mem_map.mp member
    have inChunks := Chunks.mem_of_placed placedMember
    change 32 ≤ (chunkInfo placed.2).length.toNat
    rw [length placed.2 inChunks]
    exact tiles.long placed.2 inChunks
  · rw [List.isChain_map]
    apply (Chunks.place_isChain tiles.coalesced).imp
    rintro left right either ⟨leftFree, rightFree⟩
    rw [chunkInfo_free.mp leftFree, chunkInfo_free.mp rightFree] at either
    simp at either

/-- Without a used block the heap is one free block. -/
theorem HeapTiles.eq_wholeArena (tiles : HeapTiles chunks)
    (unused : ∀ block, block ∈ (blocks base chunks).map listedBlock →
      block.2.allocated ≠ SLOB_USED) :
    (blocks base chunks).map listedBlock =
      [(base, chunkInfo wholeArena)] := by
  have free : ∀ chunk, chunk ∈ chunks → chunk.used = false := by
    intro chunk member
    obtain ⟨before, after, rfl⟩ := List.append_of_mem member
    have mark := unused _
      (List.mem_map_of_mem (middle_mem base before chunk after))
    cases used : chunk.used with
    | false => rfl
    | true => exact absurd (chunkInfo_used.mpr used) mark
  have positive : 0 < Chunks.span headerLength chunks := by
    rw [tiles.span]
    decide
  have single := tiles.coalesced.eq_singleton free positive
  rw [tiles.span] at single
  rw [single]
  change [(blockAddress (base.toNat, wholeArena), chunkInfo wholeArena)] = _
  rw [blockAddress_base]

theorem slobInit_invariant {m₀ m₁ : Memory} (arena : Arena slobHead base)
    (empty : Ring (nextLink m₀) (prevLink m₀) slobHead [])
    (init : slobInit slobHead base m₀ = some m₁) :
    HeapInvariant slobHead base m₁ := by
  obtain ⟨m', initRun, heap, _⟩ := slobInit_spec arena empty
  rw [init] at initRun
  rw [← Option.some.inj initRun] at heap
  exact ⟨[wholeArena], wholeArena_tiles, heap⟩

/-- In every state of every run that starts behind `slob_init`, the list of
`slob_head` is a ring in both directions whose blocks tile the arena, no two
neighbours are free, a heap without used blocks is one free block again, and
every call has a result. -/
theorem heap_tiles_arena {m₀ m₁ : Memory} (arena : Arena slobHead base)
    (empty : Ring (nextLink m₀) (prevLink m₀) slobHead [])
    (init : slobInit slobHead base m₀ = some m₁)
    (run : (heapMachine slobHead).Reaches m₁ m) :
    (∃ listed, ArenaTiled slobHead base m listed ∧
      ((∀ block, block ∈ listed → block.2.allocated ≠ SLOB_USED) →
        listed = [(base, ⟨SLOB_FREE, 4194292⟩)])) ∧
    ∀ op, (heapMachine slobHead).legal m op →
      ∃ m', (heapMachine slobHead).step m op = some m' := by
  have keeps := heapMachine_keeps arena
  have initial := slobInit_invariant arena empty init
  constructor
  · obtain ⟨chunks, tiles, heap⟩ := keeps.reaches initial run
    exact ⟨_, heap.arenaTiled arena tiles, tiles.eq_wholeArena⟩
  · intro op legal
    exact keeps.progress initial run legal

/-- A memory with an empty list at the given head. -/
def emptyListMemory (slobHead : Word) : Memory :=
  let m : Memory := ⟨fun _ => 0, []⟩
  let m := m.store32 slobHead.toNat slobHead
  m.store32 (slobHead + 4).toNat slobHead

theorem emptyListMemory_ring :
    Ring (nextLink (emptyListMemory 0xC0108000))
      (prevLink (emptyListMemory 0xC0108000)) 0xC0108000 [] :=
  Ring.nil_iff.mpr (by decide +kernel)

theorem arena_sample : Arena 0xC0108000 0xC0200000 :=
  ⟨by decide, by decide, by decide⟩

theorem heap_tiles_arena_after_kmalloc :
    ∃ m₁ m listed,
      slobInit 0xC0108000 0xC0200000 (emptyListMemory 0xC0108000) = some m₁ ∧
      (heapMachine 0xC0108000).step m₁ (.kmalloc 100) = some m ∧
      ArenaTiled 0xC0108000 0xC0200000 m listed := by
  obtain ⟨m₁, init, _⟩ := slobInit_spec arena_sample emptyListMemory_ring
  have legal : (heapMachine 0xC0108000).legal m₁ (.kmalloc 100) := by
    change (100 : Word).toNat + 12 < 2 ^ 32
    decide
  obtain ⟨m, step⟩ := (heap_tiles_arena arena_sample emptyListMemory_ring init
    Machine.Reaches.start).2 _ legal
  obtain ⟨⟨listed, tiled, _⟩, _⟩ := heap_tiles_arena arena_sample
    emptyListMemory_ring init (Machine.Reaches.step Machine.Reaches.start legal
      step)
  exact ⟨m₁, m, listed, init, step, tiled⟩

end Hlos.Mm
