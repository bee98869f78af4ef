import Hlos.Mm.HeapCalls

/-!
# `slob_init`

The initialisation makes one free block of the arena and runs `slob_test`,
which ends with the same heap.  The statements of the test are followed on the
chunk list.
-/

namespace Hlos.Mm

open Hlos.Lib Hlos.Include

variable {slobHead base : Word} {chunks chunks' : List Chunk} {m : Memory}

/-- The chunks fill the arena. -/
def HeapTiles (chunks : List Chunk) : Prop :=
  Chunks.Tiles headerLength 32 arenaLength chunks

theorem HeapTiles.fits (tiles : HeapTiles chunks) :
    Chunks.span headerLength chunks ≤ arenaLength :=
  Nat.le_of_eq tiles.span

/-- The free block that takes the whole arena. -/
def wholeArena : Chunk := ⟨false, arenaLength - headerLength⟩

theorem wholeArena_tiles : HeapTiles [wholeArena] := by
  refine ⟨by decide, ?_, List.isChain_singleton wholeArena⟩
  intro chunk member
  rw [List.mem_singleton.mp member]
  decide

theorem allocateChunk_tiles {size : Word} {position : Nat}
    (noWrap : size.toNat + 12 < 2 ^ 32) (tiles : HeapTiles chunks)
    (taken : allocateChunk (requestLength size).toNat chunks =
      some (position, chunks')) : HeapTiles chunks' := by
  have request := requestLength_toNat noWrap
  rw [allocateChunk] at taken
  cases found : Chunks.firstFit (requestLength size).toNat chunks with
  | none => simp [found] at taken
  | some place =>
      obtain ⟨before, chunk, after⟩ := place
      obtain ⟨split, free, long⟩ := Chunks.firstFit_some found
      simp only [found, Option.some.injEq, Prod.mk.injEq] at taken
      rw [← taken.2]
      by_cases short : chunk.length < (requestLength size).toNat + 44
      · rw [if_pos short]
        exact tiles
      · rw [if_neg short]
        subst split
        exact tiles.divide free (by unfold headerLength; omega)
          (by unfold headerLength; omega)

theorem releaseAt_tiles {position : Nat} (tiles : HeapTiles chunks) :
    HeapTiles (Chunks.releaseAt headerLength position chunks) := by
  rw [Chunks.releaseAt]
  cases found : Chunks.findAt headerLength position chunks with
  | none => exact tiles
  | some place =>
      obtain ⟨before, chunk, after⟩ := place
      obtain ⟨split, _⟩ := Chunks.findAt_some found
      change HeapTiles (if chunk.used then _ else chunks)
      cases used : chunk.used with
      | false => exact tiles
      | true =>
          subst split
          exact Chunks.Tiles.release tiles

/-! ## Statements on chunk lists -/

/-- The statements on a chunk list, with positions for addresses.  There is no
result when `kmalloc` finds no block or `kfree` gets no block. -/
def runChunks :
    List HeapCall → (places : Nat → Option Nat) → List Chunk →
      Option (List Chunk)
  | [], _, chunks => some chunks
  | .kmalloc var size :: rest, places, chunks =>
      if size.toNat + 12 < 2 ^ 32 then
        match allocateChunk (requestLength size).toNat chunks with
        | none => none
        | some (position, chunks) =>
            runChunks rest (Function.update places var (some position)) chunks
      else none
  | .kfree var :: rest, places, chunks =>
      match places var with
      | none => none
      | some position =>
          match Chunks.findAt headerLength position chunks with
          | none => none
          | some _ =>
              runChunks rest places
                (Chunks.releaseAt headerLength position chunks)

/-- The variables hold the addresses of the known places. -/
def HoldPlaces (base : Word) (vars : Nat → Word)
    (places : Nat → Option Nat) : Prop :=
  ∀ var position, places var = some position →
    vars var = payloadAt base position

theorem HoldPlaces.update {vars : Nat → Word} {places : Nat → Option Nat}
    (hold : HoldPlaces base vars places) (var position : Nat) :
    HoldPlaces base (Function.update vars var (payloadAt base position))
      (Function.update places var (some position)) := by
  intro other place known
  by_cases same : other = var
  · rw [same, Function.update_self] at known ⊢
    rw [Option.some.inj known]
  · rw [Function.update_of_ne same] at known ⊢
    exact hold other place known

theorem heapArea_mono (slobHead base : Word) (chunks : List Chunk) :
    ∀ position, position ∈ heapArea slobHead base chunks →
      position ∈ heapArea slobHead base [] := by
  rintro position (inHead | ⟨low, high, _⟩)
  · exact Or.inl inHead
  · refine Or.inr ⟨low, high, ?_⟩
    intro block member
    simp [blocks, Chunks.place] at member

/-- The statements in memory follow the statements on the chunk list. -/
theorem runCalls_refines (arena : Arena slobHead base)
    {calls : List HeapCall} {vars : Nat → Word} {places : Nat → Option Nat}
    {chunks : List Chunk} {m : Memory} (tiles : HeapTiles chunks)
    (heap : HeapAt slobHead base m chunks) (hold : HoldPlaces base vars places)
    (run : runChunks calls places chunks = some chunks') :
    ∃ m', runCalls slobHead calls vars m = some m' ∧
      HeapAt slobHead base m' chunks' ∧
      Memory.WritesWithin (heapArea slobHead base []) m m' := by
  induction calls generalizing vars places chunks m with
  | nil =>
      have same : chunks = chunks' := Option.some.inj run
      rw [← same]
      exact ⟨m, rfl, heap, Memory.WritesWithin.refl _ m⟩
  | cons call rest inductionRest =>
      cases call with
      | kmalloc var size =>
          rw [runChunks] at run
          by_cases noWrap : size.toNat + 12 < 2 ^ 32
          · rw [if_pos noWrap] at run
            have call := kmalloc_refines arena noWrap tiles.fits heap
            cases taken :
                allocateChunk (requestLength size).toNat chunks with
            | none => simp [taken] at run
            | some result =>
                obtain ⟨position, between⟩ := result
                rw [taken] at run call
                obtain ⟨m₁, callRun, heap₁, writes₁⟩ := call
                obtain ⟨m', restRun, heap', writes'⟩ :=
                  inductionRest (allocateChunk_tiles noWrap tiles taken)
                    heap₁ (hold.update var position) run
                refine ⟨m', ?_, heap', (writes₁.mono
                  (heapArea_mono slobHead base chunks)).trans writes'⟩
                rw [runCalls, callRun]
                exact restRun
          · rw [if_neg noWrap] at run
            cases run
      | kfree var =>
          rw [runChunks] at run
          cases known : places var with
          | none => simp [known] at run
          | some position =>
              simp only [known] at run
              cases found : Chunks.findAt headerLength position chunks with
              | none => simp [found] at run
              | some place =>
                  simp only [found] at run
                  obtain ⟨m₁, callRun, heap₁, writes₁⟩ :=
                    kfree_refines arena tiles.fits heap found
                  obtain ⟨m', restRun, heap', writes'⟩ :=
                    inductionRest (releaseAt_tiles tiles) heap₁ hold run
                  refine ⟨m', ?_, heap', (writes₁.mono
                    (heapArea_mono slobHead base chunks)).trans writes'⟩
                  rw [runCalls, hold var position known, callRun]
                  exact restRun

/-! ## Initialisation -/

theorem slobTest_spec (arena : Arena slobHead base)
    (heap : HeapAt slobHead base m [wholeArena]) :
    ∃ m', slobTest slobHead m = some m' ∧
      HeapAt slobHead base m' [wholeArena] ∧
      Memory.WritesWithin (heapArea slobHead base []) m m' := by
  have script : runChunks slobTestCalls (fun _ => none) [wholeArena] =
      some [wholeArena] := by decide
  exact runCalls_refines arena wholeArena_tiles heap (by simp [HoldPlaces])
    script

theorem blockAddress_base (base : Word) (chunk : Chunk) :
    blockAddress (base.toNat, chunk) = base := by
  rw [blockAddress, BitVec.ofNat_toNat, BitVec.setWidth_eq]

/-- `slob_init` builds a heap of one free block, when the list is empty. -/
theorem slobInit_spec (arena : Arena slobHead base)
    (empty : Ring (nextLink m) (prevLink m) slobHead []) :
    ∃ m', slobInit slobHead base m = some m' ∧
      HeapAt slobHead base m' [wholeArena] ∧
      Memory.WritesWithin (heapArea slobHead base []) m m' := by
  have fits := wholeArena_tiles.fits
  have noBlocks : HeapAt slobHead base m [] := ⟨by simp [blocks, Chunks.place],
    empty⟩
  have member : (base.toNat, wholeArena) ∈ blocks base [wholeArena] :=
    List.mem_cons_self
  have sized := ((noBlocks.shows arena fits
    (Nat.zero_le _) (by simp [blockNodes, blocks, Chunks.place])).setAllocated
      member SLOB_FREE).setLength member
        (((1 : Word) <<< SLOB_PAGE_ORDER) * PAGE_SIZE - blockSize)
  have nodup := nodes_nodup arena fits
  obtain ⟨m₁, run, keeps, ring, _⟩ := listAdd_front sized.ring
    (List.mem_cons_of_mem _ (List.mem_map_of_mem member))
    (by simpa [blockNodes, blocks, Chunks.place, eq_comm] using nodup)
  have finished := sized.relink keeps ring
  have heap : HeapAt slobHead base m₁ [wholeArena] := by
    apply finished.heapAt rfl (fun block isBlock => ⟨block, isBlock, rfl⟩)
    intro block isBlock
    rw [List.mem_singleton.mp isBlock, Function.update_self,
      Function.update_self]
    have whole :
        (((1 : Word) <<< SLOB_PAGE_ORDER) * PAGE_SIZE - blockSize).setWidth
          31 = BitVec.ofNat 31 (arenaLength - headerLength) := by
      decide
    rw [whole]
    rfl
  obtain ⟨m', testRun, tested, testWrites⟩ := slobTest_spec arena heap
  refine ⟨m', ?_, tested, (finished.writes.mono
    (headerBytes_heapArea fits (by simp [blocks, Chunks.place]))).trans
      testWrites⟩
  rw [blockAddress_base] at run
  rw [slobInit]
  change (listAdd (blockList base) slobHead _).bind _ = _
  rw [blockNode, blockAddress_base] at run
  rw [run]
  exact testRun

end Hlos.Mm
