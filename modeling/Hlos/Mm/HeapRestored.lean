import Hlos.Mm.HeapRequests

/-!
# A request that is given back

`kfree` right behind `kmalloc` restores the block list, as long as no request
had a size that wraps around.  Such a request places a header in the middle of
another one.
-/

namespace Hlos.Mm

open Hlos.Lib Hlos.Include

/-- The list of `slob_head` has the same blocks in the same order, read in
either direction, and the blocks have the same marks and lengths. -/
structure SameList (slobHead : Word) (m m' : Memory) : Prop where
  next : ∀ count,
    (nextLink m')^[count] slobHead = (nextLink m)^[count] slobHead
  prev : ∀ count,
    (prevLink m')^[count] slobHead = (prevLink m)^[count] slobHead
  infos : ∀ count le, (nextLink m)^[count] slobHead = le → le ≠ slobHead →
    blockInfo (leToBlock le) m' = blockInfo (leToBlock le) m

/-- If `kmalloc` does not return `NULL`, then `kfree` of the result restores
the list. -/
def Restores (slobHead size : Word) (m : Memory) : Prop :=
  ∀ addr m', kmalloc slobHead size m = some (addr, m') → addr ≠ 0 →
    ∃ m'', kfree slobHead addr m' = some m'' ∧ SameList slobHead m m''

variable {slobHead base : Word} {chunks : List Chunk} {m m' : Memory}

theorem HeapAt.sameList (heap : HeapAt slobHead base m chunks)
    (heap' : HeapAt slobHead base m' chunks) : SameList slobHead m m' := by
  constructor
  · exact fun count => (heap.ring.iterate_next heap'.ring count).2
  · exact fun count => (heap.ring.iterate_prev heap'.ring count).2
  · rintro count le rfl notHead
    have member := (heap.ring.iterate_next heap'.ring count).1
    cases List.mem_cons.mp member with
    | inl isHead => exact absurd isHead notHead
    | inr inBlocks =>
        rcases block_of_node inBlocks with ⟨block, blockMember, isNode⟩
        rw [isNode, blockNode, leToBlock_blockList, heap.headers _ blockMember,
          heap'.headers _ blockMember]

/-- A release undoes an allocation, whether a block was divided or not. -/
theorem releaseAt_allocateChunk {len position : Nat} {chunks' : List Chunk}
    (coalesced : Chunks.Coalesced chunks) (header : headerLength ≤ len)
    (taken : allocateChunk len chunks = some (position, chunks')) :
    Chunks.releaseAt headerLength position chunks' = chunks := by
  rw [allocateChunk] at taken
  cases found : Chunks.firstFit len chunks with
  | none =>
      rw [found] at taken
      cases taken
  | some place =>
      rcases place with ⟨before, chunk, after⟩
      rcases Chunks.firstFit_some found with ⟨rfl, free, long⟩
      have positive : 0 < headerLength := by decide
      rw [found] at taken
      by_cases short : chunk.length < len + 44
      · simp only [if_pos short, Option.some.injEq, Prod.mk.injEq] at taken
        rcases taken with ⟨rfl, rfl⟩
        rw [Chunks.releaseAt, Chunks.findAt_span positive]
        exact if_neg (by rw [free]; exact Bool.false_ne_true)
      · simp only [if_neg short, Option.some.injEq, Prod.mk.injEq] at taken
        rcases taken with ⟨rfl, rfl⟩
        rw [Chunks.releaseAt, Chunks.findAt_span positive]
        exact coalesced.release_divided free header (by omega)

/-- In every state of every run whose requests all keep their size, `kfree`
right behind a request that does not wrap around restores the list. -/
theorem kmalloc_kfree_restores {m₀ m₁ : Memory} (arena : Arena slobHead base)
    (empty : Ring (nextLink m₀) (prevLink m₀) slobHead [])
    (init : slobInit slobHead base m₀ = some m₁)
    (run : (keptMachine slobHead).Reaches m₁ m) {size : Word}
    (noWrap : size.toNat + 12 < 2 ^ 32) : Restores slobHead size m := by
  obtain ⟨chunks, tiles, heap⟩ :=
    (keptMachine_keeps arena).reaches (slobInit_invariant arena empty init) run
  intro addr m' request notNull
  have call := kmalloc_refines arena noWrap tiles.fits heap
  cases taken : allocateChunk (requestLength size).toNat chunks with
  | none =>
      rw [taken] at call
      rw [call] at request
      cases request
      exact absurd rfl notNull
  | some result =>
      rcases result with ⟨position, chunks'⟩
      have tiles' := allocateChunk_tiles noWrap tiles taken
      have header : headerLength ≤ (requestLength size).toNat := by
        rw [requestLength_toNat noWrap]
        exact Nat.le_add_left _ _
      have restored := releaseAt_allocateChunk tiles.coalesced header taken
      rw [taken] at call
      rcases call with ⟨m₂, run₂, heap₂, _⟩
      rw [run₂] at request
      cases request
      rcases allocateChunk_block noWrap taken with
        ⟨before, chunk, after, rfl, rfl, _⟩
      have found := Chunks.findAt_span (by decide : 0 < headerLength) chunk
        after before
      rcases kfree_refines arena tiles'.fits heap₂ found with
        ⟨m'', released, heap'', _⟩
      rw [restored] at heap''
      exact ⟨m'', released, heap.sameList heap''⟩

theorem kmalloc_kfree_restores_100 :
    ∃ m₁,
      slobInit 0xC0108000 0xC0200000 (emptyListMemory 0xC0108000) = some m₁ ∧
      Restores 0xC0108000 100 m₁ := by
  obtain ⟨m₁, init, _⟩ := slobInit_spec arena_sample emptyListMemory_ring
  exact ⟨m₁, init, kmalloc_kfree_restores arena_sample emptyListMemory_ring
    init Machine.Reaches.start (by decide)⟩

/-! ## A request that wraps around -/

def initialHeap : Memory :=
  (slobInit 0xC0108000 0xC0200000 (emptyListMemory 0xC0108000)).get
    (by decide +kernel)

/-- Memory behind a request whose length wraps around to 4. -/
def wrappedHeap : Memory :=
  (heapStep 0xC0108000 initialHeap (.kmalloc 0xFFFFFFF8)).get
    (by decide +kernel)

theorem Restores.next_eq {size addr le : Word} {count : Nat}
    (restores : Restores slobHead size m)
    (run : ((kmalloc slobHead size m).bind fun result =>
      (kfree slobHead result.1 result.2).map fun m'' =>
        (result.1, (nextLink m'')^[count] slobHead)) = some (addr, le))
    (notNull : addr ≠ 0) : (nextLink m)^[count] slobHead = le := by
  rcases Option.bind_eq_some_iff.mp run with ⟨⟨addr', m'⟩, request, rest⟩
  rcases Option.map_eq_some_iff.mp rest with ⟨m'', freed, shown⟩
  cases shown
  rcases restores _ m' request notNull with ⟨other, run', same⟩
  rw [freed] at run'
  cases run'
  exact (same.next count).symm

/-- Behind a request of `0xFFFFFFF8` bytes, a request of 100 bytes that is
given back cuts the list. -/
theorem kfree_cuts_list :
    ¬ ∀ (slobHead base size : Word) (m₀ m₁ m : Memory), Arena slobHead base →
      Ring (nextLink m₀) (prevLink m₀) slobHead [] →
      slobInit slobHead base m₀ = some m₁ →
      (requestMachine slobHead).Reaches m₁ m →
      size.toNat + 12 < 2 ^ 32 → Restores slobHead size m := by
  intro general
  have init : slobInit 0xC0108000 0xC0200000 (emptyListMemory 0xC0108000) =
      some initialHeap :=
    (Option.some_get _).symm
  have wrap : heapStep 0xC0108000 initialHeap (.kmalloc 0xFFFFFFF8) =
      some wrappedHeap :=
    (Option.some_get _).symm
  have isStep : (requestMachine 0xC0108000).step = heapStep 0xC0108000 := rfl
  have reached : (requestMachine 0xC0108000).Reaches initialHeap
      wrappedHeap := by
    refine @Machine.Reaches.step _ _ _ _ _ _ (.kmalloc 0xFFFFFFF8) .start
      trivial ?_
    rw [isStep]
    exact wrap
  have restores := general _ _ 100 _ _ _ arena_sample emptyListMemory_ring init
    reached (by decide)
  have cut := @Restores.next_eq _ _ 100 0xC0200010 0 2 restores
    (by decide +kernel) (by decide)
  revert cut
  decide +kernel

end Hlos.Mm
