import Hlos.Mm.HeapChanges

/-!
# `kmalloc` and `kfree` on a heap

The walk of `kmalloc` is first fit on the chunk list, and `kfree` is a
release.
-/

namespace Hlos.Mm

open Hlos.Lib Hlos.Include

variable {slobHead base : Word} {before after : List Chunk} {m : Memory}

/-! ## The walk over the list -/

section Walk

variable {chunk : Chunk} {chunks : List Chunk}

/-- The node of the first of the blocks `rest` behind `before`. -/
def firstNode (slobHead base : Word) (before : List Chunk) :
    (rest : List Chunk) → Word
  | [] => slobHead
  | chunk :: _ => blockNode (endOf base before, chunk)

theorem HeapAt.nextLink_head (heap : HeapAt slobHead base m chunks) :
    nextLink m slobHead = firstNode slobHead base [] chunks := by
  rw [heap.ring.next_head]
  cases chunks with
  | nil => rfl
  | cons chunk rest => rfl

theorem HeapAt.nextLink_block
    (heap : HeapAt slobHead base m (before ++ chunk :: after)) :
    nextLink m (blockNode (endOf base before, chunk)) =
      firstNode slobHead base (before ++ [chunk]) after := by
  have ring := heap.ring
  have nodes := blockNodes_middle base before [chunk] after
  change blockNodes base (before ++ chunk :: after) = _ ++ (_ :: _) at nodes
  rw [nodes] at ring
  rw [ring.next_item]
  cases after with
  | nil => rfl
  | cons next rest =>
      rw [firstNode, endOf_behind, Nat.add_assoc]
      rfl

theorem HeapAt.prevLink_first
    (heap : HeapAt slobHead base m (chunk :: after)) :
    prevLink m (blockNode (endOf base [], chunk)) = slobHead :=
  heap.ring.prev_first

theorem HeapAt.prevLink_block {prev : Chunk}
    (heap : HeapAt slobHead base m (before ++ prev :: chunk :: after)) :
    prevLink m (blockNode (endOf base (before ++ [prev]), chunk)) =
      blockNode (endOf base before, prev) := by
  have ring := heap.ring
  have nodes := blockNodes_middle base before [prev, chunk] after
  change blockNodes base (before ++ prev :: chunk :: after) =
    _ ++ (_ :: _ :: _) at nodes
  rw [nodes, ← List.singleton_append, ← List.append_assoc] at ring
  rw [endOf_behind, ring.prev_item, List.getLast?_concat]
  rfl

theorem node_ne_head (arena : Arena slobHead base)
    (fits : Chunks.span headerLength chunks ≤ arenaLength)
    {block : Nat × Chunk} (member : block ∈ blocks base chunks) :
    blockNode block ≠ slobHead := by
  have bounds := block_bounds fits member
  have node := blockNode_toNat arena fits member
  have headApart := arena.headApart
  intro same
  rw [same] at node
  omega

theorem fits_iff {len : Word} (small : chunk.length < 2 ^ 31) :
    Fits len (chunkInfo chunk) ↔
      chunk.used = false ∧ len.toNat < chunk.length := by
  rw [Fits, chunkInfo_free, gt_iff_lt, BitVec.lt_def, chunkInfo_length small]

/-- What `kmalloc` does with the block it finds. -/
def takeBlock (base len : Word) (m : Memory) :
    Option (List Chunk × Chunk × List Chunk) → Option (Word × Memory)
  | none => some (0, m)
  | some (before, chunk, _) =>
      (splitChunk (blockAddress (endOf base before, chunk)) len m).bind
        fun m => some (blockAddress (endOf base before, chunk) + blockSize, m)

/-- The loop takes the first block that fits.  The walk has passed the blocks
`before`. -/
theorem kmallocLoop_spec (arena : Arena slobHead base) (len : Word)
    (fits : Chunks.span headerLength chunks ≤ arenaLength)
    (heap : HeapAt slobHead base m chunks) (rest before : List Chunk)
    (fuel : Nat) (split : chunks = before ++ rest)
    (enough : rest.length ≤ fuel) :
    kmallocLoop slobHead len m fuel (firstNode slobHead base before rest) =
      takeBlock base len m
        ((Chunks.firstFit len.toNat rest).map fun found =>
          (before ++ found.1, found.2)) := by
  induction rest generalizing before fuel with
  | nil =>
      cases fuel <;> simp [kmallocLoop, firstNode, Chunks.firstFit, takeBlock]
  | cons chunk rest inductionRest =>
      obtain ⟨fuel, rfl⟩ : ∃ left, fuel = left + 1 :=
        Nat.exists_eq_add_one.mpr (Nat.lt_of_lt_of_le (by simp) enough)
      have hereFits := fits
      have here := heap
      rw [split] at hereFits here
      have member := middle_mem base before chunk rest
      have small := chunk_length_lt hereFits
      have block : leToBlock (blockNode (endOf base before, chunk)) =
          blockAddress (endOf base before, chunk) := leToBlock_blockList _
      have cursor : firstNode slobHead base before (chunk :: rest) =
          blockNode (endOf base before, chunk) := rfl
      rw [cursor, kmallocLoop, if_neg (node_ne_head arena hereFits member)]
      simp only [block, here.headers _ member, Chunks.firstFit]
      by_cases fitting : chunk.used = false ∧ len.toNat < chunk.length
      · rw [if_pos ((fits_iff (by omega)).mpr fitting), if_pos fitting]
        simp only [Option.map_some, takeBlock, List.append_nil]
        rfl
      · rw [if_neg (fun run => fitting ((fits_iff (by omega)).mp run)),
          if_neg fitting]
        have next := here.nextLink_block
        have further := inductionRest (before ++ [chunk]) fuel
          (by simp [split]) (by simpa using enough)
        change (some (nextLink m (blockNode (endOf base before, chunk)))).bind
          _ = _
        rw [next, Option.bind_some, further]
        cases Chunks.firstFit len.toNat rest with
        | none => rfl
        | some found => simp

/-- `kmalloc` is first fit. -/
theorem kmalloc_eq (arena : Arena slobHead base) (size : Word)
    (fits : Chunks.span headerLength chunks ≤ arenaLength)
    (heap : HeapAt slobHead base m chunks) :
    kmalloc slobHead size m =
      takeBlock base (requestLength size) m
        (Chunks.firstFit (requestLength size).toNat chunks) := by
  have few := @Chunks.length_mul_le_span headerLength chunks
  have turns := kmallocLoop_spec arena (requestLength size) fits heap chunks []
    BLOCKS_MAX rfl (by unfold headerLength arenaLength BLOCKS_MAX at *; omega)
  change kmallocLoop slobHead (requestLength size) m BLOCKS_MAX
    (nextLink m slobHead) = _
  rw [heap.nextLink_head, turns]
  cases Chunks.firstFit (requestLength size).toNat chunks <;> rfl

end Walk

/-! ## Release -/

section Release

variable {chunk : Chunk}

theorem headerBytes_mono {coarse fine : List Chunk}
    (coarser : Coarser base coarse fine) :
    ∀ position, position ∈ headerBytes slobHead base coarse →
      position ∈ headerBytes slobHead base fine := by
  rintro position (inHead | ⟨block, member, low, high⟩)
  · exact Or.inl inHead
  · obtain ⟨other, otherMember, same⟩ := coarser block member
    right
    exact ⟨other, otherMember, by omega, by omega⟩

theorem firstNode_congr {left right : List Chunk}
    (same : endOf base left = endOf base right) (rest : List Chunk) :
    firstNode slobHead base left rest = firstNode slobHead base right rest := by
  cases rest with
  | nil => rfl
  | cons chunk rest => rw [firstNode, firstNode, same]

/-- The second half of `glue_chunk` swallows a free block behind. -/
theorem glueNext_spec (arena : Arena slobHead base)
    (fits : Chunks.span headerLength (before ++ chunk :: after) ≤ arenaLength)
    (heap : HeapAt slobHead base m (before ++ chunk :: after)) :
    ∃ m', glueNext slobHead (blockAddress (endOf base before, chunk))
        (firstNode slobHead base (before ++ [chunk]) after) m = some m' ∧
      HeapAt slobHead base m'
        (before ++ Chunks.mergeNext headerLength chunk after) ∧
      Memory.WritesWithin
        (headerBytes slobHead base (before ++ chunk :: after)) m m' := by
  cases after with
  | nil =>
      refine ⟨m, ?_, heap, Memory.WritesWithin.refl _ m⟩
      rw [glueNext, if_neg (fun both => both.1 rfl)]
      rfl
  | cons next rest =>
      have member := middle_mem_next base before chunk next rest
      have isHead := node_ne_head arena fits member
      have block : leToBlock (blockNode
          (endOf base before + headerLength + chunk.length, next)) =
          blockAddress
            (endOf base before + headerLength + chunk.length, next) :=
        leToBlock_blockList _
      have info : allocated (blockAddress
          (endOf base before + headerLength + chunk.length, next)) m =
            (chunkInfo next).allocated :=
        congrArg BlockInfo.allocated (heap.headers _ member)
      rw [firstNode, endOf_behind, glueNext]
      simp only [block, info, chunkInfo_free]
      cases used : next.used with
      | true =>
          refine ⟨m, ?_, ?_, Memory.WritesWithin.refl _ m⟩
          · rw [if_neg (by simp)]
            rfl
          · simpa only [Chunks.mergeNext, used, if_true] using heap
      | false =>
          obtain ⟨m', run, merged, writes⟩ := merge_spec arena fits heap
          refine ⟨m', ?_, ?_, writes⟩
          · rw [if_pos ⟨isHead, rfl⟩]
            exact run
          · simpa only [Chunks.mergeNext, used, Bool.false_eq_true, if_false]
              using merged

/-- The first half of `glue_chunk` keeps apart from a used block before. -/
theorem gluePrev_used {prev : Chunk}
    (heap : HeapAt slobHead base m (before ++ prev :: after))
    (used : prev.used = true) (block : Word) :
    gluePrev slobHead block (blockNode (endOf base before, prev)) m =
      some (block, m) := by
  have info := congrArg BlockInfo.allocated
    (heap.headers _ (middle_mem base before prev after))
  rw [gluePrev, if_neg]
  · rfl
  · rintro ⟨_, free⟩
    rw [blockNode, leToBlock_blockList] at free
    rw [chunkInfo_free.mp (info.symm.trans free)] at used
    exact absurd used (by decide)

/-- The first half of `glue_chunk` swallows the block, if the block before is
free. -/
theorem gluePrev_free (arena : Arena slobHead base) {prev : Chunk}
    (fits : Chunks.span headerLength (before ++ prev :: chunk :: after) ≤
      arenaLength)
    (heap : HeapAt slobHead base m (before ++ prev :: chunk :: after))
    (free : prev.used = false) :
    ∃ m', gluePrev slobHead
        (blockAddress (endOf base (before ++ [prev]), chunk))
        (blockNode (endOf base before, prev)) m =
          some (blockAddress (endOf base before, prev), m') ∧
      HeapAt slobHead base m'
        (before ++ Chunks.merge headerLength prev chunk :: after) ∧
      Memory.WritesWithin
        (headerBytes slobHead base (before ++ prev :: chunk :: after))
        m m' := by
  have member := middle_mem base before prev (chunk :: after)
  have info := congrArg BlockInfo.allocated (heap.headers _ member)
  obtain ⟨m', run, merged, writes⟩ := merge_spec arena fits heap
  refine ⟨m', ?_, merged, writes⟩
  rw [gluePrev, if_pos]
  · rw [blockNode, leToBlock_blockList, endOf_behind]
    change (listDel _ _).bind _ = _
    rw [run]
    rfl
  · refine ⟨node_ne_head arena fits member, ?_⟩
    rw [blockNode, leToBlock_blockList]
    exact info.trans (chunkInfo_free.mpr free)

theorem glueChunk_eq (slobHead block : Word) (m : Memory) :
    glueChunk slobHead block m =
      (gluePrev slobHead block (prevLink m (blockList block)) m).bind
        fun result => glueNext slobHead result.1
          (nextLink m (blockList block)) result.2 := rfl

theorem merged_fits {prev : Chunk}
    (fits : Chunks.span headerLength (before ++ prev :: chunk :: after) ≤
      arenaLength) :
    Chunks.span headerLength
      (before ++ Chunks.merge headerLength prev chunk :: after) ≤
        arenaLength := by
  have same := span_merged prev chunk
  simp only [Chunks.span_append, Chunks.span] at same fits ⊢
  omega

theorem endOf_merged (base : Word) (before : List Chunk)
    (prev chunk : Chunk) :
    endOf base (before ++ [Chunks.merge headerLength prev chunk]) =
      endOf base (before ++ [prev] ++ [chunk]) := by
  have same := span_merged prev chunk
  simp only [endOf, Chunks.span_append, Chunks.span] at same ⊢
  omega

/-- `glue_chunk` merges a block with its free neighbours. -/
theorem glueChunk_spec (arena : Arena slobHead base)
    (fits : Chunks.span headerLength (before ++ chunk :: after) ≤ arenaLength)
    (heap : HeapAt slobHead base m (before ++ chunk :: after)) :
    ∃ m', glueChunk slobHead (blockAddress (endOf base before, chunk)) m =
        some m' ∧
      HeapAt slobHead base m'
        (Chunks.release headerLength chunk after before) ∧
      Memory.WritesWithin
        (headerBytes slobHead base (before ++ chunk :: after)) m m' := by
  have nextNode := heap.nextLink_block
  rcases List.eq_nil_or_concat before with rfl | ⟨front, prev, rfl⟩
  · have alone : gluePrev slobHead (blockAddress (endOf base [], chunk))
        slobHead m = some (blockAddress (endOf base [], chunk), m) := by
      rw [gluePrev, if_neg (fun both => both.1 rfl)]
      rfl
    obtain ⟨m', run, merged, writes⟩ := glueNext_spec arena fits heap
    refine ⟨m', ?_, merged, writes⟩
    rw [glueChunk_eq, ← blockNode, heap.prevLink_first, alone,
      Option.bind_some, nextNode]
    exact run
  · rw [List.concat_eq_append] at nextNode fits heap ⊢
    have pair : front ++ [prev] ++ chunk :: after =
        front ++ prev :: chunk :: after := by simp
    have pairFits := fits
    have pairHeap := heap
    rw [pair] at pairFits pairHeap
    rw [glueChunk_eq, ← blockNode, pairHeap.prevLink_block, nextNode,
      Chunks.release_concat]
    cases used : prev.used with
    | true =>
        obtain ⟨m', run, merged, writes⟩ := glueNext_spec arena fits heap
        refine ⟨m', ?_, ?_, writes⟩
        · rw [gluePrev_used pairHeap used, Option.bind_some]
          exact run
        · rw [if_pos rfl]
          simpa using merged
    | false =>
        obtain ⟨m₁, run₁, heap₁, writes₁⟩ :=
          gluePrev_free arena pairFits pairHeap used
        obtain ⟨m', run, merged, writes⟩ :=
          glueNext_spec arena (merged_fits pairFits) heap₁
        refine ⟨m', ?_, ?_, ?_⟩
        · rw [run₁, Option.bind_some,
            ← firstNode_congr (endOf_merged base front prev chunk)]
          exact run
        · simpa using merged
        · rw [pair]
          exact writes₁.trans
            (writes.mono (headerBytes_mono (coarser_merged _ _ _ _ _)))

theorem allocated_block (heap : HeapAt slobHead base m
    (before ++ chunk :: after)) :
    allocated (blockAddress (endOf base before, chunk)) m =
      (chunkInfo chunk).allocated :=
  congrArg BlockInfo.allocated
    (heap.headers _ (middle_mem base before chunk after))

/-- A free block is left as it is. -/
theorem kfree_free (heap : HeapAt slobHead base m (before ++ chunk :: after))
    (free : chunk.used = false) :
    kfree slobHead (blockAddress (endOf base before, chunk) + blockSize) m =
      some m := by
  rw [kfree, BitVec.add_sub_cancel]
  apply if_pos
  rw [allocated_block heap]
  intro isUsed
  rw [chunkInfo_used.mp isUsed] at free
  exact absurd free (by decide)

/-- A used block is released. -/
theorem kfree_used (arena : Arena slobHead base)
    (fits : Chunks.span headerLength (before ++ chunk :: after) ≤ arenaLength)
    (heap : HeapAt slobHead base m (before ++ chunk :: after))
    (used : chunk.used = true) :
    ∃ m', kfree slobHead
        (blockAddress (endOf base before, chunk) + blockSize) m = some m' ∧
      HeapAt slobHead base m'
        (Chunks.release headerLength { chunk with used := false } after
          before) ∧
      Memory.WritesWithin
        (headerBytes slobHead base (before ++ chunk :: after)) m m' := by
  obtain ⟨freed, firstWrites⟩ := free_spec arena fits heap
  have freedFits : Chunks.span headerLength
      (before ++ { chunk with used := false } :: after) ≤ arenaLength := by
    simpa only [Chunks.span_append, Chunks.span] using fits
  obtain ⟨m', run, merged, writes⟩ := glueChunk_spec arena freedFits freed
  refine ⟨m', ?_, merged, firstWrites.trans
    (writes.mono (headerBytes_mono (coarser_free base before chunk after)))⟩
  rw [kfree, BitVec.add_sub_cancel]
  rw [if_neg]
  · exact run
  · rw [allocated_block heap, chunkInfo_used.mpr used]
    exact fun different => different rfl

end Release

/-! ## Refinement -/

/-- What `kmalloc` makes of a chunk list: the position of the block it takes
and the new list.  A block that would leave less than a header and 32 bytes is
not divided, and it is not marked either. -/
def allocateChunk (len : Nat) (chunks : List Chunk) :
    Option (Nat × List Chunk) :=
  match Chunks.firstFit len chunks with
  | none => none
  | some (before, chunk, after) =>
      some (Chunks.span headerLength before,
        if chunk.length < len + 44 then chunks
        else
          before ++ ⟨true, len - headerLength⟩ ::
            ⟨false, chunk.length - len⟩ :: after)

/-- The address of the payload at a position of the arena. -/
def payloadAt (base : Word) (position : Nat) : Word :=
  BitVec.ofNat 32 (base.toNat + position) + blockSize

/-- The list head and the arena, without the payloads of used blocks. -/
def heapArea (slobHead base : Word) (chunks : List Chunk) : Set Nat :=
  {position |
    (slobHead.toNat ≤ position ∧ position < slobHead.toNat + 8) ∨
    (base.toNat ≤ position ∧ position < base.toNat + arenaLength ∧
      ∀ block, block ∈ blocks base chunks → block.2.used = true →
        position < block.1 + 12 ∨ block.1 + 12 + block.2.length ≤ position)}

section Refinement

variable {chunks : List Chunk} {chunk : Chunk}

/-- Headers of a tiling that has all used blocks lie in the heap area. -/
theorem headerBytes_heapArea {fine : List Chunk}
    (fits : Chunks.span headerLength fine ≤ arenaLength)
    (finer : ∀ block, block ∈ blocks base chunks → block.2.used = true →
      block ∈ blocks base fine) :
    ∀ position, position ∈ headerBytes slobHead base fine →
      position ∈ heapArea slobHead base chunks := by
  rintro position (inHead | ⟨block, member, low, high⟩)
  · exact Or.inl inHead
  · have bounds := block_bounds fits member
    unfold headerLength at high
    refine Or.inr ⟨by omega, by omega, ?_⟩
    intro other otherMember used
    rcases blocks_apart member (finer other otherMember used) with rfl | apart
    · exact Or.inl high
    · omega

theorem requestLength_toNat {size : Word} (noWrap : size.toNat + 12 < 2 ^ 32) :
    (requestLength size).toNat = max size.toNat 32 + 12 := by
  have least : SLOB_MIN_PART.toNat = 32 := by decide
  have header : blockSize.toNat = 12 := by decide
  rw [requestLength, BitVec.toNat_add, header]
  by_cases large : size > SLOB_MIN_PART
  · have exceeds := BitVec.lt_def.mp large
    rw [if_pos large]
    omega
  · have atMost : ¬ SLOB_MIN_PART.toNat < size.toNat :=
      fun less => large (BitVec.lt_def.mpr less)
    rw [if_neg large]
    omega

/-- A division moves no used block. -/
theorem mem_blocks_divided {len : Word} (header : 12 ≤ len.toNat)
    (long : len.toNat ≤ chunk.length) (free : chunk.used = false)
    {block : Nat × Chunk}
    (member : block ∈ blocks base (before ++ chunk :: after))
    (used : block.2.used = true) :
    block ∈ blocks base
      (before ++ takenChunk len :: restChunk chunk len :: after) := by
  have sameSpan := span_division header long
  apply (@mem_blocks_middle _ _ _ [takenChunk len, restChunk chunk len] _).mpr
  rw [sameSpan]
  rcases (@mem_blocks_middle _ _ _ [chunk] _).mp member with
    inBefore | isChunk | inAfter
  · exact Or.inl inBefore
  · rw [List.mem_singleton.mp isChunk] at used
    exact absurd (free.symm.trans used) (by decide)
  · exact Or.inr (Or.inr inAfter)

/-- `kmalloc` takes the block that `allocateChunk` takes. -/
theorem kmalloc_refines (arena : Arena slobHead base) {size : Word}
    (noWrap : size.toNat + 12 < 2 ^ 32)
    (fits : Chunks.span headerLength chunks ≤ arenaLength)
    (heap : HeapAt slobHead base m chunks) :
    match allocateChunk (requestLength size).toNat chunks with
    | none => kmalloc slobHead size m = some (0, m)
    | some (position, chunks') =>
        ∃ m', kmalloc slobHead size m = some (payloadAt base position, m') ∧
          HeapAt slobHead base m' chunks' ∧
          Memory.WritesWithin (heapArea slobHead base chunks) m m' := by
  have request := requestLength_toNat noWrap
  have call := kmalloc_eq arena size fits heap
  rw [call, allocateChunk]
  cases found : Chunks.firstFit (requestLength size).toNat chunks with
  | none => rfl
  | some place =>
      obtain ⟨before, chunk, after⟩ := place
      obtain ⟨split, free, long⟩ := Chunks.firstFit_some found
      subst split
      by_cases short : chunk.length < (requestLength size).toNat + 44
      · have whole := splitChunk_whole fits heap long short
        simp only [takeBlock, whole, if_pos short, Option.bind_some]
        exact ⟨m, rfl, heap, Memory.WritesWithin.refl _ m⟩
      · have header : 12 ≤ (requestLength size).toNat := by omega
        have room : (requestLength size).toNat + 44 ≤ chunk.length := by omega
        obtain ⟨m', run, divided, writes⟩ :=
          splitChunk_spec arena fits heap header room
        simp only [takeBlock, run, if_neg short, Option.bind_some]
        refine ⟨m', rfl, divided, writes.mono (headerBytes_heapArea ?_ ?_)⟩
        · have sameSpan := @span_division chunk _ header (by omega)
          simp only [Chunks.span_append, Chunks.span] at sameSpan fits ⊢
          omega
        · intro block member used
          exact mem_blocks_divided header (by omega) free member used

/-- `kfree` of a block releases the chunk at its position. -/
theorem kfree_refines (arena : Arena slobHead base) {position : Nat}
    (fits : Chunks.span headerLength chunks ≤ arenaLength)
    (heap : HeapAt slobHead base m chunks)
    (found : Chunks.findAt headerLength position chunks =
      some (before, chunk, after)) :
    ∃ m', kfree slobHead (payloadAt base position) m = some m' ∧
      HeapAt slobHead base m'
        (Chunks.releaseAt headerLength position chunks) ∧
      Memory.WritesWithin (heapArea slobHead base chunks) m m' := by
  obtain ⟨split, isPosition⟩ := Chunks.findAt_some found
  simp only [Chunks.releaseAt, found]
  subst split isPosition
  cases used : chunk.used with
  | false =>
      rw [if_neg (by decide)]
      exact ⟨m, kfree_free heap used, heap, Memory.WritesWithin.refl _ m⟩
  | true =>
      obtain ⟨m', run, released, writes⟩ := kfree_used arena fits heap used
      rw [if_pos rfl]
      exact ⟨m', run, released, writes.mono
        (headerBytes_heapArea fits fun _ member _ => member)⟩

end Refinement

end Hlos.Mm
