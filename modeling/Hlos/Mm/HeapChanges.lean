import Hlos.Mm.Heap

/-!
# Changes of a heap

The three changes that the allocator makes to a heap that represents a chunk
list: a block is freed, two neighbours become one, and a block is divided.
-/

namespace Hlos.Mm

open Hlos.Lib Hlos.Include

/-- Every block starts where a block of the finer list starts. -/
def Coarser (base : Word) (coarse fine : List Chunk) : Prop :=
  ∀ block, block ∈ blocks base coarse →
    ∃ other, other ∈ blocks base fine ∧ other.1 = block.1

section Shows

variable {slobHead base : Word} {chunks : List Chunk}

/-- Memory shows the bit fields `info` at the headers of the tiling `chunks`
and the list `items`, after writes to headers only. -/
structure Shows (arena : Arena slobHead base)
    (fits : Chunks.span headerLength chunks ≤ arenaLength)
    (m₀ m : Memory) (info : Nat → BlockInfo) (items : List Word) : Prop where
  headers : ∀ block, block ∈ blocks base chunks →
    blockInfo (blockAddress block) m = info block.1
  ring : (heapRegion arena fits).RingAt m slobHead items
  writes : Memory.WritesWithin (headerBytes slobHead base chunks) m₀ m

namespace Shows

variable {arena : Arena slobHead base}
  {fits : Chunks.span headerLength chunks ≤ arenaLength}
  {m₀ m : Memory} {info : Nat → BlockInfo} {items : List Word}

/-- A node does not reach into the bit field of a header. -/
theorem node_apart_header (arena : Arena slobHead base)
    (fits : Chunks.span headerLength chunks ≤ arenaLength)
    {block : Nat × Chunk} (member : block ∈ blocks base chunks) {node : Word}
    (isNode : node ∈ slobHead :: blockNodes base chunks) :
    node.toNat + 8 ≤ block.1 ∨ block.1 + 4 ≤ node.toNat := by
  have bounds := block_bounds fits member
  have headApart := arena.headApart
  rcases List.mem_cons.mp isNode with rfl | isBlock
  · omega
  · obtain ⟨other, otherMember, rfl⟩ := block_of_node isBlock
    rw [blockNode_toNat arena fits otherMember]
    rcases blocks_apart member otherMember with rfl | apart <;> omega

/-- A new bit field for one header. -/
theorem store (shows_ : Shows arena fits m₀ m info items)
    {block : Nat × Chunk} (member : block ∈ blocks base chunks)
    (value : BlockInfo) :
    Shows arena fits m₀
      (m.store32 (blockAddress block).toNat value.toWord)
      (Function.update info block.1 value) items := by
  have separate := nodes_separate arena fits
  have address := blockAddress_toNat arena fits member
  constructor
  · intro other otherMember
    rcases blocks_apart member otherMember with rfl | apart
    · rw [Function.update_self, blockInfo, Memory.load32_store32_self,
        BlockInfo.ofWord_toWord]
    · have otherAddress := blockAddress_toNat arena fits otherMember
      rw [Function.update_of_ne (by omega), ← shows_.headers other otherMember,
        blockInfo, blockInfo, Memory.load32_store32_of_apart]
      omega
  · refine ⟨?_, shows_.ring.nodup, shows_.ring.nodes⟩
    apply shows_.ring.ring.transport
    · intro node nodeMember
      have isNode := shows_.ring.nodes node nodeMember
      have apart := node_apart_header arena fits member isNode
      apply Memory.load32_store32_of_apart
      rw [separate.next_toNat isNode]
      omega
    · intro node nodeMember
      have isNode := shows_.ring.nodes node nodeMember
      have apart := node_apart_header arena fits member isNode
      apply Memory.load32_store32_of_apart
      omega
  · apply shows_.writes.trans
    apply Memory.store32_writesWithin
    intro offset bound
    right
    unfold headerLength
    exact ⟨block, member, by omega, by omega⟩

theorem setAllocated (shows_ : Shows arena fits m₀ m info items)
    {block : Nat × Chunk} (member : block ∈ blocks base chunks)
    (value : BitVec 1) :
    Shows arena fits m₀ (setAllocated (blockAddress block) value m)
      (Function.update info block.1
        { info block.1 with allocated := value }) items := by
  rw [Mm.setAllocated, shows_.headers block member]
  exact shows_.store member _

theorem setLength (shows_ : Shows arena fits m₀ m info items)
    {block : Nat × Chunk} (member : block ∈ blocks base chunks)
    (value : Word) :
    Shows arena fits m₀ (setLength (blockAddress block) value m)
      (Function.update info block.1
        { info block.1 with length := value.setWidth 31 }) items := by
  rw [Mm.setLength, shows_.headers block member]
  exact shows_.store member _

/-- A list edit leaves the bit fields alone. -/
theorem relink (shows_ : Shows arena fits m₀ m info items) {m' : Memory}
    {items' : List Word} (keeps : (heapRegion arena fits).keeps m m')
    (ring : (heapRegion arena fits).RingAt m' slobHead items') :
    Shows arena fits m₀ m' info items' := by
  have writes : Memory.WritesWithin
      (linkBytes (slobHead :: blockNodes base chunks)) m m' := keeps
  refine ⟨?_, ring, ?_⟩
  · intro block member
    have address := blockAddress_toNat arena fits member
    rw [← shows_.headers block member, blockInfo, blockInfo, writes.load32_eq]
    rintro offset bound ⟨node, isNode, low, high⟩
    have apart := node_apart_header arena fits member isNode
    omega
  · apply shows_.writes.trans
    apply writes.mono
    rintro position ⟨node, isNode, low, high⟩
    rcases List.mem_cons.mp isNode with rfl | isBlock
    · exact Or.inl ⟨low, high⟩
    · obtain ⟨block, member, rfl⟩ := block_of_node isBlock
      have place := blockNode_toNat arena fits member
      right
      unfold headerLength
      exact ⟨block, member, by omega, by omega⟩

/-- Read the chunk list `final` off the headers. -/
theorem heapAt (shows_ : Shows arena fits m₀ m info items)
    {final : List Chunk} (nodes : items = blockNodes base final)
    (coarser : Coarser base final chunks)
    (shown : ∀ block, block ∈ blocks base final →
      info block.1 = chunkInfo block.2) :
    HeapAt slobHead base m final := by
  constructor
  · intro block member
    obtain ⟨other, otherMember, same⟩ := coarser block member
    have address : blockAddress block = blockAddress other := by
      rw [blockAddress, blockAddress, same]
    rw [address, shows_.headers other otherMember, same, shown block member]
  · rw [← nodes]
    exact shows_.ring.ring

end Shows

/-- The bit field at an address of the arena. -/
def infoAt (m : Memory) (addr : Nat) : BlockInfo :=
  blockInfo (BitVec.ofNat 32 addr) m

/-- A heap seen through a tiling that has all its blocks. -/
theorem HeapAt.shows {m : Memory} {old : List Chunk}
    (heap : HeapAt slobHead base m old) (arena : Arena slobHead base)
    (fits : Chunks.span headerLength chunks ≤ arenaLength)
    (oldFits : Chunks.span headerLength old ≤ arenaLength)
    (finer : ∀ node, node ∈ blockNodes base old →
      node ∈ blockNodes base chunks) :
    Shows arena fits m m (infoAt m) (blockNodes base old) := by
  refine ⟨fun _ _ => rfl, ⟨heap.ring, nodes_nodup arena oldFits, ?_⟩,
    Memory.WritesWithin.refl _ m⟩
  intro node member
  rcases List.mem_cons.mp member with rfl | isBlock
  · exact List.mem_cons_self
  · exact List.mem_cons_of_mem slobHead (finer node isBlock)

theorem HeapAt.infoAt_eq {m : Memory} (heap : HeapAt slobHead base m chunks)
    {block : Nat × Chunk} (member : block ∈ blocks base chunks) :
    infoAt m block.1 = chunkInfo block.2 :=
  heap.headers block member

end Shows

/-! ## Changes of a tiling -/

section Changes

variable {slobHead base : Word} {before after : List Chunk} {m : Memory}

/-- The address behind the given chunks. -/
def endOf (base : Word) (before : List Chunk) : Nat :=
  base.toNat + Chunks.span headerLength before

theorem endOf_behind (base : Word) (before : List Chunk) (chunk : Chunk) :
    endOf base (before ++ [chunk]) =
      endOf base before + headerLength + chunk.length := by
  rw [endOf, Chunks.span_append, Chunks.span, Chunks.span, endOf]
  omega

theorem middle_mem (base : Word) (before : List Chunk) (chunk : Chunk)
    (after : List Chunk) :
    (endOf base before, chunk) ∈ blocks base (before ++ chunk :: after) :=
  Chunks.placed_middle base.toNat before chunk after

theorem middle_mem_next (base : Word) (before : List Chunk)
    (chunk next : Chunk) (after : List Chunk) :
    (endOf base before + headerLength + chunk.length, next) ∈
      blocks base (before ++ chunk :: next :: after) := by
  have member := middle_mem base (before ++ [chunk]) next after
  rw [endOf_behind, List.append_assoc] at member
  exact member

/-- The blocks of the chunks `middle` behind `before`. -/
def blocksBehind (base : Word) (before middle : List Chunk) :
    List (Nat × Chunk) :=
  Chunks.place headerLength (endOf base before) middle

theorem blocks_middle (base : Word) (before middle after : List Chunk) :
    blocks base (before ++ (middle ++ after)) =
      blocks base before ++ (blocksBehind base before middle ++
        Chunks.place headerLength
          (endOf base before + Chunks.span headerLength middle) after) := by
  rw [blocks_append, Chunks.place_append]
  rfl

theorem mem_blocks_middle {middle : List Chunk} {block : Nat × Chunk} :
    block ∈ blocks base (before ++ (middle ++ after)) ↔
      block ∈ blocks base before ∨
        block ∈ blocksBehind base before middle ∨
        block ∈ Chunks.place headerLength
          (endOf base before + Chunks.span headerLength middle) after := by
  rw [blocks_middle, List.mem_append, List.mem_append]

theorem blockNodes_middle (base : Word) (before middle after : List Chunk) :
    blockNodes base (before ++ (middle ++ after)) =
      blockNodes base before ++
        ((blocksBehind base before middle).map blockNode ++
          (Chunks.place headerLength
            (endOf base before + Chunks.span headerLength middle) after).map
              blockNode) := by
  rw [blockNodes, blocks_middle, List.map_append, List.map_append, blockNodes]

/-- A middle part of the same size with fewer blocks. -/
theorem coarser_middle (middle other : List Chunk)
    (sameSpan : Chunks.span headerLength middle =
      Chunks.span headerLength other)
    (starts : ∀ block, block ∈ blocksBehind base before middle →
      ∃ old, old ∈ blocksBehind base before other ∧ old.1 = block.1) :
    Coarser base (before ++ (middle ++ after))
      (before ++ (other ++ after)) := by
  intro block member
  rcases mem_blocks_middle.mp member with inBefore | inMiddle | inAfter
  · exact ⟨block, mem_blocks_middle.mpr (Or.inl inBefore), rfl⟩
  · obtain ⟨old, oldMember, same⟩ := starts block inMiddle
    exact ⟨old, mem_blocks_middle.mpr (Or.inr (Or.inl oldMember)), same⟩
  · rw [sameSpan] at inAfter
    exact ⟨block, mem_blocks_middle.mpr (Or.inr (Or.inr inAfter)), rfl⟩

/-- Read a chunk list with a new middle part off the headers. -/
theorem Shows.heapAt_middle (middle other : List Chunk)
    {arena : Arena slobHead base} {chunks : List Chunk}
    {fits : Chunks.span headerLength chunks ≤ arenaLength} {m₀ : Memory}
    {info : Nat → BlockInfo} {items : List Word}
    (shows_ : Shows arena fits m₀ m info items)
    (heap : HeapAt slobHead base m₀ (before ++ (other ++ after)))
    (sameSpan : Chunks.span headerLength middle =
      Chunks.span headerLength other)
    (nodes : items = blockNodes base (before ++ (middle ++ after)))
    (coarser : Coarser base (before ++ (middle ++ after)) chunks)
    (frame : ∀ addr, addr < endOf base before ∨
      endOf base before + Chunks.span headerLength other ≤ addr →
        info addr = infoAt m₀ addr)
    (shown : ∀ block, block ∈ blocksBehind base before middle →
      info block.1 = chunkInfo block.2) :
    HeapAt slobHead base m (before ++ (middle ++ after)) := by
  apply shows_.heapAt nodes coarser
  intro block member
  rcases mem_blocks_middle.mp member with inBefore | inMiddle | inAfter
  · have bounds := (Chunks.place_bounds inBefore).2
    have twelve : headerLength = 12 := rfl
    have old : block ∈ blocks base (before ++ (other ++ after)) :=
      mem_blocks_middle.mpr (Or.inl inBefore)
    rw [frame block.1 (Or.inl (by unfold endOf; omega)), heap.infoAt_eq old]
  · exact shown block inMiddle
  · rw [sameSpan] at inAfter
    have bounds := (Chunks.place_bounds inAfter).1
    have old : block ∈ blocks base (before ++ (other ++ after)) :=
      mem_blocks_middle.mpr (Or.inr (Or.inr inAfter))
    rw [frame block.1 (Or.inr bounds), heap.infoAt_eq old]

/-- The length of a block as the code reads it. -/
theorem HeapAt.length_eq {chunks : List Chunk}
    (heap : HeapAt slobHead base m chunks)
    (fits : Chunks.span headerLength chunks ≤ arenaLength)
    {block : Nat × Chunk} (member : block ∈ blocks base chunks) :
    length (blockAddress block) m = BitVec.ofNat 32 block.2.length := by
  have bounds := block_bounds fits member
  unfold arenaLength at bounds
  apply BitVec.eq_of_toNat_eq
  rw [length, heap.headers block member, chunkInfo_length (by omega),
    BitVec.toNat_ofNat]
  omega

theorem setLength_info (chunk : Chunk) (value : Nat) :
    { chunkInfo chunk with
      length := (BitVec.ofNat 32 value).setWidth 31 } =
      chunkInfo { chunk with length := value } := by
  rw [BitVec.setWidth_ofNat_of_le (by decide)]
  rfl

theorem coarser_free (base : Word) (before : List Chunk) (chunk : Chunk)
    (after : List Chunk) :
    Coarser base (before ++ { chunk with used := false } :: after)
      (before ++ chunk :: after) := by
  apply coarser_middle [{ chunk with used := false }] [chunk] rfl
  intro block isBlock
  rw [List.mem_singleton.mp isBlock]
  exact ⟨_, List.mem_cons_self, rfl⟩

/-- The use mark of one block is cleared. -/
theorem free_spec (arena : Arena slobHead base) {chunk : Chunk}
    (fits : Chunks.span headerLength (before ++ chunk :: after) ≤ arenaLength)
    (heap : HeapAt slobHead base m (before ++ chunk :: after)) :
    let m' := setAllocated (blockAddress (endOf base before, chunk))
      SLOB_FREE m
    HeapAt slobHead base m' (before ++ { chunk with used := false } :: after) ∧
      Memory.WritesWithin
        (headerBytes slobHead base (before ++ chunk :: after)) m m' := by
  intro m'
  have member := middle_mem base before chunk after
  have shows_ := (heap.shows arena fits fits
    (fun _ isNode => isNode)).setAllocated member SLOB_FREE
  refine ⟨?_, shows_.writes⟩
  apply shows_.heapAt_middle [{ chunk with used := false }] [chunk] heap rfl
  · rw [blockNodes_middle]
    exact blockNodes_middle base before [chunk] after
  · exact coarser_free base before chunk after
  · intro addr outside
    apply Function.update_of_ne
    have room : Chunks.span headerLength [chunk] = 12 + chunk.length := rfl
    change addr ≠ endOf base before
    omega
  · intro block isBlock
    rw [List.mem_singleton.mp isBlock, Function.update_self,
      heap.infoAt_eq member]
    rfl

theorem span_merged (left right : Chunk) :
    Chunks.span headerLength [Chunks.merge headerLength left right] =
      Chunks.span headerLength [left, right] := by
  simp only [Chunks.span, Chunks.merge]
  omega

theorem coarser_merged (base : Word) (before : List Chunk)
    (left right : Chunk) (after : List Chunk) :
    Coarser base (before ++ Chunks.merge headerLength left right :: after)
      (before ++ left :: right :: after) := by
  apply coarser_middle [Chunks.merge headerLength left right] [left, right]
    (span_merged left right)
  intro block member
  rw [List.mem_singleton.mp member]
  exact ⟨_, List.mem_cons_self, rfl⟩

/-- Two neighbours become one block. -/
theorem merge_spec (arena : Arena slobHead base) {left right : Chunk}
    (fits : Chunks.span headerLength (before ++ left :: right :: after) ≤
      arenaLength)
    (heap : HeapAt slobHead base m (before ++ left :: right :: after)) :
    let block := blockAddress (endOf base before, left)
    let next := blockAddress
      (endOf base before + headerLength + left.length, right)
    ∃ m', listDel (blockList next)
        (setLength block
          (length block m + (length next m + blockSize)) m) = some m' ∧
      HeapAt slobHead base m'
        (before ++ Chunks.merge headerLength left right :: after) ∧
      Memory.WritesWithin
        (headerBytes slobHead base (before ++ left :: right :: after))
        m m' := by
  intro block next
  have leftMember := middle_mem base before left (right :: after)
  have rightMember := middle_mem_next base before left right after
  have sum : length block m + (length next m + blockSize) =
      BitVec.ofNat 32 (Chunks.merge headerLength left right).length := by
    rw [heap.length_eq fits leftMember, heap.length_eq fits rightMember,
      Chunks.merge, BitVec.ofNat_add, BitVec.ofNat_add]
    rfl
  have sameSpan := span_merged left right
  have started := (heap.shows arena fits fits
    (fun _ isNode => isNode)).setLength leftMember
    (length block m + (length next m + blockSize))
  have nodes : blockNodes base (before ++ left :: right :: after) =
      (blockNodes base before ++ [blockNode (endOf base before, left)]) ++
        blockList next ::
          (Chunks.place headerLength (endOf base before +
            Chunks.span headerLength [left, right]) after).map blockNode := by
    rw [List.append_assoc]
    exact blockNodes_middle base before [left, right] after
  have ring := started.ring
  rw [nodes] at ring
  obtain ⟨m', run, keeps, ring', _⟩ := listDel_ring ring
  have finished := started.relink keeps ring'
  refine ⟨m', run, ?_, finished.writes⟩
  apply finished.heapAt_middle [Chunks.merge headerLength left right]
    [left, right] heap sameSpan
  · rw [blockNodes_middle, sameSpan, List.append_assoc]
    rfl
  · exact coarser_merged base before left right after
  · intro addr outside
    apply Function.update_of_ne
    have room : 0 < Chunks.span headerLength [left, right] := by
      simp only [Chunks.span, headerLength]
      omega
    change addr ≠ endOf base before
    omega
  · intro isBlock member
    rw [List.mem_singleton.mp member, sum, Function.update_self,
      heap.infoAt_eq leftMember]
    exact setLength_info left (Chunks.merge headerLength left right).length

/-! ## Division -/

section Division

variable {chunk : Chunk} {len : Word}

/-- The part of a divided block that is handed out. -/
def takenChunk (len : Word) : Chunk := ⟨true, len.toNat - 12⟩

/-- The part of a divided block that stays free. -/
def restChunk (chunk : Chunk) (len : Word) : Chunk :=
  ⟨false, chunk.length - len.toNat⟩

theorem span_division (header : 12 ≤ len.toNat)
    (long : len.toNat ≤ chunk.length) :
    Chunks.span headerLength [takenChunk len, restChunk chunk len] =
      Chunks.span headerLength [chunk] := by
  simp only [Chunks.span, takenChunk, restChunk, headerLength]
  omega

theorem chunk_length_lt
    (fits : Chunks.span headerLength (before ++ chunk :: after) ≤
      arenaLength) : chunk.length < 2 ^ 22 := by
  rw [Chunks.span_append, Chunks.span] at fits
  unfold headerLength arenaLength at fits
  omega

/-- The bytes left behind the request. -/
theorem left_toNat
    (fits : Chunks.span headerLength (before ++ chunk :: after) ≤ arenaLength)
    (heap : HeapAt slobHead base m (before ++ chunk :: after))
    (long : len.toNat < chunk.length) :
    (length (blockAddress (endOf base before, chunk)) m - len).toNat =
      chunk.length - len.toNat := by
  have member := middle_mem base before chunk after
  have small := chunk_length_lt fits
  rw [heap.length_eq fits member, BitVec.toNat_sub, BitVec.toNat_ofNat]
  change (2 ^ 32 - len.toNat + chunk.length % 2 ^ 32) % 2 ^ 32 = _
  omega

/-- A block that is hardly longer than the request is left as it is. -/
theorem splitChunk_whole
    (fits : Chunks.span headerLength (before ++ chunk :: after) ≤ arenaLength)
    (heap : HeapAt slobHead base m (before ++ chunk :: after))
    (long : len.toNat < chunk.length)
    (short : chunk.length < len.toNat + 44) :
    splitChunk (blockAddress (endOf base before, chunk)) len m = some m := by
  have left := left_toNat fits heap long
  have least : (blockSize + SLOB_MIN_PART).toNat = 44 := by decide
  rw [splitChunk, if_pos]
  · rfl
  · rw [BitVec.lt_def, left, least]
    omega

theorem setWidth_eq_ofNat (value : Word) :
    value.setWidth 31 = BitVec.ofNat 31 value.toNat := by
  apply BitVec.eq_of_toNat_eq
  rw [BitVec.toNat_setWidth, BitVec.toNat_ofNat]

theorem blockAddress_add (addr : Nat) (chunk other : Chunk) (len : Word) :
    blockAddress (addr, chunk) + len =
      blockAddress (addr + len.toNat, other) := by
  change BitVec.ofNat 32 addr + len = BitVec.ofNat 32 (addr + len.toNat)
  rw [BitVec.ofNat_add, BitVec.ofNat_toNat, BitVec.setWidth_eq]

/-- The rest starts where the request ends. -/
theorem endOf_taken (base : Word) (before : List Chunk)
    (header : 12 ≤ len.toNat) :
    endOf base before + headerLength + (takenChunk len).length =
      endOf base before + len.toNat := by
  simp only [takenChunk, headerLength]
  omega

/-- The list nodes before and after a division. -/
theorem blockNodes_division (base : Word) (before after : List Chunk)
    (header : 12 ≤ len.toNat) (long : len.toNat ≤ chunk.length) :
    ∃ front back,
      blockNodes base (before ++ chunk :: after) =
        front ++ blockNode (endOf base before, chunk) :: back ∧
      blockNodes base
          (before ++ takenChunk len :: restChunk chunk len :: after) =
        front ++ blockNode (endOf base before, chunk) ::
          blockNode (endOf base before + len.toNat, restChunk chunk len) ::
            back := by
  have sameSpan := span_division header long
  refine ⟨blockNodes base before, _, blockNodes_middle base before [chunk] after,
    ?_⟩
  have divided := blockNodes_middle base before
    [takenChunk len, restChunk chunk len] after
  rw [sameSpan, blocksBehind, Chunks.place, Chunks.place,
    endOf_taken base before header] at divided
  exact divided

/-- A division adds a node to the list. -/
theorem division_finer (base : Word) (before after : List Chunk)
    (header : 12 ≤ len.toNat) (long : len.toNat ≤ chunk.length) :
    ∀ node, node ∈ blockNodes base (before ++ chunk :: after) →
      node ∈ blockNodes base
        (before ++ takenChunk len :: restChunk chunk len :: after) := by
  intro node member
  obtain ⟨front, back, nodes, newNodes⟩ :=
    blockNodes_division base before after header long
  rw [nodes] at member
  rw [newNodes]
  simp only [List.mem_append, List.mem_cons] at member ⊢
  tauto

theorem division_fits (header : 12 ≤ len.toNat)
    (long : len.toNat ≤ chunk.length)
    (fits : Chunks.span headerLength (before ++ chunk :: after) ≤
      arenaLength) :
    Chunks.span headerLength
      (before ++ ([takenChunk len, restChunk chunk len] ++ after)) ≤
        arenaLength := by
  rw [Chunks.span_append, Chunks.span_append, span_division header long,
    ← Chunks.span_append, ← Chunks.span_append]
  exact fits

/-- The header of the part that is handed out. -/
theorem taken_info (header : 12 ≤ len.toNat) :
    (⟨SLOB_USED, (len - blockSize).setWidth 31⟩ : BlockInfo) =
      chunkInfo (takenChunk len) := by
  have twelve : blockSize.toNat = 12 := by decide
  have taken : (len - blockSize).toNat = len.toNat - 12 := by
    rw [BitVec.toNat_sub, twelve]
    omega
  rw [setWidth_eq_ofNat, taken]
  rfl

/-- The header of the part that stays free. -/
theorem rest_info {left : Word}
    (isLeft : left.toNat = chunk.length - len.toNat) :
    (⟨SLOB_FREE, left.setWidth 31⟩ : BlockInfo) =
      chunkInfo (restChunk chunk len) := by
  rw [setWidth_eq_ofNat, isLeft]
  rfl

theorem fresh_of_nodup {P : Type} {front back : List P} {node fresh : P}
    (nodup : (front ++ node :: fresh :: back).Nodup) :
    fresh ∉ front ++ node :: back := by
  have toFront := @List.perm_middle P fresh (front ++ [node]) back
  rw [List.append_assoc, List.append_assoc] at toFront
  exact (List.nodup_cons.mp (toFront.nodup_iff.mp nodup)).1

/-- A long block is divided. -/
theorem splitChunk_spec (arena : Arena slobHead base)
    (fits : Chunks.span headerLength (before ++ chunk :: after) ≤ arenaLength)
    (heap : HeapAt slobHead base m (before ++ chunk :: after))
    (header : 12 ≤ len.toNat) (long : len.toNat + 44 ≤ chunk.length) :
    ∃ m', splitChunk (blockAddress (endOf base before, chunk)) len m =
        some m' ∧
      HeapAt slobHead base m'
        (before ++ takenChunk len :: restChunk chunk len :: after) ∧
      Memory.WritesWithin
        (headerBytes slobHead base
          (before ++ takenChunk len :: restChunk chunk len :: after))
        m m' := by
  have shorter : len.toNat ≤ chunk.length := by omega
  have leftValue := left_toNat fits heap (by omega : len.toNat < chunk.length)
  have least : (blockSize + SLOB_MIN_PART).toNat = 44 := by decide
  have start := endOf_taken base before header
  have newFits := division_fits header shorter fits
  have takenMember :=
    middle_mem base before (takenChunk len) (restChunk chunk len :: after)
  have restMember := middle_mem_next base before (takenChunk len)
    (restChunk chunk len) after
  rw [start] at restMember
  have sized := ((heap.shows arena newFits fits
    (division_finer base before after header shorter)).setAllocated
      restMember SLOB_FREE).setLength restMember
        (length (blockAddress (endOf base before, chunk)) m - len)
  obtain ⟨front, back, nodes, newNodes⟩ :=
    blockNodes_division base before after header shorter
  have nodup := nodes_nodup arena newFits
  change (slobHead :: blockNodes base
    (before ++ takenChunk len :: restChunk chunk len :: after)).Nodup at nodup
  have ring := sized.ring
  rw [nodes] at ring
  rw [newNodes, ← List.cons_append] at nodup
  obtain ⟨m', run, keeps, ring', _⟩ := listAdd_after ring
    (List.mem_cons_of_mem _ (List.mem_map_of_mem restMember))
    (fresh_of_nodup nodup)
  have finished := ((sized.relink keeps ring').setLength takenMember
    (len - blockSize)).setAllocated takenMember SLOB_USED
  have notShort : ¬ length (blockAddress (endOf base before, chunk)) m - len <
      blockSize + SLOB_MIN_PART := by
    rw [BitVec.lt_def, leftValue, least]
    omega
  refine ⟨_, ?_, finished.heapAt_middle
    [takenChunk len, restChunk chunk len] [chunk] heap
    (span_division header shorter) newNodes.symm ?_ ?_ ?_, finished.writes⟩
  · rw [splitChunk, if_neg notShort]
    simp only [blockAddress_add _ chunk (restChunk chunk len)]
    change (listAdd (blockNode _) (blockNode _) _).bind _ = _
    rw [run]
    rfl
  · exact fun block member => ⟨block, member, rfl⟩
  · intro addr outside
    have room : Chunks.span headerLength [chunk] = 12 + chunk.length := rfl
    have notTaken : addr ≠ endOf base before := by omega
    have notRest : addr ≠ endOf base before + len.toNat := by omega
    rw [Function.update_of_ne notTaken, Function.update_of_ne notTaken,
      Function.update_of_ne notRest, Function.update_of_ne notRest]
  · intro block member
    have different : endOf base before + len.toNat ≠ endOf base before := by
      omega
    simp only [blocksBehind, Chunks.place, start, List.mem_cons,
      List.not_mem_nil, or_false] at member
    rcases member with rfl | rfl
    · rw [Function.update_self, Function.update_self]
      exact taken_info header
    · rw [Function.update_of_ne different, Function.update_of_ne different,
        Function.update_self, Function.update_self]
      exact rest_info leftValue

end Division

end Changes

end Hlos.Mm
