import Hlos.Lib.Chunks
import Hlos.Mm.Slob

/-!
# Heaps that represent a chunk list

`HeapAt` ties the arena to a chunk list: every block header shows its chunk,
and the list of `slob_head` runs through the headers in address order.

A step of the allocator writes headers and list nodes of one tiling.  `Shows`
follows these writes one by one.
-/

namespace Hlos.Mm

open Hlos.Lib Hlos.Include

/-- `sizeof(slob_block_t)` as a number. -/
def headerLength : Nat := 12

/-- The bytes of the arena. -/
def arenaLength : Nat := 2 ^ 22

/-- The arena starts at `base`, and the list head lies outside. -/
structure Arena (slobHead base : Word) : Prop where
  inside : base.toNat + arenaLength ≤ 2 ^ 32
  headInside : slobHead.toNat + 8 ≤ 2 ^ 32
  headApart : slobHead.toNat + 8 ≤ base.toNat ∨
    base.toNat + arenaLength ≤ slobHead.toNat

/-- The blocks of a chunk list. -/
def blocks (base : Word) (chunks : List Chunk) : List (Nat × Chunk) :=
  Chunks.place headerLength base.toNat chunks

/-- The address of a block as a pointer. -/
def blockAddress (block : Nat × Chunk) : Word := BitVec.ofNat 32 block.1

def blockNode (block : Nat × Chunk) : Word := blockList (blockAddress block)

/-- The list nodes of the blocks. -/
def blockNodes (base : Word) (chunks : List Chunk) : List Word :=
  (blocks base chunks).map blockNode

/-- The header of a chunk. -/
def chunkInfo (chunk : Chunk) : BlockInfo where
  allocated := if chunk.used then SLOB_USED else SLOB_FREE
  length := BitVec.ofNat 31 chunk.length

structure HeapAt (slobHead base : Word) (m : Memory)
    (chunks : List Chunk) : Prop where
  headers : ∀ block, block ∈ blocks base chunks →
    blockInfo (blockAddress block) m = chunkInfo block.2
  ring : Ring (nextLink m) (prevLink m) slobHead (blockNodes base chunks)

/-- The bytes of the headers and of the list head. -/
def headerBytes (slobHead base : Word) (chunks : List Chunk) : Set Nat :=
  {position |
    (slobHead.toNat ≤ position ∧ position < slobHead.toNat + 8) ∨
    ∃ block, block ∈ blocks base chunks ∧ block.1 ≤ position ∧
      position < block.1 + headerLength}

/-! ## Headers -/

theorem BlockInfo.ofWord_toWord (info : BlockInfo) :
    BlockInfo.ofWord info.toWord = info := by
  rw [BlockInfo.ofWord, BlockInfo.toWord, BitVec.extractLsb'_append_eq_left,
    BitVec.extractLsb'_append_eq_right]

theorem chunkInfo_free {chunk : Chunk} :
    (chunkInfo chunk).allocated = SLOB_FREE ↔ chunk.used = false := by
  cases used : chunk.used <;> simp [chunkInfo, used, SLOB_USED, SLOB_FREE]

theorem chunkInfo_used {chunk : Chunk} :
    (chunkInfo chunk).allocated = SLOB_USED ↔ chunk.used = true := by
  cases used : chunk.used <;> simp [chunkInfo, used, SLOB_USED, SLOB_FREE]

theorem chunkInfo_length {chunk : Chunk} (small : chunk.length < 2 ^ 31) :
    ((chunkInfo chunk).length.setWidth 32).toNat = chunk.length := by
  simp only [chunkInfo, BitVec.toNat_setWidth, BitVec.toNat_ofNat]
  omega

theorem blockList_toNat {block : Word} (room : block.toNat + 4 < 2 ^ 32) :
    (blockList block).toNat = block.toNat + 4 :=
  nextWord_toNat room

theorem leToBlock_blockList (block : Word) :
    leToBlock (blockList block) = block :=
  BitVec.add_sub_cancel block 4

/-! ## The nodes of a tiling -/

section Tiling

variable {slobHead base : Word} {chunks : List Chunk}

theorem blocks_append (base : Word) (left right : List Chunk) :
    blocks base (left ++ right) =
      blocks base left ++
        Chunks.place headerLength
          (base.toNat + Chunks.span headerLength left) right :=
  Chunks.place_append base.toNat left right

/-- A block has its header and its payload in the arena. -/
theorem block_bounds
    (fits : Chunks.span headerLength chunks ≤ arenaLength)
    {block : Nat × Chunk} (member : block ∈ blocks base chunks) :
    base.toNat ≤ block.1 ∧
      block.1 + 12 + block.2.length ≤ base.toNat + arenaLength := by
  have bounds := Chunks.place_bounds member
  unfold headerLength at bounds fits
  omega

theorem blockAddress_toNat (arena : Arena slobHead base)
    (fits : Chunks.span headerLength chunks ≤ arenaLength)
    {block : Nat × Chunk} (member : block ∈ blocks base chunks) :
    (blockAddress block).toNat = block.1 := by
  have bounds := block_bounds fits member
  have inside := arena.inside
  rw [blockAddress, BitVec.toNat_ofNat, Nat.mod_eq_of_lt (by omega)]

theorem blockNode_toNat (arena : Arena slobHead base)
    (fits : Chunks.span headerLength chunks ≤ arenaLength)
    {block : Nat × Chunk} (member : block ∈ blocks base chunks) :
    (blockNode block).toNat = block.1 + 4 := by
  have bounds := block_bounds fits member
  have inside := arena.inside
  have address := blockAddress_toNat arena fits member
  rw [blockNode, blockList_toNat (by omega), address]

theorem blocks_apart {left right : Nat × Chunk}
    (leftMember : left ∈ blocks base chunks)
    (rightMember : right ∈ blocks base chunks) :
    left = right ∨ left.1 + 12 + left.2.length ≤ right.1 ∨
      right.1 + 12 + right.2.length ≤ left.1 :=
  Chunks.place_apart leftMember rightMember

theorem block_of_node {node : Word} (member : node ∈ blockNodes base chunks) :
    ∃ block, block ∈ blocks base chunks ∧ node = blockNode block := by
  obtain ⟨block, blockMember, isNode⟩ := List.mem_map.mp member
  exact ⟨block, blockMember, isNode.symm⟩

theorem nodes_separate (arena : Arena slobHead base)
    (fits : Chunks.span headerLength chunks ≤ arenaLength) :
    SeparateNodes (slobHead :: blockNodes base chunks) := by
  have inside := arena.inside
  have headInside := arena.headInside
  have headApart := arena.headApart
  constructor
  · intro node member
    rcases List.mem_cons.mp member with rfl | isBlock
    · exact headInside
    · obtain ⟨block, blockMember, rfl⟩ := block_of_node isBlock
      have bounds := block_bounds fits blockMember
      rw [blockNode_toNat arena fits blockMember]
      omega
  · intro left right leftMember rightMember
    rcases List.mem_cons.mp leftMember with rfl | leftBlock
    · rcases List.mem_cons.mp rightMember with rfl | rightBlock
      · exact Or.inl rfl
      · obtain ⟨block, blockMember, rfl⟩ := block_of_node rightBlock
        have bounds := block_bounds fits blockMember
        rw [blockNode_toNat arena fits blockMember]
        omega
    · obtain ⟨block, blockMember, rfl⟩ := block_of_node leftBlock
      have bounds := block_bounds fits blockMember
      rw [blockNode_toNat arena fits blockMember]
      rcases List.mem_cons.mp rightMember with rfl | rightBlock
      · omega
      · obtain ⟨other, otherMember, rfl⟩ := block_of_node rightBlock
        rw [blockNode_toNat arena fits otherMember]
        rcases blocks_apart blockMember otherMember with rfl | apart
        · exact Or.inl rfl
        · omega

theorem nodes_nodup (arena : Arena slobHead base)
    (fits : Chunks.span headerLength chunks ≤ arenaLength) :
    (slobHead :: blockNodes base chunks).Nodup := by
  have headApart := arena.headApart
  refine List.nodup_cons.mpr ⟨?_, ?_⟩
  · intro member
    obtain ⟨block, blockMember, isNode⟩ := block_of_node member
    have bounds := block_bounds fits blockMember
    have node := blockNode_toNat arena fits blockMember
    rw [← isNode] at node
    omega
  · apply List.Nodup.map_on
    · intro left leftMember right rightMember same
      have leftNode := blockNode_toNat arena fits leftMember
      have rightNode := blockNode_toNat arena fits rightMember
      rw [same, rightNode] at leftNode
      rcases blocks_apart leftMember rightMember with isSame | apart
      · exact isSame
      · omega
    · exact Chunks.place_nodup (by decide)

/-- The list nodes of a tiling. -/
def heapRegion (arena : Arena slobHead base)
    (fits : Chunks.span headerLength chunks ≤ arenaLength) :
    NodeRegion Word Memory :=
  listHeadRegion (slobHead :: blockNodes base chunks)
    (nodes_separate arena fits)

end Tiling

end Hlos.Mm
