import Mathlib.Data.List.Perm.Basic
import Hlos.Lib.Dyadic

/-!
# The page allocator as a list of free blocks

What the buddy system is for, without pointers and frame structures: the free
memory is a list of dyadic blocks, the most recently freed one first.  Freeing
merges a block with its buddies as far as they are free, and allocating splits
the smallest block that is large enough.

`FreeList` is the invariant of the list.  It says that the blocks lie inside
the managed frames and that no two of them can be merged.
-/

namespace Hlos.Mm

open Hlos.Lib

/-- The largest order, `MAX_ORDER - 1`. -/
def topOrder : Nat := 10

/-- Absorb free buddies, for at most the given number of orders. -/
def mergeBlock : Nat → List DyadicBlock → DyadicBlock → List DyadicBlock × DyadicBlock
  | 0, free, block => (free, block)
  | left + 1, free, block =>
      if block.buddy ∈ free then
        mergeBlock left (free.erase block.buddy) block.parent
      else
        (free, block)

/-- Give a block back. -/
def release (free : List DyadicBlock) (block : DyadicBlock) : List DyadicBlock :=
  let merged := mergeBlock (topOrder - block.order) free block
  merged.2 :: merged.1

/-- Halve a block the given number of times; the upper halves become free. -/
def splitBlock : Nat → List DyadicBlock → DyadicBlock → List DyadicBlock × DyadicBlock
  | 0, free, block => (free, block)
  | left + 1, free, block =>
      splitBlock left (block.lower.buddy :: free) block.lower

/-- The first free block of the least order that has one, searched through
`left` orders from `order` upwards. -/
def smallestFree (free : List DyadicBlock) : (left order : Nat) → Option DyadicBlock
  | 0, _ => none
  | left + 1, order =>
      match free.find? (fun block => block.order = order) with
      | some block => some block
      | none => smallestFree free left (order + 1)

/-- Take a block of the given order. -/
def allocate (free : List DyadicBlock) (order : Nat) :
    Option (List DyadicBlock × DyadicBlock) :=
  (smallestFree free (topOrder + 1 - order) order).map fun block =>
    splitBlock (block.order - order) (free.erase block) block

/-- The numbers covered by the blocks of a list. -/
def freePositions (free : List DyadicBlock) : Set Nat :=
  coverage {block | block ∈ free}

/-- The blocks are distinct, inside the managed frames and fully merged. -/
structure FreeList (frames : Nat) (free : List DyadicBlock) : Prop where
  nodup : free.Nodup
  inside : ∀ block, block ∈ free → block.head + block.size ≤ frames
  coalesced : Coalesced topOrder {block | block ∈ free}

/-- No number of the block is free. -/
def Taken (free : List DyadicBlock) (block : DyadicBlock) : Prop :=
  ∀ position, block.Covers position → position ∉ freePositions free

theorem freePositions_cons (block : DyadicBlock) (free : List DyadicBlock)
    (position : Nat) :
    position ∈ freePositions (block :: free) ↔
      block.Covers position ∨ position ∈ freePositions free := by
  simp [freePositions, coverage]

theorem Taken.not_mem {free : List DyadicBlock} {block : DyadicBlock}
    (taken : Taken free block) : block ∉ free := by
  intro member
  exact taken block.head block.covers_head ⟨block, member, block.covers_head⟩

/-- Nothing that meets a taken block is in the list. -/
theorem Taken.not_mem_of_covers {free : List DyadicBlock} {block other : DyadicBlock}
    (taken : Taken free block) {position : Nat}
    (inBlock : block.Covers position) (inOther : other.Covers position) :
    other ∉ free :=
  fun member => taken position inBlock ⟨other, member, inOther⟩

theorem FreeList.nil (frames : Nat) : FreeList frames [] where
  nodup := List.nodup_nil
  inside := by simp
  coalesced := ⟨by simp, by simp, by simp⟩

theorem FreeList.sublist {frames : Nat} {free less : List DyadicBlock}
    (valid : FreeList frames free) (fewer : List.Sublist less free) :
    FreeList frames less where
  nodup := valid.nodup.sublist fewer
  inside := fun block member => valid.inside block (fewer.subset member)
  coalesced :=
    { bounded := fun block member =>
        valid.coalesced.bounded block (fewer.subset member)
      disjoint := fun left leftMember right rightMember =>
        valid.coalesced.disjoint left (fewer.subset leftMember) right
          (fewer.subset rightMember)
      no_buddies := fun block member below buddyMember =>
        valid.coalesced.no_buddies block (fewer.subset member) below
          (fewer.subset buddyMember) }

/-- Adding a block that is taken and whose buddy is not free. -/
theorem FreeList.cons {frames : Nat} {free : List DyadicBlock} {block : DyadicBlock}
    (valid : FreeList frames free) (taken : Taken free block)
    (inside : block.head + block.size ≤ frames)
    (bounded : block.order ≤ topOrder)
    (noBuddy : block.order < topOrder → block.buddy ∉ free) :
    FreeList frames (block :: free) where
  nodup := List.nodup_cons.mpr ⟨taken.not_mem, valid.nodup⟩
  inside := by
    intro other member
    rcases List.mem_cons.mp member with rfl | old
    · exact inside
    · exact valid.inside other old
  coalesced :=
    { bounded := by
        intro other member
        rcases List.mem_cons.mp member with rfl | old
        · exact bounded
        · exact valid.coalesced.bounded other old
      disjoint := by
        intro left leftMember right rightMember position inLeft inRight
        rcases List.mem_cons.mp leftMember with rfl | leftOld
        · rcases List.mem_cons.mp rightMember with rfl | rightOld
          · rfl
          · exact absurd rightOld (taken.not_mem_of_covers inLeft inRight)
        · rcases List.mem_cons.mp rightMember with rfl | rightOld
          · exact absurd leftOld (taken.not_mem_of_covers inRight inLeft)
          · exact valid.coalesced.disjoint left leftOld right rightOld
              position inLeft inRight
      no_buddies := by
        intro other member below buddyMember
        rcases List.mem_cons.mp member with rfl | old
        · rcases List.mem_cons.mp buddyMember with same | buddyOld
          · exact other.buddy_ne same
          · exact noBuddy below buddyOld
        · rcases List.mem_cons.mp buddyMember with same | buddyOld
          · rw [← same, other.buddy_buddy] at noBuddy
            exact noBuddy below old
          · exact valid.coalesced.no_buddies other old below buddyOld }

theorem FreeList.eq_of_head {frames : Nat} {free : List DyadicBlock}
    (valid : FreeList frames free) {left right : DyadicBlock}
    (leftMember : left ∈ free) (rightMember : right ∈ free)
    (sameHead : left.head = right.head) : left = right := by
  apply valid.coalesced.disjoint left leftMember right rightMember left.head
    left.covers_head
  rw [sameHead]
  exact right.covers_head

/-- Removing a free block removes exactly its numbers. -/
theorem FreeList.freePositions_erase {frames : Nat} {free : List DyadicBlock}
    (valid : FreeList frames free) {block : DyadicBlock} (member : block ∈ free)
    (position : Nat) :
    position ∈ freePositions (free.erase block) ↔
      position ∈ freePositions free ∧ ¬ block.Covers position := by
  constructor
  · rintro ⟨other, otherMember, covered⟩
    obtain ⟨different, old⟩ :=
      (valid.nodup.mem_erase_iff).mp otherMember
    refine ⟨⟨other, old, covered⟩, fun inBlock => different ?_⟩
    exact valid.coalesced.disjoint other old block member position covered
      inBlock
  · rintro ⟨⟨other, old, covered⟩, outside⟩
    have different : other ≠ block := by
      rintro rfl
      exact outside covered
    exact ⟨other, (valid.nodup.mem_erase_iff).mpr ⟨different, old⟩, covered⟩

theorem FreeList.taken_erase {frames : Nat} {free : List DyadicBlock}
    (valid : FreeList frames free) {block : DyadicBlock} (member : block ∈ free) :
    Taken (free.erase block) block := by
  intro position inBlock isFree
  exact ((valid.freePositions_erase member position).mp isFree).2 inBlock

/-! ## Releasing -/

/-- What `mergeBlock` delivers. -/
structure Merged (frames : Nat) (free : List DyadicBlock) (block : DyadicBlock)
    (rest : List DyadicBlock) (merged : DyadicBlock) : Prop where
  valid : FreeList frames rest
  taken : Taken rest merged
  inside : merged.head + merged.size ≤ frames
  bounded : merged.order ≤ topOrder
  noBuddy : merged.order < topOrder → merged.buddy ∉ rest
  positions : ∀ position,
    (position ∈ freePositions rest ∨ merged.Covers position) ↔
      (position ∈ freePositions free ∨ block.Covers position)

theorem parent_inside {frames : Nat} {block : DyadicBlock}
    (inside : block.head + block.size ≤ frames)
    (buddyInside : block.buddy.head + block.buddy.size ≤ frames) :
    block.parent.head + block.parent.size ≤ frames := by
  have sameSize : block.buddy.size = block.size := rfl
  have buddyHead := block.head_buddy
  have parentHead := block.head_parent
  have parentSize := block.size_parent
  rw [sameSize] at buddyInside
  by_cases even : block.index % 2 = 0
  · rw [if_pos even] at buddyHead parentHead
    omega
  · rw [if_neg even] at buddyHead parentHead
    have lower := DyadicBlock.size_le_head even
    omega

/-- Merging keeps the invariant and the covered numbers.  The induction is on
the number of orders that are left below the top. -/
theorem mergeBlock_spec {frames : Nat} (left : Nat)
    (free : List DyadicBlock) (block : DyadicBlock)
    (valid : FreeList frames free) (taken : Taken free block)
    (inside : block.head + block.size ≤ frames)
    (orders : left + block.order = topOrder) :
    Merged frames free block
      (mergeBlock left free block).1 (mergeBlock left free block).2 := by
  induction left generalizing free block with
  | zero =>
      refine ⟨valid, taken, inside, ?_, ?_, fun _ => Iff.rfl⟩
      · change block.order ≤ topOrder
        omega
      · intro below
        change block.order < topOrder at below
        omega
  | succ left inductionHypothesis =>
      by_cases buddyFree : block.buddy ∈ free
      · rw [mergeBlock, if_pos buddyFree]
        have smaller : FreeList frames (free.erase block.buddy) :=
          valid.sublist List.erase_sublist
        have positionsErase := valid.freePositions_erase buddyFree
        have parentTaken : Taken (free.erase block.buddy) block.parent := by
          intro position inParent isFree
          obtain ⟨wasFree, notBuddy⟩ := (positionsErase position).mp isFree
          rcases (block.parent_covers_iff position).mp inParent with
            inBlock | inBuddy
          · exact taken position inBlock wasFree
          · exact notBuddy inBuddy
        have parentInside :=
          parent_inside inside (valid.inside block.buddy buddyFree)
        have parentOrder : left + block.parent.order = topOrder := by
          rw [DyadicBlock.parent_order]
          omega
        have result :=
          inductionHypothesis _ _ smaller parentTaken parentInside parentOrder
        refine ⟨result.valid, result.taken, result.inside, result.bounded,
          result.noBuddy, ?_⟩
        intro position
        rw [result.positions, positionsErase, block.parent_covers_iff]
        have buddyIsFree :
            block.buddy.Covers position → position ∈ freePositions free :=
          fun inBuddy => ⟨block.buddy, buddyFree, inBuddy⟩
        tauto
      · rw [mergeBlock, if_neg buddyFree]
        refine ⟨valid, taken, inside, ?_, fun _ => buddyFree, fun _ => Iff.rfl⟩
        change block.order ≤ topOrder
        omega

/-- Releasing a taken block keeps the invariant. -/
theorem release_valid {frames : Nat} {free : List DyadicBlock} {block : DyadicBlock}
    (valid : FreeList frames free) (taken : Taken free block)
    (inside : block.head + block.size ≤ frames)
    (bounded : block.order ≤ topOrder) :
    FreeList frames (release free block) := by
  have merged :=
    mergeBlock_spec (topOrder - block.order) free block valid taken inside
      (by omega)
  exact merged.valid.cons merged.taken merged.inside merged.bounded
    merged.noBuddy

/-- Releasing a block frees its numbers and no others. -/
theorem release_positions {frames : Nat} {free : List DyadicBlock} {block : DyadicBlock}
    (valid : FreeList frames free) (taken : Taken free block)
    (inside : block.head + block.size ≤ frames)
    (bounded : block.order ≤ topOrder) (position : Nat) :
    position ∈ freePositions (release free block) ↔
      position ∈ freePositions free ∨ block.Covers position := by
  have merged :=
    mergeBlock_spec (topOrder - block.order) free block valid taken inside
      (by omega)
  rw [release, freePositions_cons, Or.comm]
  exact merged.positions position

/-! ## The largest blocks -/

/-- The first block of the top order. -/
def firstTop (free : List DyadicBlock) : Option DyadicBlock :=
  free.find? fun block => block.order = topOrder

theorem firstTop_cons {free : List DyadicBlock} {block : DyadicBlock}
    (isTop : block.order = topOrder) : firstTop (block :: free) = some block :=
  List.find?_cons_of_pos (by simpa using isTop)

theorem firstTop_cons_of_ne {free : List DyadicBlock} {block : DyadicBlock}
    (notTop : block.order ≠ topOrder) :
    firstTop (block :: free) = firstTop free :=
  List.find?_cons_of_neg (by simpa using notTop)

theorem firstTop_erase {free : List DyadicBlock} {block : DyadicBlock}
    (notTop : block.order ≠ topOrder) :
    firstTop (free.erase block) = firstTop free := by
  induction free with
  | nil => rfl
  | cons head rest inductionRest =>
      by_cases isHead : head = block
      · rw [isHead, List.erase_cons_head, firstTop_cons_of_ne notTop]
      · rw [List.erase_cons_tail (by simpa using isHead)]
        by_cases isTop : head.order = topOrder
        · rw [firstTop_cons isTop, firstTop_cons isTop]
        · rw [firstTop_cons_of_ne isTop, firstTop_cons_of_ne isTop,
            inductionRest]

/-- Buddies that are absorbed are smaller than the largest blocks, and the
merged block contains the one given back. -/
theorem mergeBlock_top (left : Nat) (free : List DyadicBlock)
    (block : DyadicBlock) (orders : left + block.order = topOrder) :
    firstTop (mergeBlock left free block).1 = firstTop free ∧
      ∀ position, block.Covers position →
        (mergeBlock left free block).2.Covers position := by
  induction left generalizing free block with
  | zero => exact ⟨rfl, fun _ covered => covered⟩
  | succ left inductionHypothesis =>
      by_cases buddyFree : block.buddy ∈ free
      · rw [mergeBlock, if_pos buddyFree]
        have small : block.buddy.order ≠ topOrder := by
          rw [DyadicBlock.buddy_order]
          omega
        obtain ⟨first, contained⟩ :=
          inductionHypothesis (free.erase block.buddy) block.parent (by
            rw [DyadicBlock.parent_order]
            omega)
        rw [firstTop_erase small] at first
        exact ⟨first, fun position covered => contained position
          ((block.parent_covers_iff position).mpr (Or.inl covered))⟩
      · rw [mergeBlock, if_neg buddyFree]
        exact ⟨rfl, fun _ covered => covered⟩

theorem release_firstTop {free : List DyadicBlock} {block : DyadicBlock}
    (isTop : block.order = topOrder) :
    firstTop (release free block) = some block := by
  rw [release, isTop, Nat.sub_self]
  exact firstTop_cons isTop

/-- A block near the end is not merged to one of the top order. -/
theorem release_firstTop_of_end {frames : Nat} {free : List DyadicBlock}
    {block : DyadicBlock} (valid : FreeList frames free)
    (taken : Taken free block) (inside : block.head + block.size ≤ frames)
    (bounded : block.order ≤ topOrder)
    (atEnd : frames / 2 ^ topOrder = block.head / 2 ^ topOrder) :
    firstTop (release free block) = firstTop free := by
  have orders : topOrder - block.order + block.order = topOrder := by omega
  obtain ⟨first, contained⟩ :=
    mergeBlock_top (topOrder - block.order) free block orders
  have merged := mergeBlock_spec (topOrder - block.order) free block valid
    taken inside orders
  rw [release, firstTop_cons_of_ne, first]
  intro isTop
  have covered := contained block.head block.covers_head
  have bound := merged.inside
  rw [DyadicBlock.Covers, isTop, ← atEnd] at covered
  rw [DyadicBlock.head, DyadicBlock.size, isTop, ← covered] at bound
  have last := Nat.lt_div_mul_add (Nat.two_pow_pos topOrder) (a := frames)
  omega

/-! ## Allocating -/

/-- The block found is the first one of its order, and no free block has an
order between the one asked for and its own. -/
structure Smallest (free : List DyadicBlock) (order : Nat)
    (block : DyadicBlock) : Prop where
  first : free.find? (fun other => other.order = block.order) = some block
  enough : order ≤ block.order
  least : ∀ other, other ∈ free → order ≤ other.order →
    block.order ≤ other.order

theorem Smallest.mem {free : List DyadicBlock} {order : Nat} {block : DyadicBlock}
    (smallest : Smallest free order block) : block ∈ free :=
  List.mem_of_find?_eq_some smallest.first

theorem smallestFree_some {free : List DyadicBlock} {block : DyadicBlock}
    {left order : Nat} (found : smallestFree free left order = some block) :
    Smallest free order block := by
  induction left generalizing order with
  | zero => simp [smallestFree] at found
  | succ left inductionHypothesis =>
      rw [smallestFree] at found
      cases here : free.find? (fun block => block.order = order) with
      | some candidate =>
          rw [here] at found
          have same : candidate = block := Option.some.inj found
          have candidateOrder : candidate.order = order := by
            simpa using List.find?_some here
          subst same
          refine ⟨?_, by omega, fun other _ lower => by omega⟩
          rw [candidateOrder]
          exact here
      | none =>
          rw [here] at found
          have rest := inductionHypothesis found
          refine ⟨rest.first, by have := rest.enough; omega, ?_⟩
          intro other member lower
          have absent := List.find?_eq_none.mp here other member
          have different : other.order ≠ order := by simpa using absent
          exact rest.least other member (by omega)

/-- What `splitBlock` delivers. -/
structure Split (frames : Nat) (free : List DyadicBlock) (block : DyadicBlock)
    (order : Nat) (rest : List DyadicBlock) (part : DyadicBlock) : Prop where
  valid : FreeList frames rest
  taken : Taken rest part
  order_eq : part.order = order
  head_eq : part.head = block.head
  positions : ∀ position,
    (position ∈ freePositions rest ∨ part.Covers position) ↔
      (position ∈ freePositions free ∨ block.Covers position)

/-- One halving keeps the invariant, and leaves the lower half taken. -/
theorem halve_spec {frames : Nat} {free : List DyadicBlock} {block : DyadicBlock}
    (valid : FreeList frames free) (taken : Taken free block)
    (inside : block.head + block.size ≤ frames)
    (bounded : block.order ≤ topOrder) (divisible : 0 < block.order) :
    FreeList frames (block.lower.buddy :: free) ∧
      Taken (block.lower.buddy :: free) block.lower ∧
      block.lower.head + block.lower.size ≤ frames := by
  have halves := DyadicBlock.halves_cover_iff divisible
  have lowerHead := DyadicBlock.head_lower divisible
  have upperHead := DyadicBlock.head_lower_buddy divisible
  have sizes := DyadicBlock.size_lower divisible
  have upperSize : block.lower.buddy.size = block.lower.size := rfl
  have upperTaken : Taken free block.lower.buddy := fun position inUpper =>
    taken position ((halves position).mpr (Or.inr inUpper))
  have lowerTaken : Taken free block.lower := fun position inLower =>
    taken position ((halves position).mpr (Or.inl inLower))
  refine ⟨valid.cons upperTaken ?_ ?_ ?_, ?_, ?_⟩
  · omega
  · change block.order - 1 ≤ topOrder
    omega
  · intro _ member
    rw [DyadicBlock.buddy_buddy] at member
    exact lowerTaken.not_mem member
  · intro position inLower isFree
    rcases (freePositions_cons _ _ _).mp isFree with inUpper | wasFree
    · exact DyadicBlock.not_covers_buddy inLower inUpper
    · exact lowerTaken position inLower wasFree
  · omega

theorem splitBlock_spec {frames : Nat} (left : Nat)
    (free : List DyadicBlock) (block : DyadicBlock)
    (valid : FreeList frames free) (taken : Taken free block)
    (inside : block.head + block.size ≤ frames)
    (bounded : block.order ≤ topOrder) (enough : left ≤ block.order) :
    Split frames free block (block.order - left)
      (splitBlock left free block).1 (splitBlock left free block).2 := by
  induction left generalizing free block with
  | zero => exact ⟨valid, taken, rfl, rfl, fun _ => Iff.rfl⟩
  | succ left inductionHypothesis =>
      have divisible : 0 < block.order := by omega
      obtain ⟨halfValid, halfTaken, halfInside⟩ :=
        halve_spec valid taken inside bounded divisible
      have lowerOrder := block.lower_order
      have result :=
        inductionHypothesis _ _ halfValid halfTaken halfInside (by omega)
          (by omega)
      refine ⟨result.valid, result.taken, ?_, ?_, ?_⟩
      · rw [splitBlock, result.order_eq]
        omega
      · rw [splitBlock, result.head_eq, DyadicBlock.head_lower divisible]
      · intro position
        rw [splitBlock, result.positions, freePositions_cons,
          DyadicBlock.halves_cover_iff divisible]
        tauto

/-- What a successful allocation delivers. -/
structure Allocated (frames : Nat) (free : List DyadicBlock) (order : Nat)
    (rest : List DyadicBlock) (block : DyadicBlock) : Prop where
  valid : FreeList frames rest
  taken : Taken rest block
  order_eq : block.order = order
  bounded : block.order ≤ topOrder
  inside : block.head + block.size ≤ frames
  positions : ∀ position,
    position ∈ freePositions free ↔
      position ∈ freePositions rest ∨ block.Covers position

theorem allocate_spec {frames order : Nat} {free rest : List DyadicBlock}
    {block : DyadicBlock} (valid : FreeList frames free)
    (allocated : allocate free order = some (rest, block)) :
    Allocated frames free order rest block := by
  rw [allocate, Option.map_eq_some_iff] at allocated
  obtain ⟨source, found, result⟩ := allocated
  have smallest := smallestFree_some found
  have member := smallest.mem
  have enough := smallest.enough
  have sourceInside := valid.inside source member
  have split :=
    splitBlock_spec (source.order - order) (free.erase source) source
      (valid.sublist List.erase_sublist) (valid.taken_erase member)
      sourceInside (valid.coalesced.bounded source member) (by omega)
  rw [result] at split
  have orderEq : block.order = order := by
    rw [split.order_eq]
    omega
  have sizeLe : block.size ≤ source.size := by
    unfold DyadicBlock.size
    exact Nat.pow_le_pow_right (by decide) (by omega)
  have sourceBounded := valid.coalesced.bounded source member
  refine ⟨split.valid, split.taken, orderEq, ?_, ?_, ?_⟩
  · omega
  · rw [split.head_eq]
    omega
  · intro position
    rw [split.positions, valid.freePositions_erase member]
    have sourceFree :
        source.Covers position → position ∈ freePositions free :=
      fun inSource => ⟨source, member, inSource⟩
    tauto

/-- A failed search leaves no free block of the orders it went through. -/
theorem smallestFree_none {free : List DyadicBlock} {left order : Nat}
    (absent : smallestFree free left order = none) {block : DyadicBlock}
    (member : block ∈ free) (enough : order ≤ block.order) :
    order + left ≤ block.order := by
  induction left generalizing order with
  | zero => exact enough
  | succ left inductionHypothesis =>
      rw [smallestFree] at absent
      cases here : free.find? (fun block => block.order = order) with
      | some candidate =>
          rw [here] at absent
          cases absent
      | none =>
          rw [here] at absent
          have different : block.order ≠ order := by
            simpa using List.find?_eq_none.mp here block member
          have rest := inductionHypothesis absent (by omega)
          omega

/-- The search is complete: a run of free numbers lies inside one free block,
because the free blocks are merged. -/
theorem allocate_eq_none_iff {frames : Nat} {free : List DyadicBlock}
    (valid : FreeList frames free) (order : Nat) :
    allocate free order = none ↔
      topOrder < order ∨
        ¬ ∃ run : DyadicBlock, run.order = order ∧
          FreeRun (freePositions free) run := by
  rw [allocate, Option.map_eq_none_iff]
  constructor
  · intro absent
    by_cases large : topOrder < order
    · exact Or.inl large
    · refine Or.inr fun exists_ => ?_
      obtain ⟨run, rfl, isFree⟩ := exists_
      obtain ⟨member, inFree, enough, _⟩ :=
        valid.coalesced.run_inside run.order run.index (by omega) isFree
      have tooLarge := smallestFree_none absent inFree enough
      have bounded := valid.coalesced.bounded member inFree
      omega
  · intro noRun
    cases found : smallestFree free (topOrder + 1 - order) order with
    | none => rfl
    | some source =>
        have smallest := smallestFree_some found
        have member := smallest.mem
        have enough := smallest.enough
        have bounded := valid.coalesced.bounded source member
        cases noRun with
        | inl large => omega
        | inr noRun =>
            -- the run at the head of the block that the search has found
            have aligned : 2 ^ order ∣ source.head :=
              Nat.dvd_trans (Nat.pow_dvd_pow 2 enough) source.head_dvd
            let run := DyadicBlock.around order source.head
            have start : run.Covers source.head := by
              rw [← DyadicBlock.head_around aligned]
              exact run.covers_head
            refine absurd ⟨run, rfl, ?_⟩ noRun
            intro position covered
            exact ⟨source, member, DyadicBlock.covers_of_le enough start
              source.covers_head covered⟩

/-- A block is cut out of the smallest free block that is large enough. -/
theorem allocate_source {frames order : Nat} {free rest : List DyadicBlock}
    {block : DyadicBlock} (valid : FreeList frames free)
    (allocated : allocate free order = some (rest, block)) :
    ∃ source, Smallest free order source ∧
      (rest, block) =
        splitBlock (source.order - order) (free.erase source) source ∧
      ∀ position, block.Covers position → source.Covers position := by
  have delivered := allocate_spec valid allocated
  rw [allocate, Option.map_eq_some_iff] at allocated
  obtain ⟨source, found, result⟩ := allocated
  have smallest := smallestFree_some found
  have split :=
    splitBlock_spec (source.order - order) (free.erase source) source
      (valid.sublist List.erase_sublist) (valid.taken_erase smallest.mem)
      (valid.inside source smallest.mem)
      (valid.coalesced.bounded source smallest.mem) (Nat.sub_le _ _)
  rw [result] at split
  have sameHead : block.head = source.head := split.head_eq
  have orders : block.order ≤ source.order := by
    rw [delivered.order_eq]
    exact smallest.enough
  refine ⟨source, smallest, result.symm, ?_⟩
  intro position covered
  apply DyadicBlock.covers_of_le orders block.covers_head _ covered
  rw [sameHead]
  exact source.covers_head

/-! ## Allocating and releasing again -/

/-- Merging takes back the halves that splitting has freed.  The induction is
on the number of halvings; the last half that was split off is the first one
to be absorbed. -/
theorem mergeBlock_splitBlock (above left : Nat) (free : List DyadicBlock)
    (block : DyadicBlock) (enough : left ≤ block.order) :
    mergeBlock (above + left) (splitBlock left free block).1
        (splitBlock left free block).2 =
      mergeBlock above free block := by
  induction left generalizing above free block with
  | zero => rfl
  | succ left inductionHypothesis =>
      have divisible : 0 < block.order := by omega
      have lowerOrder := block.lower_order
      have rest :=
        inductionHypothesis (above + 1) (block.lower.buddy :: free) block.lower
          (by omega)
      have turns : above + (left + 1) = above + 1 + left := by omega
      rw [splitBlock, turns, rest, mergeBlock,
        if_pos List.mem_cons_self, List.erase_cons_head,
        DyadicBlock.lower_parent divisible]

/-- A block that was free cannot be merged, since its buddy is not free. -/
theorem mergeBlock_erase {frames : Nat} {free : List DyadicBlock}
    (valid : FreeList frames free) {block : DyadicBlock} (member : block ∈ free) :
    mergeBlock (topOrder - block.order) (free.erase block) block =
      (free.erase block, block) := by
  cases left : topOrder - block.order with
  | zero => rfl
  | succ left =>
      have below : block.order < topOrder := by omega
      have noBuddy : block.buddy ∉ free.erase block := fun buddyMember =>
        valid.coalesced.no_buddies block member below
          (List.mem_of_mem_erase buddyMember)
      rw [mergeBlock, if_neg noBuddy]

/-- Releasing an allocated block puts its source back in front. -/
theorem release_allocate {frames order : Nat} {free rest : List DyadicBlock}
    {block : DyadicBlock} (valid : FreeList frames free)
    (allocated : allocate free order = some (rest, block)) :
    ∃ source, Smallest free order source ∧
      release rest block = source :: free.erase source := by
  have delivered := allocate_spec valid allocated
  obtain ⟨source, smallest, result, _⟩ := allocate_source valid allocated
  have enough := smallest.enough
  have bounded := valid.coalesced.bounded source smallest.mem
  have turns :
      topOrder - block.order =
        (topOrder - source.order) + (source.order - order) := by
    rw [delivered.order_eq]
    omega
  have merged :=
    mergeBlock_splitBlock (topOrder - source.order) (source.order - order)
      (free.erase source) source (Nat.sub_le _ _)
  rw [← result, ← turns, mergeBlock_erase valid smallest.mem] at merged
  refine ⟨source, smallest, ?_⟩
  rw [release, merged]

end Hlos.Mm
