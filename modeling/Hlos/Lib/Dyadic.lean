import Mathlib.Algebra.BigOperators.Group.Finset.Basic
import Mathlib.Algebra.Order.BigOperators.Group.Finset
import Mathlib.Data.Nat.Bitwise
import Mathlib.Data.Finset.Interval
import Mathlib.Order.Interval.Finset.Nat

/-!
# Aligned power-of-two blocks of the natural numbers

A dyadic block of order `k` is one of the intervals into which the numbers are
cut by the multiples of `2 ^ k`.  Naming a block by its order and its index
makes alignment part of the data.  Two blocks that meet are nested.

The second half is about sets of pairwise disjoint blocks in which no two
buddies of an order below a given bound both occur.  Such a set is determined
by the numbers it covers: it consists of the maximal blocks among them.
-/

namespace Hlos.Lib

/-- The block of order `order` that starts at `index * 2 ^ order`. -/
@[ext]
structure DyadicBlock where
  order : Nat
  index : Nat
deriving DecidableEq, Repr

namespace DyadicBlock

def size (block : DyadicBlock) : Nat := 2 ^ block.order

def head (block : DyadicBlock) : Nat := block.index * 2 ^ block.order

/-- The block of the given order that a number falls into. -/
def around (order position : Nat) : DyadicBlock :=
  ⟨order, position / 2 ^ order⟩

/-- The number lies in the block. -/
def Covers (block : DyadicBlock) (position : Nat) : Prop :=
  position / 2 ^ block.order = block.index

/-- The other half of the next larger block. -/
def buddy (block : DyadicBlock) : DyadicBlock := ⟨block.order, block.index ^^^ 1⟩

/-- The next larger block around this one. -/
def parent (block : DyadicBlock) : DyadicBlock := ⟨block.order + 1, block.index / 2⟩

instance (block : DyadicBlock) (position : Nat) :
    Decidable (block.Covers position) :=
  inferInstanceAs (Decidable (_ = _))

@[simp]
theorem buddy_order (block : DyadicBlock) : block.buddy.order = block.order := rfl

@[simp]
theorem parent_order (block : DyadicBlock) :
    block.parent.order = block.order + 1 := rfl

theorem size_pos (block : DyadicBlock) : 0 < block.size :=
  Nat.two_pow_pos block.order

theorem covers_iff (block : DyadicBlock) (position : Nat) :
    block.Covers position ↔
      block.head ≤ position ∧ position < block.head + block.size := by
  have positive := block.size_pos
  unfold size at positive
  unfold Covers head size
  constructor
  · intro covered
    have below := Nat.div_mul_le_self position (2 ^ block.order)
    have above := Nat.lt_div_mul_add positive (a := position)
    rw [covered] at below above
    exact ⟨below, above⟩
  · rintro ⟨below, above⟩
    apply Nat.div_eq_of_lt_le below
    rw [Nat.succ_mul]
    exact above

theorem covers_head (block : DyadicBlock) : block.Covers block.head := by
  rw [covers_iff]
  exact ⟨Nat.le_refl _, Nat.lt_add_of_pos_right block.size_pos⟩

/-- An aligned position is the head of the block around it. -/
theorem head_around {order position : Nat}
    (aligned : 2 ^ order ∣ position) :
    (around order position).head = position :=
  Nat.div_mul_cancel aligned

theorem around_head (block : DyadicBlock) :
    around block.order block.head = block := by
  ext
  · rfl
  · exact Nat.mul_div_cancel _ (Nat.two_pow_pos block.order)

theorem head_dvd (block : DyadicBlock) : 2 ^ block.order ∣ block.head :=
  Nat.dvd_mul_left _ _

/-- Blocks of one order that meet are equal. -/
theorem eq_of_covers {left right : DyadicBlock} {position : Nat}
    (sameOrder : left.order = right.order)
    (inLeft : left.Covers position) (inRight : right.Covers position) :
    left = right := by
  ext
  · exact sameOrder
  · rw [← inLeft, ← inRight, sameOrder]

theorem eq_of_head {left right : DyadicBlock}
    (sameOrder : left.order = right.order)
    (sameHead : left.head = right.head) :
    left = right := by
  apply eq_of_covers sameOrder left.covers_head
  rw [sameHead]
  exact right.covers_head

/-- A block that meets a block of at least its order lies inside it. -/
theorem covers_of_le {small large : DyadicBlock} {position other : Nat}
    (orders : small.order ≤ large.order)
    (inSmall : small.Covers position) (inLarge : large.Covers position)
    (otherSmall : small.Covers other) :
    large.Covers other := by
  unfold Covers at *
  have split :
      2 ^ large.order = 2 ^ small.order * 2 ^ (large.order - small.order) := by
    rw [← Nat.pow_add, Nat.add_sub_cancel' orders]
  rw [split, ← Nat.div_div_eq_div_mul] at inLarge ⊢
  rw [otherSmall, ← inSmall]
  exact inLarge

/-- A block inside another has at most its order. -/
theorem order_le_of_subset {small large : DyadicBlock}
    (subset : ∀ position, small.Covers position → large.Covers position) :
    small.order ≤ large.order := by
  by_contra smaller
  have lower : large.order < small.order := by omega
  have start := (covers_iff large _).mp (subset _ small.covers_head)
  have lastInside : small.Covers (small.head + small.size - 1) := by
    rw [covers_iff]
    have positive := small.size_pos
    omega
  have stop := (covers_iff large _).mp (subset _ lastInside)
  have growth : 2 * large.size ≤ small.size := by
    unfold size
    calc
      2 * 2 ^ large.order = 2 ^ (large.order + 1) := by
        rw [Nat.pow_succ, Nat.mul_comm]
      _ ≤ 2 ^ small.order := Nat.pow_le_pow_right (by decide) lower
  have positive := large.size_pos
  omega

theorem buddy_buddy (block : DyadicBlock) : block.buddy.buddy = block := by
  ext
  · rfl
  · simp [buddy]

theorem buddy_ne (block : DyadicBlock) : block.buddy ≠ block := by
  intro same
  have index : block.index ^^^ 1 = block.index := congrArg DyadicBlock.index same
  have one : (1 : Nat) = 0 := by
    calc
      1 = block.index ^^^ (block.index ^^^ 1) := by
        rw [← Nat.xor_assoc, Nat.xor_self, Nat.zero_xor]
      _ = 0 := by rw [index, Nat.xor_self]
  exact absurd one (by decide)

/-- The index of the buddy, with the bit spelled out. -/
theorem buddy_index (block : DyadicBlock) :
    block.buddy.index =
      if block.index % 2 = 0 then block.index + 1 else block.index - 1 := by
  by_cases even : block.index % 2 = 0
  · rw [if_pos even]
    exact Nat.xor_one_of_even (Nat.even_iff.mpr even)
  · rw [if_neg even]
    exact Nat.xor_one_of_odd (Nat.odd_iff.mpr (by omega))

/-- The parent is made of the block and its buddy. -/
theorem parent_covers_iff (block : DyadicBlock) (position : Nat) :
    block.parent.Covers position ↔
      block.Covers position ∨ block.buddy.Covers position := by
  change position / 2 ^ (block.order + 1) = block.index / 2 ↔
    position / 2 ^ block.order = block.index ∨
      position / 2 ^ block.order = block.buddy.index
  rw [buddy_index, Nat.pow_succ, ← Nat.div_div_eq_div_mul]
  split <;> omega

theorem not_covers_buddy {block : DyadicBlock} {position : Nat}
    (covered : block.Covers position) :
    ¬ block.buddy.Covers position := by
  intro alsoBuddy
  exact block.buddy_ne (eq_of_covers rfl alsoBuddy covered)

theorem head_buddy (block : DyadicBlock) :
    block.buddy.head =
      if block.index % 2 = 0 then block.head + block.size
      else block.head - block.size := by
  unfold head size
  rw [buddy_index, buddy_order]
  split
  · rw [Nat.succ_mul]
  · rw [Nat.sub_one_mul]

theorem head_parent (block : DyadicBlock) :
    block.parent.head =
      if block.index % 2 = 0 then block.head
      else block.head - block.size := by
  change block.index / 2 * 2 ^ (block.order + 1) =
    if block.index % 2 = 0 then block.index * 2 ^ block.order
    else block.index * 2 ^ block.order - 2 ^ block.order
  rw [Nat.pow_succ, Nat.mul_comm (2 ^ block.order) 2, ← Nat.mul_assoc]
  split
  · have whole : block.index / 2 * 2 = block.index := by omega
    rw [whole]
  · have whole : block.index / 2 * 2 = block.index - 1 := by omega
    rw [whole, Nat.sub_one_mul]

/-- The half of a block that starts at its head. -/
def lower (block : DyadicBlock) : DyadicBlock := ⟨block.order - 1, 2 * block.index⟩

@[simp]
theorem lower_order (block : DyadicBlock) :
    block.lower.order = block.order - 1 := rfl

theorem lower_parent {block : DyadicBlock} (divisible : 0 < block.order) :
    block.lower.parent = block := by
  ext
  · change block.order - 1 + 1 = block.order
    omega
  · change 2 * block.index / 2 = block.index
    omega

theorem head_lower {block : DyadicBlock} (divisible : 0 < block.order) :
    block.lower.head = block.head := by
  have even : block.lower.index % 2 = 0 := by
    change 2 * block.index % 2 = 0
    omega
  have parentHead := block.lower.head_parent
  rw [lower_parent divisible, if_pos even] at parentHead
  exact parentHead.symm

theorem size_lower {block : DyadicBlock} (divisible : 0 < block.order) :
    block.size = 2 * block.lower.size := by
  rw [size, size, lower_order, ← Nat.pow_succ', Nat.succ_eq_add_one]
  congr 1
  omega

/-- The upper half starts one half size after the head. -/
theorem head_lower_buddy {block : DyadicBlock} (divisible : 0 < block.order) :
    block.lower.buddy.head = block.head + block.lower.size := by
  have even : block.lower.index % 2 = 0 := by
    change 2 * block.index % 2 = 0
    omega
  rw [head_buddy, if_pos even, head_lower divisible]

/-- A block is made of its two halves. -/
theorem halves_cover_iff {block : DyadicBlock} (divisible : 0 < block.order)
    (position : Nat) :
    block.Covers position ↔
      block.lower.Covers position ∨ block.lower.buddy.Covers position := by
  rw [← parent_covers_iff, lower_parent divisible]

/-- The head of the buddy differs from the head in one bit. -/
theorem head_xor (block : DyadicBlock) :
    block.head ^^^ 2 ^ block.order = block.buddy.head := by
  change block.index * 2 ^ block.order ^^^ 2 ^ block.order =
    (block.index ^^^ 1) * 2 ^ block.order
  have shifted :=
    Nat.shiftLeft_xor_distrib (i := block.order) (a := block.index) (b := 1)
  simp only [Nat.shiftLeft_eq, Nat.one_mul] at shifted
  exact shifted.symm

/-- The head of the parent is the common part of the two heads. -/
theorem head_and (block : DyadicBlock) :
    block.buddy.head &&& block.head = block.parent.head := by
  change (block.index ^^^ 1) * 2 ^ block.order &&&
      block.index * 2 ^ block.order =
    block.index / 2 * 2 ^ (block.order + 1)
  have shifted :=
    Nat.shiftLeft_and_distrib (i := block.order)
      (a := block.index ^^^ 1) (b := block.index)
  simp only [Nat.shiftLeft_eq] at shifted
  rw [← shifted, Nat.pow_succ, Nat.mul_comm (2 ^ block.order) 2,
    ← Nat.mul_assoc]
  congr 1
  apply Nat.eq_of_testBit_eq
  intro bit
  rw [Nat.testBit_and, Nat.testBit_xor]
  cases bit with
  | zero =>
      simp only [Nat.testBit_zero, Nat.mul_mod_left]
      cases decide (block.index % 2 = 1) <;> rfl
  | succ bit =>
      have double :
          (block.index / 2 * 2).testBit (bit + 1) =
            block.index.testBit (bit + 1) := by
        rw [Nat.testBit_succ, Nat.mul_div_cancel _ (by decide),
          Nat.testBit_succ]
      simp [double, Nat.testBit_succ]

theorem size_parent (block : DyadicBlock) :
    block.parent.size = 2 * block.size := by
  unfold size
  rw [parent_order, Nat.pow_succ, Nat.mul_comm]

/-- An upper half has room below it. -/
theorem size_le_head {block : DyadicBlock} (odd : ¬ block.index % 2 = 0) :
    block.size ≤ block.head := by
  have positive : 1 ≤ block.index := by omega
  calc
    block.size = 1 * 2 ^ block.order := (Nat.one_mul _).symm
    _ ≤ block.index * 2 ^ block.order := Nat.mul_le_mul_right _ positive

/-- The numbers of a block as a finite set. -/
def positions (block : DyadicBlock) : Finset Nat :=
  Finset.Ico block.head (block.head + block.size)

theorem mem_positions {block : DyadicBlock} {position : Nat} :
    position ∈ block.positions ↔ block.Covers position := by
  rw [positions, Finset.mem_Ico, covers_iff]

theorem card_positions (block : DyadicBlock) :
    block.positions.card = block.size := by
  rw [positions, Nat.card_Ico]
  omega

/-- Disjoint blocks that cover an initial segment add up to its length. -/
theorem sum_sizes_eq {blocks : Finset DyadicBlock} {total : Nat}
    (disjoint : ∀ left, left ∈ blocks → ∀ right, right ∈ blocks →
      ∀ position, left.Covers position → right.Covers position →
        left = right)
    (cover : ∀ position,
      position < total ↔ ∃ block, block ∈ blocks ∧ block.Covers position) :
    ∑ block ∈ blocks, block.size = total := by
  have segment : blocks.biUnion positions = Finset.range total := by
    ext position
    simp only [Finset.mem_biUnion, Finset.mem_range, mem_positions]
    exact (cover position).symm
  have apart : (blocks : Set DyadicBlock).PairwiseDisjoint positions := by
    intro left leftMember right rightMember different
    refine Finset.disjoint_left.mpr fun position inLeft inRight => ?_
    exact different
      (disjoint left leftMember right rightMember position
        (mem_positions.mp inLeft) (mem_positions.mp inRight))
  calc
    ∑ block ∈ blocks, block.size
        = ∑ block ∈ blocks, block.positions.card := by
          simp only [card_positions]
    _ = (blocks.biUnion positions).card := (Finset.card_biUnion apart).symm
    _ = total := by rw [segment, Finset.card_range]

end DyadicBlock

/-- The numbers covered by a set of blocks. -/
def coverage (blocks : Set DyadicBlock) : Set Nat :=
  {position | ∃ block, block ∈ blocks ∧ block.Covers position}

/-- Every number of the block belongs to the set. -/
def FreeRun (positions : Set Nat) (block : DyadicBlock) : Prop :=
  ∀ position, block.Covers position → position ∈ positions

/-- A block of order at most `top` inside the set which no other such block
contains. -/
structure MaximalRun (top : Nat) (positions : Set Nat)
    (block : DyadicBlock) : Prop where
  bounded : block.order ≤ top
  run : FreeRun positions block
  maximal :
    ∀ larger : DyadicBlock, larger.order ≤ top → FreeRun positions larger →
      (∀ position, block.Covers position → larger.Covers position) →
      larger = block

/-- Disjoint blocks of order at most `top` without a pair of buddies of an
order below `top`. -/
structure Coalesced (top : Nat) (blocks : Set DyadicBlock) : Prop where
  bounded : ∀ block, block ∈ blocks → block.order ≤ top
  disjoint :
    ∀ left, left ∈ blocks → ∀ right, right ∈ blocks →
      ∀ position, left.Covers position → right.Covers position →
        left = right
  no_buddies :
    ∀ block, block ∈ blocks → block.order < top → block.buddy ∉ blocks

namespace Coalesced

variable {top : Nat} {blocks : Set DyadicBlock}

/-- A block whose numbers are all covered lies inside one member.  The
induction is on its order: if neither half lies in a member of larger order
then both halves are members, and they are buddies. -/
theorem run_inside (coalesced : Coalesced top blocks) (order index : Nat)
    (bound : order ≤ top) (run : FreeRun (coverage blocks) ⟨order, index⟩) :
    ∃ member, member ∈ blocks ∧ order ≤ member.order ∧
      ∀ position, (⟨order, index⟩ : DyadicBlock).Covers position →
        member.Covers position := by
  induction order generalizing index with
  | zero =>
      let block : DyadicBlock := ⟨0, index⟩
      obtain ⟨member, isMember, covered⟩ := run block.head block.covers_head
      refine ⟨member, isMember, Nat.zero_le _, ?_⟩
      intro position inside
      exact DyadicBlock.covers_of_le (Nat.zero_le _) block.covers_head covered inside
  | succ order inductionHypothesis =>
      let left : DyadicBlock := ⟨order, 2 * index⟩
      have parentEq : left.parent = ⟨order + 1, index⟩ := by
        ext
        · rfl
        · change 2 * index / 2 = index
          omega
      rw [← parentEq] at run ⊢
      have leftRun : FreeRun (coverage blocks) left := fun position inside =>
        run position ((left.parent_covers_iff position).mpr (Or.inl inside))
      have rightRun : FreeRun (coverage blocks) left.buddy :=
        fun position inside =>
          run position ((left.parent_covers_iff position).mpr (Or.inr inside))
      obtain ⟨first, firstMember, firstOrder, firstCovers⟩ :=
        inductionHypothesis (2 * index) (by omega) leftRun
      obtain ⟨second, secondMember, secondOrder, secondCovers⟩ :=
        inductionHypothesis left.buddy.index (by omega) rightRun
      have leftHead := left.covers_head
      have rightHead := left.buddy.covers_head
      have headInParent : left.parent.Covers left.head :=
        (left.parent_covers_iff _).mpr (Or.inl leftHead)
      have buddyInParent : left.parent.Covers left.buddy.head :=
        (left.parent_covers_iff _).mpr (Or.inr rightHead)
      by_cases firstLarge : order + 1 ≤ first.order
      · refine ⟨first, firstMember, firstLarge, ?_⟩
        intro position inside
        exact DyadicBlock.covers_of_le firstLarge headInParent
          (firstCovers _ leftHead) inside
      · by_cases secondLarge : order + 1 ≤ second.order
        · refine ⟨second, secondMember, secondLarge, ?_⟩
          intro position inside
          exact DyadicBlock.covers_of_le secondLarge buddyInParent
            (secondCovers _ rightHead) inside
        · have firstIs : first = left :=
            DyadicBlock.eq_of_covers (by change first.order = order; omega)
              (firstCovers _ leftHead) leftHead
          have secondIs : second = left.buddy :=
            DyadicBlock.eq_of_covers (by change second.order = order; omega)
              (secondCovers _ rightHead) rightHead
          rw [firstIs] at firstMember
          rw [secondIs] at secondMember
          have below : left.order < top := by
            change order < top
            omega
          exact absurd secondMember
            (coalesced.no_buddies left firstMember below)

/-- The members are exactly the maximal runs of what they cover. -/
theorem mem_iff_maximalRun (coalesced : Coalesced top blocks)
    (block : DyadicBlock) :
    block ∈ blocks ↔ MaximalRun top (coverage blocks) block := by
  constructor
  · intro isMember
    refine ⟨coalesced.bounded block isMember,
      fun position inside => ⟨block, isMember, inside⟩, ?_⟩
    intro larger largerBound largerRun contains
    obtain ⟨member, memberIn, orders, memberCovers⟩ :=
      coalesced.run_inside larger.order larger.index largerBound largerRun
    have headInLarger := contains _ block.covers_head
    have same : block = member :=
      coalesced.disjoint block isMember member memberIn block.head
        block.covers_head (memberCovers _ headInLarger)
    have lower := DyadicBlock.order_le_of_subset contains
    apply DyadicBlock.eq_of_covers _ headInLarger block.covers_head
    rw [← same] at orders
    omega
  · intro maximal
    obtain ⟨member, memberIn, _, memberCovers⟩ :=
      coalesced.run_inside block.order block.index maximal.bounded maximal.run
    have same : member = block :=
      maximal.maximal member (coalesced.bounded member memberIn)
        (fun position inside => ⟨member, memberIn, inside⟩) memberCovers
    rwa [← same]

end Coalesced

end Hlos.Lib
