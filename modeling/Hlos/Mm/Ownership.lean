import Mathlib.Algebra.BigOperators.Group.List.Basic
import Mathlib.Algebra.BigOperators.Intervals
import Hlos.Mm.FreeBlocks

/-!
# Free and allocated blocks together

A client of the page allocator knows a block by the number of its head page
and its allocation order.  `Tiling` says that the blocks clients hold and the
blocks on the free lists partition the managed frames.
-/

namespace Hlos.Mm

open Hlos.Lib

/-- A head page with an order. -/
abbrev Entry : Type := Nat × Nat

namespace Entry

/-- The page lies in `[head, head + 2 ^ order)`. -/
def Holds (entry : Entry) (page : Nat) : Prop :=
  entry.1 ≤ page ∧ page < entry.1 + 2 ^ entry.2

instance (entry : Entry) (page : Nat) : Decidable (entry.Holds page) :=
  inferInstanceAs (Decidable (_ ∧ _))

/-- The dyadic block of an aligned entry. -/
def block (entry : Entry) : DyadicBlock :=
  DyadicBlock.around entry.2 entry.1

def Aligned (entry : Entry) : Prop := 2 ^ entry.2 ∣ entry.1

theorem block_head {entry : Entry} (aligned : entry.Aligned) :
    entry.block.head = entry.1 :=
  DyadicBlock.head_around aligned

theorem block_covers_iff {entry : Entry} (aligned : entry.Aligned)
    (page : Nat) : entry.block.Covers page ↔ entry.Holds page := by
  rw [DyadicBlock.covers_iff, block_head aligned]
  rfl

/-- The entry of a block. -/
def ofBlock (block : DyadicBlock) : Entry := (block.head, block.order)

theorem ofBlock_aligned (block : DyadicBlock) : (ofBlock block).Aligned :=
  block.head_dvd

theorem block_ofBlock (block : DyadicBlock) :
    (ofBlock block).block = block :=
  block.around_head

theorem ofBlock_block {entry : Entry} (aligned : entry.Aligned) :
    ofBlock entry.block = entry := by
  rw [ofBlock, block_head aligned]
  rfl

theorem ofBlock_holds_iff (block : DyadicBlock) (page : Nat) :
    (ofBlock block).Holds page ↔ block.Covers page := by
  rw [← block_covers_iff (ofBlock_aligned block), block_ofBlock]

end Entry

/-- The free blocks and the allocated entries partition the frames. -/
structure Tiling (frames : Nat) (free : List DyadicBlock)
    (allocated : Set Entry) : Prop where
  bounded : ∀ entry, entry ∈ allocated → entry.2 ≤ topOrder
  aligned : ∀ entry, entry ∈ allocated → entry.Aligned
  disjoint : ∀ left, left ∈ allocated → ∀ right, right ∈ allocated →
    ∀ page, left.Holds page → right.Holds page → left = right
  apart : ∀ entry, entry ∈ allocated →
    ∀ page, entry.Holds page → page ∉ freePositions free
  cover : ∀ page, page < frames ↔
    page ∈ freePositions free ∨ ∃ entry, entry ∈ allocated ∧ entry.Holds page

namespace Tiling

variable {frames : Nat} {free rest : List DyadicBlock}
  {allocated : Set Entry}

theorem empty (all : ∀ page, page ∈ freePositions free ↔ page < frames) :
    Tiling frames free ∅ where
  bounded := by simp
  aligned := by simp
  disjoint := by simp
  apart := by simp
  cover page := by simp [all]

theorem inside (tiling : Tiling frames free allocated) {entry : Entry}
    (member : entry ∈ allocated) : entry.1 + 2 ^ entry.2 ≤ frames := by
  have positive := Nat.two_pow_pos entry.2
  have last : entry.1 + 2 ^ entry.2 - 1 < frames := by
    rw [tiling.cover]
    refine Or.inr ⟨entry, member, ?_, ?_⟩ <;> omega
  omega

theorem taken (tiling : Tiling frames free allocated) {entry : Entry}
    (member : entry ∈ allocated) : Taken free entry.block := by
  intro page covered
  rw [Entry.block_covers_iff (tiling.aligned entry member)] at covered
  exact tiling.apart entry member page covered

theorem block_inside (tiling : Tiling frames free allocated) {entry : Entry}
    (member : entry ∈ allocated) :
    entry.block.head + entry.block.size ≤ frames := by
  rw [Entry.block_head (tiling.aligned entry member)]
  exact tiling.inside member

theorem eq_of_head (tiling : Tiling frames free allocated)
    {left right : Entry} (leftMember : left ∈ allocated)
    (rightMember : right ∈ allocated) (sameHead : left.1 = right.1) :
    left = right := by
  have leftPositive := Nat.two_pow_pos left.2
  have rightPositive := Nat.two_pow_pos right.2
  apply tiling.disjoint left leftMember right rightMember left.1
  · constructor <;> omega
  · constructor <;> omega

/-- A page is free exactly when it is managed and nobody holds it. -/
theorem mem_freePositions_iff (tiling : Tiling frames free allocated)
    (page : Nat) :
    page ∈ freePositions free ↔
      page < frames ∧ ∀ entry, entry ∈ allocated → ¬ entry.Holds page := by
  constructor
  · intro isFree
    refine ⟨(tiling.cover page).mpr (Or.inl isFree), ?_⟩
    intro entry member holds
    exact tiling.apart entry member page holds isFree
  · rintro ⟨managed, unheld⟩
    rcases (tiling.cover page).mp managed with isFree | ⟨entry, member, holds⟩
    · exact isFree
    · exact absurd holds (unheld entry member)

/-- Handing out a block. -/
theorem allocate (tiling : Tiling frames free allocated) {order : Nat}
    {block : DyadicBlock}
    (delivered : Allocated frames free order rest block) :
    Tiling frames rest (insert (Entry.ofBlock block) allocated) := by
  have wasFree : ∀ page, block.Covers page → page ∈ freePositions free :=
    fun page covered => (delivered.positions page).mpr (Or.inr covered)
  have unheld : ∀ entry, entry ∈ allocated → ∀ page, entry.Holds page →
      ¬ block.Covers page :=
    fun entry member page holds covered =>
      tiling.apart entry member page holds (wasFree page covered)
  constructor
  · intro entry member
    rcases member with rfl | old
    · exact delivered.bounded
    · exact tiling.bounded entry old
  · intro entry member
    rcases member with rfl | old
    · exact Entry.ofBlock_aligned block
    · exact tiling.aligned entry old
  · intro left leftMember right rightMember page inLeft inRight
    rcases leftMember with rfl | leftOld
    · rcases rightMember with rfl | rightOld
      · rfl
      · have covered := (Entry.ofBlock_holds_iff block page).mp inLeft
        exact absurd covered (unheld right rightOld page inRight)
    · rcases rightMember with rfl | rightOld
      · have covered := (Entry.ofBlock_holds_iff block page).mp inRight
        exact absurd covered (unheld left leftOld page inLeft)
      · exact tiling.disjoint left leftOld right rightOld page inLeft inRight
  · intro entry member page holds isFree
    rcases member with rfl | old
    · have covered := (Entry.ofBlock_holds_iff block page).mp holds
      exact delivered.taken page covered isFree
    · exact tiling.apart entry old page holds
        ((delivered.positions page).mpr (Or.inl isFree))
  · intro page
    rw [tiling.cover, delivered.positions, Set.exists_mem_insert,
      Entry.ofBlock_holds_iff]
    tauto

/-- Taking a block back. -/
theorem release (tiling : Tiling frames free allocated)
    (valid : FreeList frames free) {entry : Entry}
    (member : entry ∈ allocated) :
    Tiling frames (release free entry.block) (allocated \ {entry}) := by
  have aligned := tiling.aligned entry member
  have positions : ∀ page,
      page ∈ freePositions (Mm.release free entry.block) ↔
        page ∈ freePositions free ∨ entry.Holds page := by
    intro page
    rw [release_positions valid (tiling.taken member)
      (tiling.block_inside member) (tiling.bounded entry member),
      Entry.block_covers_iff aligned]
  constructor
  · intro other otherMember
    exact tiling.bounded other otherMember.1
  · intro other otherMember
    exact tiling.aligned other otherMember.1
  · intro left leftMember right rightMember
    exact tiling.disjoint left leftMember.1 right rightMember.1
  · intro other otherMember page holds isFree
    rcases (positions page).mp isFree with wasFree | inEntry
    · exact tiling.apart other otherMember.1 page holds wasFree
    · exact otherMember.2
        (tiling.disjoint other otherMember.1 entry member page holds inEntry)
  · intro page
    rw [tiling.cover, positions]
    constructor
    · rintro (isFree | ⟨other, otherMember, holds⟩)
      · exact Or.inl (Or.inl isFree)
      · by_cases same : other = entry
        · rw [same] at holds
          exact Or.inl (Or.inr holds)
        · exact Or.inr ⟨other, ⟨otherMember, same⟩, holds⟩
    · rintro ((isFree | holds) | ⟨other, otherMember, holds⟩)
      · exact Or.inl isFree
      · exact Or.inr ⟨entry, member, holds⟩
      · exact Or.inr ⟨other, otherMember.1, holds⟩

end Tiling

end Hlos.Mm
