import Hlos.Mm.ZoneLists

/-!
# The page allocator refines the list of free blocks

Each function of `mm/buddy.c` has a result on every zone that represents a
valid list of free blocks, and the new zone represents the list that the
abstract operation computes.  The statements also fix the reference counts:
only `free_pages`, `alloc_pages` and `get_page` touch them, each on one page.
-/

set_option linter.style.nameCheck false

namespace Hlos.Mm

open Hlos.Lib Hlos.Include

variable {frames : Nat}

/-! ## Index arithmetic -/

/-- The masked page index of `__free_one_page`. -/
def maskedIndex (page : Nat) : Nat := page &&& ((1 <<< MAX_ORDER) - 1)

/-- The block at the same place in its window of `2 ^ MAX_ORDER` pages. -/
def inWindow (block : DyadicBlock) : DyadicBlock :=
  ⟨block.order, block.index % 2 ^ (MAX_ORDER - block.order)⟩

theorem window_split {order : Nat} (bounded : order ≤ MAX_ORDER) :
    2 ^ MAX_ORDER = 2 ^ (MAX_ORDER - order) * 2 ^ order := by
  rw [← Nat.pow_add, Nat.sub_add_cancel bounded]

theorem head_inWindow {block : DyadicBlock}
    (bounded : block.order ≤ MAX_ORDER) :
    (inWindow block).head = maskedIndex block.head := by
  have masked : maskedIndex block.head = block.head % 2 ^ MAX_ORDER :=
    Nat.and_two_pow_sub_one_eq_mod block.head MAX_ORDER
  rw [masked, window_split bounded]
  exact (Nat.mul_mod_mul_right _ _ _).symm

theorem index_inWindow {block : DyadicBlock}
    (bounded : block.order ≤ topOrder) :
    (inWindow block).index % 2 = block.index % 2 := by
  have bits : MAX_ORDER - block.order = (topOrder - block.order) + 1 := by
    change 11 - block.order = 10 - block.order + 1
    change block.order ≤ 10 at bounded
    omega
  change block.index % 2 ^ (MAX_ORDER - block.order) % 2 = block.index % 2
  rw [bits, Nat.pow_succ]
  exact Nat.mod_mod_of_dvd _ (Nat.dvd_mul_left _ _)

/-- `buddy_idx` inside the window. -/
theorem findBuddyIndex_eq {block : DyadicBlock}
    (bounded : block.order ≤ topOrder) :
    __findBuddyIndex (maskedIndex block.head) block.order =
      (inWindow block).buddy.head := by
  rw [← head_inWindow (Nat.le_succ_of_le bounded), __findBuddyIndex,
    Nat.shiftLeft_eq, Nat.one_mul]
  exact (inWindow block).head_xor

/-- `combined_idx` inside the window. -/
theorem combinedIndex_eq {block : DyadicBlock}
    (bounded : block.order ≤ topOrder) :
    __findBuddyIndex (maskedIndex block.head) block.order &&&
        maskedIndex block.head =
      (inWindow block).parent.head := by
  rw [findBuddyIndex_eq bounded,
    ← head_inWindow (Nat.le_succ_of_le bounded)]
  exact (inWindow block).head_and

theorem inWindow_head_le (block : DyadicBlock) :
    (inWindow block).head ≤ block.head := by
  apply Nat.mul_le_mul_right
  exact Nat.mod_le _ _

theorem buddy_page {block : DyadicBlock} (bounded : block.order ≤ topOrder) :
    block.head +
        __findBuddyIndex (maskedIndex block.head) block.order -
        maskedIndex block.head =
      block.buddy.head := by
  have sameBit := index_inWindow bounded
  have sameSize : (inWindow block).size = block.size := rfl
  have le := inWindow_head_le block
  rw [findBuddyIndex_eq bounded,
    ← head_inWindow (Nat.le_succ_of_le bounded),
    DyadicBlock.head_buddy, DyadicBlock.head_buddy, sameBit, sameSize]
  by_cases even : block.index % 2 = 0
  · rw [if_pos even, if_pos even]
    omega
  · rw [if_neg even, if_neg even]
    have oddWindow : ¬ (inWindow block).index % 2 = 0 := by omega
    have enough := DyadicBlock.size_le_head oddWindow
    rw [sameSize] at enough
    omega

theorem combined_page {block : DyadicBlock}
    (bounded : block.order ≤ topOrder) :
    block.head +
        (__findBuddyIndex (maskedIndex block.head) block.order &&&
          maskedIndex block.head) -
        maskedIndex block.head =
      block.parent.head := by
  have sameBit := index_inWindow bounded
  have sameSize : (inWindow block).size = block.size := rfl
  have le := inWindow_head_le block
  rw [combinedIndex_eq bounded,
    ← head_inWindow (Nat.le_succ_of_le bounded),
    DyadicBlock.head_parent, DyadicBlock.head_parent, sameBit, sameSize]
  by_cases even : block.index % 2 = 0
  · rw [if_pos even, if_pos even]
    omega
  · rw [if_neg even, if_neg even]
    have oddWindow : ¬ (inWindow block).index % 2 = 0 := by omega
    have enough := DyadicBlock.size_le_head oddWindow
    rw [sameSize] at enough
    omega

/-- The combined index is the masked index of the combined page. -/
theorem combined_masked {block : DyadicBlock}
    (bounded : block.order < topOrder) :
    __findBuddyIndex (maskedIndex block.head) block.order &&&
        maskedIndex block.head =
      maskedIndex block.parent.head := by
  rw [combinedIndex_eq (Nat.le_of_lt bounded)]
  have parentBound : block.parent.order ≤ MAX_ORDER := by
    rw [DyadicBlock.parent_order]
    change block.order + 1 ≤ 11
    change block.order < 10 at bounded
    omega
  rw [← head_inWindow parentBound]
  congr 1
  ext
  · rfl
  · change block.index % 2 ^ (MAX_ORDER - block.order) / 2 =
      block.index / 2 % 2 ^ (MAX_ORDER - (block.order + 1))
    have bits :
        MAX_ORDER - block.order = MAX_ORDER - (block.order + 1) + 1 := by
      change 11 - block.order = 11 - (block.order + 1) + 1
      change block.order < 10 at bounded
      omega
    rw [bits, Nat.pow_succ, Nat.mul_comm]
    exact Nat.mod_mul_right_div_self _ _ _

/-! ## Probing -/

/-- `page_is_buddy` answers whether the block is free. -/
theorem pageIsBuddy_spec {z : Zone frames} {free : List DyadicBlock}
    (represents : Represents z free) {block : DyadicBlock}
    (bound : block.head ≤ frames) :
    pageIsBuddy block.head block.order z = some (decide (block ∈ free)) := by
  have fieldsEq : (z.pages block.head).toPageFields = z.fields block.head := rfl
  by_cases headFree : ∃ other, other ∈ free ∧ other.head = block.head
  · obtain ⟨other, otherMember, sameHead⟩ := headFree
    obtain ⟨isMarked, order⟩ := represents.marked other otherMember
    rw [sameHead] at isMarked order
    have memberIff : block ∈ free ↔ other.order = block.order := by
      constructor
      · intro member
        rw [← order, (represents.marked block member).2]
      · intro sameOrder
        rwa [← DyadicBlock.eq_of_head sameOrder sameHead]
    simp [pageIsBuddy, PageBuddy, pageOrder, readPage, bound, fieldsEq,
      isMarked, order, memberIff]
    rfl
  · have absent : ∀ other, other ∈ free → other.head ≠ block.head :=
      fun other member same => headFree ⟨other, member, same⟩
    obtain ⟨notMarked, _⟩ := represents.unmarked block.head bound absent
    have notMember : block ∉ free := fun member => absent block member rfl
    simp [pageIsBuddy, PageBuddy, readPage, bound, fieldsEq, notMarked,
      notMember]

/-! ## Freeing -/

theorem buddy_head_le {block : DyadicBlock}
    (inside : block.head + block.size ≤ frames) :
    block.buddy.head ≤ frames := by
  rw [DyadicBlock.head_buddy]
  split <;> omega

/-- One turn of the merge loop takes the free buddy off its list. -/
theorem absorb_buddy {z : Zone frames} {free : List DyadicBlock}
    {buddy : DyadicBlock} (represents : Represents z free)
    (valid : FreeList frames free) (member : buddy ∈ free) :
    ∃ z₁ z₂ z₃,
      listDel (ListNode.page buddy.head) z = some z₁ ∧
      writeArea buddy.order
        (fun area => { area with nr_free := area.nr_free - 1 }) z₁ =
          some z₂ ∧
      rmvPageOrder buddy.head z₂ = some z₃ ∧
      Represents z₃ (free.erase buddy) ∧ SameCounts z z₃ := by
  obtain ⟨z₁, run₁, same₁, rings₁⟩ :=
    listDel_rings valid represents.rings member
  obtain ⟨z₂, run₂, write₂⟩ := nr_free_dec_plain (valid.order_lt member) z₁
  obtain ⟨z₃, run₃, write₃⟩ := rmvPageOrder_plain (valid.head_lt member) z₂
  have fields₂ : z₂.fields = z.fields := write₂.fields.trans same₁.fields
  refine ⟨z₁, z₂, z₃, run₁, run₂, run₃, ?_, ?_⟩
  · apply represents.erase valid member
    · exact (rings₁.of_link write₂.link).of_link write₃.link
    · rw [write₃.nrFree, write₂.nrFree, same₁.nrFree]
    · rw [write₃.fields, fields₂]
  · intro pfn
    rw [write₃.fields, fields₂]
    by_cases isHead : pfn = buddy.head
    · subst pfn
      simp
    · simp [isHead]

theorem mergeLoop_spec (left : Nat) (free : List DyadicBlock)
    (block : DyadicBlock) (z : Zone frames) (represents : Represents z free)
    (valid : FreeList frames free)
    (inside : block.head + block.size ≤ frames)
    (orders : left + block.order = topOrder) :
    ∃ z', mergeLoop left block.head (maskedIndex block.head) block.order z =
        some ((mergeBlock left free block).2.head,
          (mergeBlock left free block).2.order, z') ∧
      Represents z' (mergeBlock left free block).1 ∧ SameCounts z z' := by
  induction left generalizing free block z with
  | zero => exact ⟨z, rfl, represents, fun _ => rfl⟩
  | succ left inductionHypothesis =>
      have bounded : block.order ≤ topOrder := by omega
      have probe :=
        pageIsBuddy_spec represents (buddy_head_le inside)
      rw [DyadicBlock.buddy_order] at probe
      by_cases buddyFree : block.buddy ∈ free
      · obtain ⟨z₁, z₂, z₃, run₁, run₂, run₃, represents₃, counts₃⟩ :=
          absorb_buddy represents valid buddyFree
        rw [DyadicBlock.buddy_order] at run₂
        have parentOrder : left + block.parent.order = topOrder := by
          rw [DyadicBlock.parent_order]
          omega
        obtain ⟨z', run, represents', counts⟩ :=
          inductionHypothesis (free.erase block.buddy) block.parent z₃
            represents₃ (valid.sublist List.erase_sublist)
            (parent_inside inside (valid.inside block.buddy buddyFree))
            parentOrder
        rw [mergeBlock, if_pos buddyFree]
        refine ⟨z', ?_, represents', counts₃.trans counts⟩
        rw [← run, mergeLoop]
        simp only [buddy_page bounded, combined_page bounded]
        rw [probe]
        simp only [buddyFree, decide_true, Option.bind_eq_bind,
          Option.bind_some, if_true, run₁, run₂, run₃]
        rw [combined_masked (by omega)]
        rfl
      · rw [mergeBlock, if_neg buddyFree]
        refine ⟨z, ?_, represents, fun _ => rfl⟩
        rw [mergeLoop]
        simp only [buddy_page bounded]
        rw [probe]
        simp [buddyFree]

/-- `__free_one_page` releases the block. -/
theorem freeOnePage_spec {z : Zone frames} {free : List DyadicBlock}
    {block : DyadicBlock} (represents : Represents z free)
    (valid : FreeList frames free) (taken : Taken free block)
    (inside : block.head + block.size ≤ frames)
    (bounded : block.order ≤ topOrder) :
    ∃ z', __freeOnePage block.head block.order z = some z' ∧
      Represents z' (release free block) ∧ SameCounts z z' := by
  have orders : (topOrder - block.order) + block.order = topOrder :=
    Nat.sub_add_cancel bounded
  have merged :=
    mergeBlock_spec (topOrder - block.order) free block valid taken inside
      orders
  have newValid := release_valid valid taken inside bounded
  obtain ⟨z₁, run₁, represents₁, counts₁⟩ :=
    mergeLoop_spec (topOrder - block.order) free block z represents valid
      inside orders
  rw [release] at newValid ⊢
  generalize mergeBlock (topOrder - block.order) free block = result at *
  obtain ⟨rest, last⟩ := result
  have lastBound : last.head < frames := newValid.head_lt (by simp)
  have lastOrder : last.order < MAX_ORDER := newValid.order_lt (by simp)
  obtain ⟨z₂, run₂, write₂⟩ := setPageOrder_plain lastBound last.order z₁
  obtain ⟨z₃, run₃, same₃, rings₃⟩ :=
    listAdd_rings newValid (represents₁.rings.of_link write₂.link)
  obtain ⟨z₄, run₄, write₄⟩ := nr_free_inc_plain lastOrder z₃
  refine ⟨z₄, ?_, ?_, ?_⟩
  · have start : MAX_ORDER - 1 - block.order = topOrder - block.order := rfl
    have index : block.head &&& ((1 <<< MAX_ORDER) - 1) =
        maskedIndex block.head := rfl
    simp only [__freeOnePage, start, index, run₁, run₂, run₃, run₄,
      Option.bind_eq_bind, Option.bind_some]
  · apply represents₁.cons newValid (rings₃.of_link write₄.link)
    · rw [write₄.nrFree, same₃.nrFree, write₂.nrFree]
    · rw [write₄.fields, same₃.fields, write₂.fields]
  · intro pfn
    rw [write₄.fields, same₃.fields, write₂.fields, ← counts₁ pfn]
    by_cases isHead : pfn = last.head
    · subst pfn
      simp
    · simp [isHead]

/-! ## Allocating -/

/-- The loop of `expand` splits the block. -/
theorem expandLoop_spec (left : Nat) (free : List DyadicBlock)
    (block : DyadicBlock) (z : Zone frames) (represents : Represents z free)
    (valid : FreeList frames free) (taken : Taken free block)
    (inside : block.head + block.size ≤ frames)
    (bounded : block.order ≤ topOrder) (enough : left ≤ block.order) :
    ∃ z', expandLoop block.head left block.order block.size block.order z =
        some z' ∧
      Represents z' (splitBlock left free block).1 ∧ SameCounts z z' := by
  induction left generalizing free block z with
  | zero => exact ⟨z, rfl, represents, fun _ => rfl⟩
  | succ left inductionHypothesis =>
      have divisible : 0 < block.order := by omega
      obtain ⟨halfValid, halfTaken, halfInside⟩ :=
        halve_spec valid taken inside bounded divisible
      have upperHead := DyadicBlock.head_lower_buddy divisible
      have lowerHead := DyadicBlock.head_lower divisible
      have halfSize : block.size >>> 1 = block.lower.size := by
        rw [DyadicBlock.size_lower divisible, Nat.shiftRight_eq_div_pow,
          Nat.pow_one, Nat.mul_div_cancel_left _ (by decide)]
      have upperBound : block.lower.buddy.head < frames :=
        halfValid.head_lt (by simp)
      have upperOrder : block.lower.buddy.order < MAX_ORDER :=
        halfValid.order_lt (by simp)
      obtain ⟨z₁, run₁, same₁, rings₁⟩ :=
        listAdd_rings halfValid represents.rings
      obtain ⟨z₂, run₂, write₂⟩ := nr_free_inc_plain upperOrder z₁
      obtain ⟨z₃, run₃, write₃⟩ :=
        setPageOrder_plain upperBound block.lower.buddy.order z₂
      have fields₂ : z₂.fields = z.fields := write₂.fields.trans same₁.fields
      have represents₃ : Represents z₃ (block.lower.buddy :: free) := by
        apply represents.cons halfValid
        · exact (rings₁.of_link write₂.link).of_link write₃.link
        · rw [write₃.nrFree, write₂.nrFree, same₁.nrFree]
        · rw [write₃.fields, fields₂]
      have counts₃ : SameCounts z z₃ := by
        intro pfn
        rw [write₃.fields, fields₂]
        by_cases isHead : pfn = block.lower.buddy.head
        · subst pfn
          simp
        · simp [isHead]
      have lowerOrder := block.lower_order
      obtain ⟨z', run, represents', counts⟩ :=
        inductionHypothesis (block.lower.buddy :: free) block.lower z₃
          represents₃ halfValid halfTaken halfInside (by omega) (by omega)
      refine ⟨z', ?_, represents', counts₃.trans counts⟩
      rw [lowerHead, lowerOrder] at run
      rw [upperHead] at run₁ run₃
      rw [DyadicBlock.buddy_order, lowerOrder] at run₁ run₂ run₃
      rw [expandLoop]
      simp only [halfSize, run₁, run₂, run₃, run, Option.bind_eq_bind,
        Option.bind_some]

/-- The first free block of an order is the first item of its ring. -/
theorem next_area {z : Zone frames} {free : List DyadicBlock} {order : Nat}
    {block : DyadicBlock} (represents : Represents z free)
    (bound : order < MAX_ORDER)
    (found : free.find? (fun block => block.order = order) = some block) :
    (z.link (.area order)).next = .page block.head := by
  have next := (represents.rings order bound).ring.next_head
  have first : (ofOrder free order).head? = some block := by
    rw [ofOrder, List.head?_filter]
    exact found
  rw [pageNodes, List.head?_map, first] at next
  exact next

theorem ofOrder_eq_nil_iff {free : List DyadicBlock} {order : Nat} :
    ofOrder free order = [] ↔
      free.find? (fun block => block.order = order) = none := by
  rw [← List.head?_filter, List.head?_eq_none_iff, ofOrder]

/-- Taking the first block of an order and splitting it down. -/
theorem takeBlock_spec {z : Zone frames} {free : List DyadicBlock}
    {order : Nat} {block : DyadicBlock} (represents : Represents z free)
    (valid : FreeList frames free) (member : block ∈ free) :
    ∃ z₁ z₂ z₃ z₄,
      listDel (ListNode.page block.head) z = some z₁ ∧
      rmvPageOrder block.head z₁ = some z₂ ∧
      writeArea block.order
        (fun area => { area with nr_free := area.nr_free - 1 }) z₂ =
          some z₃ ∧
      expand block.head order block.order block.order z₃ = some z₄ ∧
      Represents z₄
        (splitBlock (block.order - order) (free.erase block) block).1 ∧
      SameCounts z z₄ := by
  obtain ⟨z₁, run₁, same₁, rings₁⟩ :=
    listDel_rings valid represents.rings member
  obtain ⟨z₂, run₂, write₂⟩ := rmvPageOrder_plain (valid.head_lt member) z₁
  obtain ⟨z₃, run₃, write₃⟩ := nr_free_dec_plain (valid.order_lt member) z₂
  have fields₃ : z₃.fields =
      Function.update z.fields block.head
        { z.fields block.head with mapcount := -1, priv := 0 } := by
    rw [write₃.fields, write₂.fields, same₁.fields]
  have represents₃ : Represents z₃ (free.erase block) := by
    apply represents.erase valid member
    · exact (rings₁.of_link write₂.link).of_link write₃.link
    · rw [write₃.nrFree, write₂.nrFree, same₁.nrFree]
    · exact fields₃
  have counts₃ : SameCounts z z₃ := by
    intro pfn
    rw [fields₃]
    by_cases isHead : pfn = block.head
    · subst pfn
      simp
    · simp [isHead]
  obtain ⟨z₄, run₄, represents₄, counts₄⟩ :=
    expandLoop_spec (block.order - order) (free.erase block) block z₃
      represents₃ (valid.sublist List.erase_sublist)
      (valid.taken_erase member) (valid.inside block member)
      (valid.coalesced.bounded block member) (Nat.sub_le _ _)
  refine ⟨z₁, z₂, z₃, z₄, run₁, run₂, run₃, ?_, represents₄,
    counts₃.trans counts₄⟩
  have startSize : 1 <<< block.order = block.size := by
    rw [Nat.shiftLeft_eq, Nat.one_mul, DyadicBlock.size]
  rw [expand, startSize]
  exact run₄

/-- The search loop finds the smallest free block, or leaves the zone alone. -/
theorem rmqueueLoop_spec (order : Nat) {z : Zone frames}
    {free : List DyadicBlock} (represents : Represents z free)
    (valid : FreeList frames free) (left current : Nat)
    (bound : left + current ≤ MAX_ORDER) :
    match smallestFree free left current with
    | none => rmqueueLoop order left current z = some (none, z)
    | some block =>
        ∃ z', rmqueueLoop order left current z =
            some (some block.head, z') ∧
          Represents z'
            (splitBlock (block.order - order) (free.erase block) block).1 ∧
          SameCounts z z' := by
  induction left generalizing current with
  | zero => simp [smallestFree, rmqueueLoop]
  | succ left inductionHypothesis =>
      have currentBound : current < MAX_ORDER := by omega
      have at_ := represents.rings current currentBound
      have emptyTest := listEmpty_spec at_
      rw [smallestFree]
      cases found : free.find? (fun block => block.order = current) with
      | none =>
          have noBlocks := ofOrder_eq_nil_iff.mpr found
          have rest := inductionHypothesis (current + 1) (by omega)
          rw [pageNodes, noBlocks] at emptyTest
          have skip :
              rmqueueLoop order (left + 1) current z =
                rmqueueLoop order left (current + 1) z := by
            rw [rmqueueLoop, emptyTest]
            simp
          rw [skip]
          exact rest
      | some block =>
          have member := List.mem_of_find?_eq_some found
          have orderEq : block.order = current := by
            simpa using List.find?_some found
          subst current
          have nonempty : (pageNodes free block.order).isEmpty = false := by
            rw [List.isEmpty_eq_false_iff_exists_mem]
            exact ⟨_, page_mem_pageNodes.mpr ⟨block, member, rfl, rfl⟩⟩
          have first := next_area represents currentBound found
          have readNext :
              NodeStore.getNext (ListNode.area block.order) z =
                some (ListNode.page block.head) := by
            have areaNode :
                (zoneRegion frames).node (ListNode.area block.order) :=
              currentBound
            rw [← first]
            exact (zoneRegion frames).getNext_eq areaNode z
          obtain ⟨z₁, z₂, z₃, z₄, run₁, run₂, run₃, run₄, represents₄,
            counts₄⟩ := takeBlock_spec represents valid member
          refine ⟨z₄, ?_, represents₄, counts₄⟩
          rw [rmqueueLoop, emptyTest, nonempty]
          simp [readNext, listEntry, run₁, run₂, run₃, run₄]

theorem rmqueueSmallest_spec {z : Zone frames} {free : List DyadicBlock}
    (represents : Represents z free) (valid : FreeList frames free)
    (order : Nat) :
    match smallestFree free (MAX_ORDER - order) order with
    | none => __rmqueueSmallest order z = some (none, z)
    | some block =>
        ∃ z', __rmqueueSmallest order z = some (some block.head, z') ∧
          Represents z'
            (splitBlock (block.order - order) (free.erase block) block).1 ∧
          SameCounts z z' := by
  by_cases small : order ≤ MAX_ORDER
  · exact rmqueueLoop_spec order represents valid _ _ (by omega)
  · have noneLeft : MAX_ORDER - order = 0 := by omega
    rw [noneLeft, __rmqueueSmallest, noneLeft]
    rfl

/-- The last two stores of `alloc_pages`: a page that heads no free block gets
one reference. -/
theorem hand_out_page {z : Zone frames} {free : List DyadicBlock} {page : Nat}
    (represents : Represents z free) (bound : page < frames)
    (noHead : ∀ block, block ∈ free → block.head ≠ page) :
    ∃ z₁ z₂, setPagePrivate page 0 z = some z₁ ∧
      setPageCount page 1 z₁ = some z₂ ∧ Represents z₂ free ∧
      ∀ pfn, (z₂.fields pfn).count =
        if pfn = page then 1 else (z.fields pfn).count := by
  obtain ⟨z₁, run₁, write₁⟩ :=
    writePage_plain bound (fun p => { p with priv := 0 }) z
  obtain ⟨z₂, run₂, write₂⟩ :=
    writePage_plain bound (fun p => { p with count := 1 }) z₁
  have privZero := (represents.unmarked page (Nat.le_of_lt bound) noHead).2
  have fields : z₂.fields = Function.update z.fields page
      { z.fields page with priv := 0, count := 1 } := by
    rw [write₂.fields, write₁.fields]
    simp
  refine ⟨z₁, z₂, run₁, run₂, ?_, ?_⟩
  · apply represents.of_fields (write₂.link.trans write₁.link)
      (write₂.nrFree.trans write₁.nrFree)
    intro pfn
    rw [fields]
    by_cases isPage : pfn = page
    · subst pfn
      simp [privZero]
    · simp [isPage]
  · intro pfn
    rw [fields]
    by_cases isPage : pfn = page
    · subst pfn
      simp
    · simp [isPage]

/-- `alloc_pages` allocates, or returns `NULL` and leaves the zone alone. -/
theorem allocPages_spec {z : Zone frames} {free : List DyadicBlock}
    (represents : Represents z free) (valid : FreeList frames free)
    (order : Nat) :
    match allocate free order with
    | none => allocPages order z = some (none, z)
    | some (rest, block) =>
        ∃ z', allocPages order z = some (some block.head, z') ∧
          Represents z' rest ∧
          ∀ pfn, (z'.fields pfn).count =
            if pfn = block.head then 1 else (z.fields pfn).count := by
  have sameLeft : topOrder + 1 - order = MAX_ORDER - order := rfl
  have search := rmqueueSmallest_spec represents valid order
  cases allocated : allocate free order with
  | none =>
      rw [allocate, Option.map_eq_none_iff, sameLeft] at allocated
      rw [allocated] at search
      have failed : __rmqueueSmallest order z = some (none, z) := search
      simp [allocPages, failed]
  | some result =>
      obtain ⟨rest, block⟩ := result
      have delivered := allocate_spec valid allocated
      rw [allocate, Option.map_eq_some_iff, sameLeft] at allocated
      obtain ⟨source, found, split⟩ := allocated
      rw [found] at search
      obtain ⟨z₁, run₁, represents₁, counts₁⟩ := search
      have sourceValid := smallestFree_some found
      have sourceMember := sourceValid.mem
      have sourceSplit :=
        splitBlock_spec (source.order - order) (free.erase source) source
          (valid.sublist List.erase_sublist)
          (valid.taken_erase sourceMember)
          (valid.inside source sourceMember)
          (valid.coalesced.bounded source sourceMember) (Nat.sub_le _ _)
      rw [split] at represents₁ sourceSplit
      have sameHead : block.head = source.head := sourceSplit.head_eq
      rw [← sameHead] at run₁
      have bound : block.head < frames := by
        have inside := delivered.inside
        have positive := block.size_pos
        omega
      have noHead : ∀ other, other ∈ rest → other.head ≠ block.head := by
        intro other member same
        apply delivered.taken.not_mem_of_covers block.covers_head _ member
        rw [← same]
        exact other.covers_head
      obtain ⟨z₂, z₃, store, count, represents₃, counts₃⟩ :=
        hand_out_page represents₁ bound noHead
      refine ⟨z₃, ?_, represents₃, ?_⟩
      · simp only [allocPages, run₁, store, count, Option.bind_eq_bind,
          Option.bind_some]
        rfl
      · intro pfn
        rw [counts₃ pfn, counts₁ pfn]

/-! ## References -/

/-- The frame fields after the reference count of one page was rewritten. -/
def withCount (z : Zone frames) (page : Nat) (value : BitVec 32) :
    Nat → PageFields :=
  Function.update z.fields page { z.fields page with count := value }

theorem withCount_count (z : Zone frames) (page : Nat) (value : BitVec 32)
    (pfn : Nat) :
    (withCount z page value pfn).count =
      if pfn = page then value else (z.fields pfn).count := by
  by_cases isPage : pfn = page
  · subst pfn
    simp [withCount]
  · simp [withCount, isPage]

/-- A write of one reference count keeps the representation. -/
theorem Represents.of_count {z z' : Zone frames} {free : List DyadicBlock}
    {page : Nat} {value : BitVec 32} (represents : Represents z free)
    (write : PlainWrite z z' (withCount z page value) z.nrFree) :
    Represents z' free := by
  apply represents.of_fields write.link write.nrFree
  intro pfn
  rw [write.fields]
  by_cases isPage : pfn = page
  · subst pfn
    simp [withCount]
  · simp [withCount, isPage]

/-- `get_page` on a managed page adds a reference. -/
theorem getPage_spec {page : Nat} (bound : page < frames) (z : Zone frames) :
    ∃ z', getPage page z = some z' ∧
      PlainWrite z z' (withCount z page ((z.fields page).count + 1))
        z.nrFree :=
  writePage_plain bound (fun p => { p with count := p.count + 1 }) z

/-- `put_page_testzero` drops a reference. -/
theorem putPageTestzero_spec {page : Nat} (bound : page < frames)
    (z : Zone frames) :
    ∃ z', putPageTestzero page z =
        some ((z.fields page).count - 1 == 0, z') ∧
      PlainWrite z z' (withCount z page ((z.fields page).count - 1))
        z.nrFree := by
  obtain ⟨z', run, write⟩ :=
    writePage_plain bound
      (fun p => { p with count := (atomicDecAndTest p.count).1 }) z
  refine ⟨z', ?_, write⟩
  have read : readPage page z = some (z.pages page) :=
    if_pos (Nat.le_of_lt bound)
  rw [putPageTestzero, read]
  simp only [Option.bind_eq_bind, Option.bind_some, run]
  rfl

/-- `free_pages` when other references remain: only the count changes. -/
theorem freePages_keep {z : Zone frames} {page : Nat} (bound : page < frames)
    (shared : (z.fields page).count - 1 ≠ 0) (order : Nat) :
    ∃ z', freePages page order z = some z' ∧
      PlainWrite z z' (withCount z page ((z.fields page).count - 1))
        z.nrFree := by
  obtain ⟨z', run, write⟩ := putPageTestzero_spec bound z
  refine ⟨z', ?_, write⟩
  have notZero : ((z.fields page).count - 1 == 0) = false := by
    simpa using shared
  rw [notZero] at run
  simp [freePages, run]

/-- `free_pages` with the last reference releases the block. -/
theorem freePages_release {z : Zone frames} {free : List DyadicBlock}
    {block : DyadicBlock} (represents : Represents z free)
    (valid : FreeList frames free) (taken : Taken free block)
    (inside : block.head + block.size ≤ frames)
    (bounded : block.order ≤ topOrder)
    (last : (z.fields block.head).count - 1 = 0) :
    ∃ z', freePages block.head block.order z = some z' ∧
      Represents z' (release free block) ∧
      ∀ pfn, (z'.fields pfn).count =
        if pfn = block.head then 0 else (z.fields pfn).count := by
  have bound : block.head < frames := by
    have positive := block.size_pos
    omega
  obtain ⟨z₁, run₁, write₁⟩ := putPageTestzero_spec bound z
  obtain ⟨z₂, run₂, represents₂, counts₂⟩ :=
    freeOnePage_spec (represents.of_count write₁) valid taken inside bounded
  rw [last] at run₁ write₁
  refine ⟨z₂, by simp [freePages, run₁, run₂], represents₂, ?_⟩
  intro pfn
  rw [counts₂ pfn, write₁.fields, withCount_count]

end Hlos.Mm
