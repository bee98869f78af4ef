import Hlos.Mm.Buddy
import Hlos.Mm.FreeBlocks

/-!
# Zones that represent a list of free blocks

`Represents z free` ties the pointers, counters and frame fields of a zone to
the abstract list of free blocks: every free area is a ring through the heads
of the blocks of its order, the counters are the lengths of these rings, and
the frames marked as buddies are exactly the heads.

The lemmas of this module follow one list operation or one field write.  The
loops of the allocator are assembled from them in the next module.
-/

namespace Hlos.Mm

open Hlos.Lib Hlos.Include

variable {frames : Nat}

/-- The free blocks of one order, in list order. -/
def ofOrder (free : List DyadicBlock) (order : Nat) : List DyadicBlock :=
  free.filter fun block => block.order = order

/-- The `lru` nodes of the heads of the free blocks of one order. -/
def pageNodes (free : List DyadicBlock) (order : Nat) : List ListNode :=
  (ofOrder free order).map fun block => ListNode.page block.head

/-- Every free area is a ring through the heads of its blocks. -/
def Rings (z : Zone frames) (free : List DyadicBlock) : Prop :=
  ∀ order, order < MAX_ORDER →
    (zoneRegion frames).RingAt z (.area order) (pageNodes free order)

structure Represents (z : Zone frames) (free : List DyadicBlock) : Prop where
  rings : Rings z free
  nr_free : ∀ order, order < MAX_ORDER →
    z.nrFree order = (ofOrder free order).length
  marked : ∀ block, block ∈ free →
    (z.fields block.head).mapcount = pageBuddyMapcountValue ∧
      (z.fields block.head).priv = block.order
  unmarked : ∀ pfn, pfn ≤ frames → (∀ block, block ∈ free → block.head ≠ pfn) →
    (z.fields pfn).mapcount ≠ pageBuddyMapcountValue ∧
      (z.fields pfn).priv = 0

/-- No reference count differs. -/
def SameCounts (z z' : Zone frames) : Prop :=
  ∀ pfn, (z'.fields pfn).count = (z.fields pfn).count

theorem SameCounts.trans {z z' z'' : Zone frames}
    (first : SameCounts z z') (second : SameCounts z' z'') :
    SameCounts z z'' :=
  fun pfn => (second pfn).trans (first pfn)

theorem mem_ofOrder {free : List DyadicBlock} {order : Nat}
    {block : DyadicBlock} :
    block ∈ ofOrder free order ↔ block ∈ free ∧ block.order = order := by
  simp [ofOrder]

theorem mem_pageNodes {free : List DyadicBlock} {order : Nat}
    {node : ListNode} :
    node ∈ pageNodes free order ↔
      ∃ block, block ∈ free ∧ block.order = order ∧
        node = .page block.head := by
  simp only [pageNodes, List.mem_map, mem_ofOrder]
  constructor
  · rintro ⟨block, ⟨member, orderEq⟩, rfl⟩
    exact ⟨block, member, orderEq, rfl⟩
  · rintro ⟨block, member, orderEq, rfl⟩
    exact ⟨block, ⟨member, orderEq⟩, rfl⟩

theorem page_mem_pageNodes {free : List DyadicBlock} {order pfn : Nat} :
    ListNode.page pfn ∈ pageNodes free order ↔
      ∃ block, block ∈ free ∧ block.order = order ∧ block.head = pfn := by
  rw [mem_pageNodes]
  constructor
  · rintro ⟨block, member, orderEq, same⟩
    exact ⟨block, member, orderEq, (ListNode.page.inj same).symm⟩
  · rintro ⟨block, member, orderEq, rfl⟩
    exact ⟨block, member, orderEq, rfl⟩

theorem area_not_mem_pageNodes {free : List DyadicBlock} {order area : Nat} :
    ListNode.area area ∉ pageNodes free order := by
  intro member
  obtain ⟨block, _, _, same⟩ := mem_pageNodes.mp member
  cases same

theorem ofOrder_erase {free : List DyadicBlock} (nodup : free.Nodup)
    (block : DyadicBlock) (order : Nat) :
    ofOrder (free.erase block) order = (ofOrder free order).erase block := by
  have filtered : (ofOrder free order).Nodup := nodup.filter _
  rw [ofOrder, nodup.erase_eq_filter, filtered.erase_eq_filter, ofOrder,
    List.filter_filter, List.filter_filter]
  apply List.filter_congr
  intro other _
  exact Bool.and_comm _ _

theorem ofOrder_erase_of_ne {free : List DyadicBlock} (nodup : free.Nodup)
    {block : DyadicBlock} {order : Nat} (different : block.order ≠ order) :
    ofOrder (free.erase block) order = ofOrder free order := by
  rw [ofOrder_erase nodup]
  apply List.erase_of_not_mem
  intro member
  exact different (mem_ofOrder.mp member).2

theorem ofOrder_cons (block : DyadicBlock) (free : List DyadicBlock) :
    ofOrder (block :: free) block.order =
      block :: ofOrder free block.order := by
  simp [ofOrder]

theorem ofOrder_cons_of_ne {block : DyadicBlock} {free : List DyadicBlock}
    {order : Nat} (different : block.order ≠ order) :
    ofOrder (block :: free) order = ofOrder free order := by
  simp [ofOrder, different]

theorem FreeList.head_lt {free : List DyadicBlock}
    (valid : FreeList frames free) {block : DyadicBlock}
    (member : block ∈ free) : block.head < frames := by
  have inside := valid.inside block member
  have positive := block.size_pos
  omega

theorem FreeList.order_lt {free : List DyadicBlock}
    (valid : FreeList frames free) {block : DyadicBlock}
    (member : block ∈ free) : block.order < MAX_ORDER :=
  Nat.lt_succ_of_le (valid.coalesced.bounded block member)

/-- The rings of two areas share no node. -/
theorem FreeList.pageNodes_apart {free : List DyadicBlock}
    (valid : FreeList frames free) {order other : Nat}
    (different : order ≠ other) {node : ListNode}
    (member : node ∈ ListNode.area order :: pageNodes free order) :
    node ∉ ListNode.area other :: pageNodes free other := by
  intro alsoOther
  rcases List.mem_cons.mp member with rfl | inOrder
  · rcases List.mem_cons.mp alsoOther with same | inOther
    · exact different (ListNode.area.inj same)
    · exact area_not_mem_pageNodes inOther
  · rcases List.mem_cons.mp alsoOther with rfl | inOther
    · exact area_not_mem_pageNodes inOrder
    · obtain ⟨left, leftMember, leftOrder, leftNode⟩ :=
        mem_pageNodes.mp inOrder
      obtain ⟨right, rightMember, rightOrder, rightNode⟩ :=
        mem_pageNodes.mp inOther
      rw [leftNode] at rightNode
      have same :=
        valid.eq_of_head leftMember rightMember (ListNode.page.inj rightNode)
      apply different
      rw [← leftOrder, ← rightOrder, same]

/-! ## Rings -/

theorem Rings.of_link {z z' : Zone frames} {free : List DyadicBlock}
    (rings : Rings z free) (sameLink : z'.link = z.link) : Rings z' free := by
  intro order bound
  apply @NodeRegion.RingAt.frame _ _ _ _ _ _ _ _ _ [] (rings order bound)
  · intro node _ _
    change (z'.link node).next = (z.link node).next ∧
      (z'.link node).prev = (z.link node).prev
    rw [sameLink]
    exact ⟨rfl, rfl⟩
  · simp

/-- `list_del` on the head of a free block. -/
theorem listDel_rings {z : Zone frames} {free : List DyadicBlock}
    {block : DyadicBlock} (valid : FreeList frames free)
    (rings : Rings z free) (member : block ∈ free) :
    ∃ z', listDel (ListNode.page block.head) z = some z' ∧
      SameFields z z' ∧ Rings z' (free.erase block) := by
  have bound := valid.order_lt member
  obtain ⟨before, after, shape⟩ :=
    List.append_of_mem (mem_ofOrder.mpr ⟨member, rfl⟩)
  have nodes :
      pageNodes free block.order =
        before.map (fun block => ListNode.page block.head) ++
          ListNode.page block.head ::
            after.map (fun block => ListNode.page block.head) := by
    simp [pageNodes, shape]
  have at_ := rings block.order bound
  rw [nodes] at at_
  obtain ⟨z', run, keeps, newRing, untouched⟩ := listDel_ring at_
  refine ⟨z', run, keeps, ?_⟩
  intro order orderBound
  by_cases same : block.order = order
  · subst order
    have beforeFresh : block ∉ before := by
      intro inBefore
      have nodup : (ofOrder free block.order).Nodup := valid.nodup.filter _
      rw [shape] at nodup
      exact (List.nodup_append.mp nodup).2.2 block inBefore block
        (by simp) rfl
    have erased :
        pageNodes (free.erase block) block.order =
          before.map (fun block => ListNode.page block.head) ++
            after.map (fun block => ListNode.page block.head) := by
      rw [pageNodes, ofOrder_erase valid.nodup, shape,
        List.erase_append_right _ beforeFresh]
      simp
    rw [erased]
    exact newRing
  · have unchanged :
        pageNodes (free.erase block) order = pageNodes free order := by
      rw [pageNodes, ofOrder_erase_of_ne valid.nodup same, pageNodes]
    rw [unchanged]
    apply (rings order orderBound).frame untouched
    intro node inOther
    rw [← nodes]
    exact valid.pageNodes_apart (Ne.symm same) inOther

/-- `list_add` of the head of a block that is not free. -/
theorem listAdd_rings {z : Zone frames} {free : List DyadicBlock}
    {block : DyadicBlock} (valid : FreeList frames (block :: free))
    (rings : Rings z free) :
    ∃ z', listAdd (ListNode.page block.head) (ListNode.area block.order) z =
        some z' ∧
      SameFields z z' ∧ Rings z' (block :: free) := by
  have bound : block.order < MAX_ORDER := valid.order_lt (by simp)
  have isNode : (zoneRegion frames).node (ListNode.page block.head) := by
    change block.head < frames
    exact valid.head_lt (by simp)
  have headFresh : ∀ other, other ∈ free → other.head ≠ block.head := by
    intro other member sameHead
    have same :=
      valid.eq_of_head (List.mem_cons_of_mem block member) (by simp) sameHead
    rw [same] at member
    exact (List.nodup_cons.mp valid.nodup).1 member
  have nodeFresh :
      ∀ order, ListNode.page block.head ∉
        ListNode.area order :: pageNodes free order := by
    intro order member
    rcases List.mem_cons.mp member with same | inNodes
    · cases same
    · obtain ⟨other, otherMember, _, sameHead⟩ :=
        page_mem_pageNodes.mp inNodes
      exact headFresh other otherMember sameHead
  obtain ⟨z', run, keeps, newRing, untouched⟩ :=
    listAdd_front (rings block.order bound) isNode (nodeFresh block.order)
  refine ⟨z', run, keeps, ?_⟩
  intro order orderBound
  by_cases same : block.order = order
  · subst order
    rw [pageNodes, ofOrder_cons]
    exact newRing
  · have unchanged :
        pageNodes (block :: free) order = pageNodes free order := by
      rw [pageNodes, ofOrder_cons_of_ne same, pageNodes]
    rw [unchanged]
    apply (rings order orderBound).frame untouched
    intro node inOther inWritten
    rcases List.mem_cons.mp inWritten with rfl | inOrder
    · exact nodeFresh order inOther
    · have smaller : FreeList frames free :=
        valid.sublist (List.sublist_cons_self block free)
      exact smaller.pageNodes_apart (Ne.symm same) inOther inOrder

/-! ## Fields -/

theorem rmvPageOrder_plain {page : Nat} (bound : page < frames)
    (z : Zone frames) :
    ∃ z', rmvPageOrder page z = some z' ∧
      PlainWrite z z'
        (Function.update z.fields page
          { z.fields page with mapcount := -1, priv := 0 })
        z.nrFree := by
  obtain ⟨z₁, run₁, link₁, fields₁, nr₁⟩ :=
    writePage_plain bound (fun p => { p with mapcount := -1 }) z
  obtain ⟨z₂, run₂, link₂, fields₂, nr₂⟩ :=
    writePage_plain bound (fun p => { p with priv := 0 }) z₁
  have clear : __ClearPageBuddy page z = some z₁ := run₁
  have reset : setPagePrivate page 0 z₁ = some z₂ := run₂
  refine ⟨z₂, by simp [rmvPageOrder, clear, reset], ?_⟩
  refine ⟨link₂.trans link₁, ?_, nr₂.trans nr₁⟩
  rw [fields₂, fields₁]
  simp

theorem setPageOrder_plain {page : Nat} (bound : page < frames)
    (order : Nat) (z : Zone frames) :
    ∃ z', setPageOrder page order z = some z' ∧
      PlainWrite z z'
        (Function.update z.fields page
          { z.fields page with
            priv := order, mapcount := pageBuddyMapcountValue })
        z.nrFree := by
  obtain ⟨z₁, run₁, link₁, fields₁, nr₁⟩ :=
    writePage_plain bound (fun p => { p with priv := order }) z
  obtain ⟨z₂, run₂, link₂, fields₂, nr₂⟩ :=
    writePage_plain bound
      (fun p => { p with mapcount := pageBuddyMapcountValue }) z₁
  have store : setPagePrivate page order z = some z₁ := run₁
  have mark : __SetPageBuddy page z₁ = some z₂ := run₂
  refine ⟨z₂, by simp [setPageOrder, store, mark], ?_⟩
  refine ⟨link₂.trans link₁, ?_, nr₂.trans nr₁⟩
  rw [fields₂, fields₁]
  simp

theorem nr_free_dec_plain {order : Nat} (bound : order < MAX_ORDER)
    (z : Zone frames) :
    ∃ z',
      writeArea order (fun area => { area with nr_free := area.nr_free - 1 })
        z = some z' ∧
      PlainWrite z z' z.fields
        (Function.update z.nrFree order (z.nrFree order - 1)) :=
  writeArea_plain bound (fun count => count - 1) z

theorem nr_free_inc_plain {order : Nat} (bound : order < MAX_ORDER)
    (z : Zone frames) :
    ∃ z',
      writeArea order (fun area => { area with nr_free := area.nr_free + 1 })
        z = some z' ∧
      PlainWrite z z' z.fields
        (Function.update z.nrFree order (z.nrFree order + 1)) :=
  writeArea_plain bound (fun count => count + 1) z

/-! ## Assembling the representation -/

/-- Taking a block off its list, with its counter and its mark. -/
theorem Represents.erase {z z' : Zone frames} {free : List DyadicBlock}
    {block : DyadicBlock} (represents : Represents z free)
    (valid : FreeList frames free) (member : block ∈ free)
    (rings : Rings z' (free.erase block))
    (nrFree : z'.nrFree =
      Function.update z.nrFree block.order (z.nrFree block.order - 1))
    (fields : z'.fields =
      Function.update z.fields block.head
        { z.fields block.head with mapcount := -1, priv := 0 }) :
    Represents z' (free.erase block) where
  rings := rings
  nr_free := by
    intro order bound
    rw [nrFree]
    by_cases same : block.order = order
    · subst order
      rw [Function.update_self, ofOrder_erase valid.nodup,
        List.length_erase_of_mem (mem_ofOrder.mpr ⟨member, rfl⟩),
        represents.nr_free _ bound]
    · rw [Function.update_of_ne (Ne.symm same),
        ofOrder_erase_of_ne valid.nodup same, represents.nr_free _ bound]
  marked := by
    intro other otherMember
    obtain ⟨different, old⟩ := valid.nodup.mem_erase_iff.mp otherMember
    have headNe : other.head ≠ block.head := fun sameHead =>
      different (valid.eq_of_head old member sameHead)
    rw [fields, Function.update_of_ne headNe]
    exact represents.marked other old
  unmarked := by
    intro pfn bound absent
    by_cases isHead : pfn = block.head
    · subst pfn
      rw [fields, Function.update_self]
      have cleared : (-1 : BitVec 32) ≠ pageBuddyMapcountValue := by decide
      exact ⟨cleared, rfl⟩
    · rw [fields, Function.update_of_ne isHead]
      apply represents.unmarked pfn bound
      intro other old
      by_cases isBlock : other = block
      · rw [isBlock]
        exact Ne.symm isHead
      · exact absent other (valid.nodup.mem_erase_iff.mpr ⟨isBlock, old⟩)

/-- Putting a block in front of its list, with its counter and its mark. -/
theorem Represents.cons {z z' : Zone frames} {free : List DyadicBlock}
    {block : DyadicBlock} (represents : Represents z free)
    (valid : FreeList frames (block :: free))
    (rings : Rings z' (block :: free))
    (nrFree : z'.nrFree =
      Function.update z.nrFree block.order (z.nrFree block.order + 1))
    (fields : z'.fields =
      Function.update z.fields block.head
        { z.fields block.head with
          priv := block.order, mapcount := pageBuddyMapcountValue }) :
    Represents z' (block :: free) where
  rings := rings
  nr_free := by
    intro order bound
    rw [nrFree]
    by_cases same : block.order = order
    · subst order
      rw [Function.update_self, ofOrder_cons, List.length_cons,
        represents.nr_free _ bound]
    · rw [Function.update_of_ne (Ne.symm same), ofOrder_cons_of_ne same,
        represents.nr_free _ bound]
  marked := by
    intro other member
    rcases List.mem_cons.mp member with rfl | old
    · rw [fields, Function.update_self]
      exact ⟨rfl, rfl⟩
    · have headNe : other.head ≠ block.head := by
        intro sameHead
        have same :=
          valid.eq_of_head (List.mem_cons_of_mem block old) (by simp) sameHead
        rw [same] at old
        exact (List.nodup_cons.mp valid.nodup).1 old
      rw [fields, Function.update_of_ne headNe]
      exact represents.marked other old
  unmarked := by
    intro pfn bound absent
    have isNotHead : pfn ≠ block.head :=
      Ne.symm (absent block (by simp))
    rw [fields, Function.update_of_ne isNotHead]
    exact represents.unmarked pfn bound fun other old =>
      absent other (List.mem_cons_of_mem block old)

/-- A write that keeps the links, the counters, the marks and the private
fields keeps the representation. -/
theorem Represents.of_fields {z z' : Zone frames} {free : List DyadicBlock}
    (represents : Represents z free) (link : z'.link = z.link)
    (nrFree : z'.nrFree = z.nrFree)
    (fields : ∀ pfn,
      (z'.fields pfn).mapcount = (z.fields pfn).mapcount ∧
        (z'.fields pfn).priv = (z.fields pfn).priv) :
    Represents z' free where
  rings := represents.rings.of_link link
  nr_free := by
    intro order bound
    rw [nrFree]
    exact represents.nr_free order bound
  marked := by
    intro block member
    rw [(fields block.head).1, (fields block.head).2]
    exact represents.marked block member
  unmarked := by
    intro pfn bound absent
    rw [(fields pfn).1, (fields pfn).2]
    exact represents.unmarked pfn bound absent

end Hlos.Mm
