import Hlos.Mm.BuddyRefinement

/-!
# `pmm_free_pages`

Starting from the zeroed zone and frame array, `pmm_free_pages` has a result,
and the zone it leaves represents a valid list of free blocks that covers all
managed frames.
-/

set_option linter.style.nameCheck false

namespace Hlos.Mm

open Hlos.Lib Hlos.Include

variable {frames : Nat}

def EmptyArea (z : Zone frames) (order : Nat) : Prop :=
  (zoneRegion frames).RingAt z (.area order) [] ∧ z.nrFree order = 0

/-- An empty area stays empty while its own node is left alone. -/
theorem EmptyArea.frame {z z' : Zone frames} {order : Nat}
    {written : List ListNode} (empty : EmptyArea z order)
    (untouched : (zoneRegion frames).Untouched written z z')
    (apart : ListNode.area order ∉ written)
    (sameCounter : z'.nrFree order = z.nrFree order) :
    EmptyArea z' order := by
  obtain ⟨ring, counter⟩ := empty
  refine ⟨ring.frame untouched ?_, sameCounter.trans counter⟩
  intro node member
  have isArea : node = ListNode.area order := by simpa using member
  rw [isArea]
  exact apart

theorem PlainWrite.untouched {z z' : Zone frames}
    {fields : Nat → PageFields} {nrFree : Nat → Nat}
    (write : PlainWrite z z' fields nrFree) :
    (zoneRegion frames).Untouched [] z z' := by
  intro node _ _
  change (z'.link node).next = (z.link node).next ∧
    (z'.link node).prev = (z.link node).prev
  rw [write.link]
  exact ⟨rfl, rfl⟩

theorem initAreas_spec (left : Nat) (z : Zone frames)
    (bound : left ≤ MAX_ORDER)
    (done : ∀ order, order < MAX_ORDER - left → EmptyArea z order) :
    ∃ z', initAreas left z = some z' ∧ z'.fields = z.fields ∧
      ∀ order, order < MAX_ORDER → EmptyArea z' order := by
  induction left generalizing z with
  | zero => exact ⟨z, rfl, rfl, done⟩
  | succ left inductionHypothesis =>
      have index : MAX_ORDER - (left + 1) < MAX_ORDER := by
        have positive : 0 < MAX_ORDER := by decide
        omega
      obtain ⟨z₁, run₁, write₁⟩ := writeArea_plain index (fun _ => 0) z
      have isNode :
          (zoneRegion frames).node (.area (MAX_ORDER - (left + 1))) := index
      obtain ⟨z₂, run₂, same₂, ring₂, untouched₂⟩ :=
        initListHead_ring isNode z₁
      have same₂ : SameFields z₁ z₂ := same₂
      have doneAfter :
          ∀ order, order < MAX_ORDER - left → EmptyArea z₂ order := by
        intro order below
        by_cases current : order = MAX_ORDER - (left + 1)
        · subst current
          refine ⟨ring₂, ?_⟩
          rw [same₂.nrFree, write₁.nrFree]
          simp
        · have earlier := done order (by omega)
          apply EmptyArea.frame _ untouched₂
          · simpa using current
          · rw [same₂.nrFree]
          · apply EmptyArea.frame earlier write₁.untouched (by simp)
            rw [write₁.nrFree]
            simp [current]
      obtain ⟨z', run, fields, empty⟩ :=
        inductionHypothesis z₂ (by omega) doneAfter
      refine ⟨z', ?_, ?_, empty⟩
      · rw [initAreas]
        simp only [run₁, run₂, run, Option.bind_eq_bind, Option.bind_some]
      · rw [fields, same₂.fields, write₁.fields]

/-- The fields of a frame structure after `init_page_count` and
`page_mapcount_reset`. -/
def bootFields : PageFields := ⟨0, 1, -1⟩

/-- The loop over the frame structures keeps the areas and fills the fields. -/
theorem initPages_spec (left p_idx : Nat) (z : Zone frames)
    (whole : p_idx + left = frames)
    (empty : ∀ order, order < MAX_ORDER → EmptyArea z order)
    (zeroPriv : ∀ pfn, p_idx ≤ pfn → (z.fields pfn).priv = 0) :
    ∃ z', initPages left p_idx z = some z' ∧
      (∀ order, order < MAX_ORDER → EmptyArea z' order) ∧
      ∀ pfn, z'.fields pfn =
        if p_idx ≤ pfn ∧ pfn < frames then bootFields else z.fields pfn := by
  induction left generalizing p_idx z with
  | zero =>
      refine ⟨z, rfl, empty, ?_⟩
      intro pfn
      rw [if_neg (by omega)]
  | succ left inductionHypothesis =>
      have bound : p_idx < frames := by omega
      obtain ⟨z₁, run₁, write₁⟩ :=
        writePage_plain bound (fun p => { p with count := 1 }) z
      obtain ⟨z₂, run₂, write₂⟩ :=
        writePage_plain bound (fun p => { p with mapcount := -1 }) z₁
      have isNode : (zoneRegion frames).node (.page p_idx) := bound
      obtain ⟨z₃, run₃, same₃, _, untouched₃⟩ := initListHead_ring isNode z₂
      have same₃ : SameFields z₂ z₃ := same₃
      have count : initPageCount p_idx z = some z₁ := run₁
      have reset : pageMapcountReset p_idx z₁ = some z₂ := run₂
      have fields₃ :
          z₃.fields = Function.update z.fields p_idx bootFields := by
        rw [same₃.fields, write₂.fields, write₁.fields]
        have zero := zeroPriv p_idx (Nat.le_refl _)
        simp [bootFields, zero]
      have empty₃ : ∀ order, order < MAX_ORDER → EmptyArea z₃ order := by
        intro order below
        apply EmptyArea.frame _ untouched₃ (by simp)
        · rw [same₃.nrFree]
        · apply EmptyArea.frame _ write₂.untouched (by simp)
          · rw [write₂.nrFree]
          · apply (empty order below).frame write₁.untouched (by simp)
            rw [write₁.nrFree]
      have zeroPriv₃ : ∀ pfn, p_idx + 1 ≤ pfn → (z₃.fields pfn).priv = 0 := by
        intro pfn above
        have different : pfn ≠ p_idx := by omega
        rw [fields₃, Function.update_of_ne different]
        exact zeroPriv pfn (by omega)
      obtain ⟨z', run, empty', fields'⟩ :=
        inductionHypothesis (p_idx + 1) z₃ (by omega) empty₃ zeroPriv₃
      refine ⟨z', ?_, empty', ?_⟩
      · rw [initPages]
        simp only [count, reset, run₃, run, Option.bind_eq_bind,
          Option.bind_some]
      · intro pfn
        rw [fields' pfn, fields₃]
        by_cases current : pfn = p_idx
        · subst current
          rw [if_neg (by omega), if_pos (by omega), Function.update_self]
        · rw [Function.update_of_ne current]
          by_cases inside : p_idx ≤ pfn ∧ pfn < frames
          · rw [if_pos inside, if_pos (by omega)]
          · rw [if_neg inside, if_neg (by omega)]

theorem represents_nil {z : Zone frames}
    (empty : ∀ order, order < MAX_ORDER → EmptyArea z order)
    (unmarked : ∀ pfn, pfn ≤ frames →
      (z.fields pfn).mapcount ≠ pageBuddyMapcountValue ∧
        (z.fields pfn).priv = 0) :
    Represents z [] where
  rings := fun order bound => (empty order bound).1
  nr_free := fun order bound => (empty order bound).2
  marked := by simp
  unmarked := fun pfn bound _ => unmarked pfn bound

/-! ## Handing out the frames -/

/-- The last one of the given number of blocks of the top order. -/
def lastTop : Nat → Option DyadicBlock
  | 0 => none
  | count + 1 => some ⟨topOrder, count⟩

/-- The state of the last loop: the frames below `p_idx` are free and the
others still hold their first reference.  The largest block that was freed last
comes first. -/
structure HandedOut (z : Zone frames) (free : List DyadicBlock)
    (p_idx : Nat) : Prop where
  represents : Represents z free
  valid : FreeList frames free
  positions : ∀ position, position ∈ freePositions free ↔ position < p_idx
  waiting : ∀ pfn, p_idx ≤ pfn → pfn < frames → (z.fields pfn).count = 1
  first : firstTop free = lastTop (p_idx / 2 ^ topOrder)

/-- Blocks of the top order are freed first, and smaller ones only from what is
left behind them. -/
def Greedy (frames p_idx p_order : Nat) : Prop :=
  p_order = topOrder ∨ frames / 2 ^ topOrder = p_idx / 2 ^ topOrder

theorem Greedy.next {p_idx p_order : Nat} (greedy : Greedy frames p_idx p_order)
    (fits : p_idx + 2 ^ p_order ≤ frames) :
    Greedy frames (p_idx + 2 ^ p_order) p_order := by
  cases greedy with
  | inl isTop => exact Or.inl isTop
  | inr atEnd =>
      have low := Nat.div_le_div_right (c := 2 ^ topOrder)
        (Nat.le_add_right p_idx (2 ^ p_order))
      have high := Nat.div_le_div_right (c := 2 ^ topOrder) fits
      exact Or.inr (by omega)

theorem Greedy.smaller {p_idx p_order : Nat} (greedy : Greedy frames p_idx p_order)
    (below : p_idx ≤ frames) (aligned : 2 ^ p_order ∣ p_idx)
    (few : frames - p_idx < 2 ^ p_order) :
    Greedy frames p_idx (p_order - 1) := by
  cases greedy with
  | inl isTop =>
      subst isTop
      obtain ⟨k, rfl⟩ := aligned
      right
      rw [Nat.mul_div_cancel_left k (Nat.two_pow_pos topOrder)]
      apply Nat.div_eq_of_lt_le
      · rw [Nat.mul_comm]
        exact below
      · rw [Nat.add_mul, Nat.one_mul, Nat.mul_comm]
        omega
  | inr atEnd => exact Or.inr atEnd

theorem HandedOut.free {z : Zone frames} {free : List DyadicBlock}
    {p_idx p_order : Nat} (handed : HandedOut z free p_idx)
    (aligned : 2 ^ p_order ∣ p_idx) (bounded : p_order ≤ topOrder)
    (fits : p_idx + 2 ^ p_order ≤ frames)
    (greedy : Greedy frames p_idx p_order) :
    ∃ z' free', freePages p_idx p_order z = some z' ∧
      HandedOut z' free' (p_idx + 2 ^ p_order) := by
  have positive := Nat.two_pow_pos p_order
  let block := DyadicBlock.around p_order p_idx
  have head : block.head = p_idx := DyadicBlock.head_around aligned
  have size : block.size = 2 ^ p_order := rfl
  have covers : ∀ position, block.Covers position ↔
      p_idx ≤ position ∧ position < p_idx + 2 ^ p_order := by
    intro position
    rw [block.covers_iff, head, size]
  have taken : Taken free block := by
    intro position covered isFree
    have below := (handed.positions position).mp isFree
    have above := (covers position).mp covered
    omega
  have inside : block.head + block.size ≤ frames := by
    rw [head, size]
    exact fits
  have last : (z.fields block.head).count - 1 = 0 := by
    rw [head, handed.waiting p_idx (Nat.le_refl _) (by omega)]
    rfl
  obtain ⟨z', run, represents', counts⟩ :=
    freePages_release handed.represents handed.valid taken inside bounded last
  rw [head] at run counts
  refine ⟨z', release free block, run, represents',
    release_valid handed.valid taken inside bounded, ?_, ?_, ?_⟩
  · intro position
    rw [release_positions handed.valid taken inside bounded,
      handed.positions, covers]
    omega
  · intro pfn above below
    rw [counts pfn, if_neg (by omega)]
    exact handed.waiting pfn (by omega) below
  · by_cases isTop : p_order = topOrder
    · rw [release_firstTop isTop, isTop,
        Nat.add_div_right _ (Nat.two_pow_pos topOrder)]
      change some (DyadicBlock.mk p_order (p_idx / 2 ^ p_order)) = _
      rw [isTop]
      rfl
    · have atEnd := greedy.resolve_left isTop
      have atEnd' := (greedy.next fits).resolve_left isTop
      rw [release_firstTop_of_end handed.valid taken inside bounded
        (by rw [head]; exact atEnd), handed.first, ← atEnd, atEnd']

/-- The greedy loop ends within its fuel and frees everything.  Every turn
either moves `p_idx` or lowers `p_order`. -/
theorem freeAllLoop_spec (fuel p_idx p_order : Nat) (z : Zone frames)
    (free : List DyadicBlock) (handed : HandedOut z free p_idx)
    (below : p_idx ≤ frames) (aligned : 2 ^ p_order ∣ p_idx)
    (bounded : p_order ≤ topOrder) (greedy : Greedy frames p_idx p_order)
    (enough : (frames - p_idx) + p_order < fuel) :
    ∃ z' free', freeAllLoop frames fuel p_idx p_order z = some z' ∧
      HandedOut z' free' frames := by
  induction fuel generalizing p_idx p_order z free with
  | zero => exact absurd enough (Nat.not_lt_zero _)
  | succ fuel inductionHypothesis =>
      rw [freeAllLoop, Nat.shiftLeft_eq, Nat.one_mul]
      by_cases more : p_idx < frames
      · rw [if_pos more]
        by_cases fits : frames - p_idx ≥ 2 ^ p_order
        · obtain ⟨z₁, free₁, run₁, handed₁⟩ :=
            handed.free aligned bounded (by omega) greedy
          have positive := Nat.two_pow_pos p_order
          obtain ⟨z', free', run, handed'⟩ :=
            inductionHypothesis (p_idx + 2 ^ p_order) p_order z₁ free₁
              handed₁ (by omega) ((Nat.dvd_add_right aligned).mpr dvd_rfl)
              bounded (greedy.next (by omega)) (by omega)
          refine ⟨z', free', ?_, handed'⟩
          simp only [fits, if_true, run₁, run, Option.bind_eq_bind,
            Option.bind_some]
        · have divisible : 0 < p_order := by
            by_contra zero
            have isZero : p_order = 0 := by omega
            rw [isZero, Nat.pow_zero] at fits
            omega
          have weaker : 2 ^ (p_order - 1) ∣ p_idx :=
            (Nat.pow_dvd_pow 2 (Nat.sub_le _ _)).trans aligned
          obtain ⟨z', free', run, handed'⟩ :=
            inductionHypothesis p_idx (p_order - 1) z free handed below
              weaker (by omega) (greedy.smaller below aligned (by omega))
              (by omega)
          refine ⟨z', free', ?_, handed'⟩
          simp only [fits, if_false, run]
      · rw [if_neg more]
        have all : p_idx = frames := by omega
        subst all
        exact ⟨z, free, rfl, handed⟩

theorem pmmFreePages_spec (frames : Nat) :
    ∃ z free, pmmFreePages frames (zeroedZone frames) = some z ∧
      HandedOut z free frames := by
  obtain ⟨z₁, run₁, fields₁, empty₁⟩ :=
    initAreas_spec MAX_ORDER (zeroedZone frames) (Nat.le_refl _)
      (by intro order below; omega)
  have start : initBuddyMm (zeroedZone frames) = some z₁ := run₁
  obtain ⟨z₂, run₂, empty₂, fields₂⟩ :=
    initPages_spec frames 0 z₁ (Nat.zero_add _) empty₁
      (by intro pfn _; rw [fields₁]; rfl)
  have nothing : HandedOut z₂ [] 0 := by
    refine ⟨represents_nil empty₂ ?_, FreeList.nil frames, ?_, ?_, rfl⟩
    · intro pfn _
      rw [fields₂ pfn]
      split
      · exact ⟨by decide, rfl⟩
      · rw [fields₁]
        exact ⟨by change (0 : BitVec 32) ≠ pageBuddyMapcountValue; decide, rfl⟩
    · intro position
      simp [freePositions, coverage]
    · intro pfn _ below
      rw [fields₂ pfn, if_pos ⟨Nat.zero_le _, below⟩]
      rfl
  obtain ⟨z', free', run, handed⟩ :=
    freeAllLoop_spec (frames + MAX_ORDER) 0 (MAX_ORDER - 1) z₂ [] nothing
      (Nat.zero_le _) (Nat.dvd_zero _) (Nat.le_refl _) (Or.inl rfl)
      (by change frames - 0 + 10 < frames + 11; omega)
  refine ⟨z', free', ?_, handed⟩
  simp only [pmmFreePages, start, run₂, run, Option.bind_eq_bind,
    Option.bind_some]

end Hlos.Mm
