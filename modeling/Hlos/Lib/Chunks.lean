import Mathlib.Data.List.Chain

/-!
# Chunk lists

An arena that is tiled by chunks, each a header of fixed size followed by a
payload.  A chunk list holds the chunks in address order, so the addresses are
not part of it: `place` computes them from the start of the arena.

A chunk is found by first fit and divided in two.  A released chunk is merged
with the free chunks next to it.
-/

namespace Hlos.Lib

/-- The use mark and the length of the payload. -/
structure Chunk where
  used : Bool
  length : Nat
deriving DecidableEq, Repr

namespace Chunks

/-- The bytes that the chunks take. -/
def span (header : Nat) : List Chunk → Nat
  | [] => 0
  | chunk :: rest => header + chunk.length + span header rest

/-- The chunks with the addresses of their headers. -/
def place (header : Nat) : Nat → List Chunk → List (Nat × Chunk)
  | _, [] => []
  | addr, chunk :: rest =>
      (addr, chunk) :: place header (addr + header + chunk.length) rest

/-- Of two neighbours at least one is used. -/
def Coalesced (chunks : List Chunk) : Prop :=
  chunks.IsChain fun left right => left.used = true ∨ right.used = true

/-- The first free chunk longer than `len`, between the chunks before and
after it. -/
def firstFit (len : Nat) : List Chunk → Option (List Chunk × Chunk × List Chunk)
  | [] => none
  | chunk :: rest =>
      if chunk.used = false ∧ len < chunk.length then some ([], chunk, rest)
      else
        match firstFit len rest with
        | some (before, found, after) => some (chunk :: before, found, after)
        | none => none

/-- The left neighbour with the room of both. -/
def merge (header : Nat) (left right : Chunk) : Chunk :=
  { left with length := left.length + (right.length + header) }

/-- The chunk swallows a free chunk behind it. -/
def mergeNext (header : Nat) (chunk : Chunk) : List Chunk → List Chunk
  | [] => [chunk]
  | next :: rest =>
      if next.used then chunk :: next :: rest
      else merge header chunk next :: rest

/-- A free chunk between `before` and `after` is merged with both
neighbours. -/
def release (header : Nat) (chunk : Chunk) (after : List Chunk) :
    (before : List Chunk) → List Chunk
  | [] => mergeNext header chunk after
  | [prev] =>
      if prev.used then prev :: mergeNext header chunk after
      else mergeNext header (merge header prev chunk) after
  | first :: second :: before =>
      first :: release header chunk after (second :: before)

/-- The chunk at a position, between the chunks before and after it. -/
def findAt (header : Nat) :
    (position : Nat) → List Chunk → Option (List Chunk × Chunk × List Chunk)
  | _, [] => none
  | 0, chunk :: rest => some ([], chunk, rest)
  | position + 1, chunk :: rest =>
      if position + 1 < header + chunk.length then none
      else
        match findAt header (position + 1 - (header + chunk.length)) rest with
        | some (before, found, after) => some (chunk :: before, found, after)
        | none => none

/-- Release the chunk at a position.  A free chunk stays as it is. -/
def releaseAt (header position : Nat) (chunks : List Chunk) : List Chunk :=
  match findAt header position chunks with
  | none => chunks
  | some (before, chunk, after) =>
      if chunk.used then
        release header { chunk with used := false } after before
      else chunks

section Placement

variable {header : Nat}

theorem span_append (left right : List Chunk) :
    span header (left ++ right) = span header left + span header right := by
  induction left with
  | nil => exact (Nat.zero_add _).symm
  | cons chunk rest inductionRest =>
      rw [List.cons_append, span, span, inductionRest]
      exact (Nat.add_assoc _ _ _).symm

/-- Every chunk takes at least its header. -/
theorem length_mul_le_span (chunks : List Chunk) :
    header * chunks.length ≤ span header chunks := by
  induction chunks with
  | nil => exact Nat.le_refl _
  | cons chunk rest inductionRest =>
      rw [List.length_cons, Nat.mul_succ, span]
      omega

theorem place_append (addr : Nat) (left right : List Chunk) :
    place header addr (left ++ right) =
      place header addr left ++
        place header (addr + span header left) right := by
  induction left generalizing addr with
  | nil => rfl
  | cons chunk rest inductionRest =>
      rw [List.cons_append, place, place, inductionRest, span]
      have same : addr + header + chunk.length + span header rest =
          addr + (header + chunk.length + span header rest) := by
        omega
      rw [same, List.cons_append]

/-- Placed chunks lie in the span. -/
theorem place_bounds {addr : Nat} {chunks : List Chunk}
    {placed : Nat × Chunk} (member : placed ∈ place header addr chunks) :
    addr ≤ placed.1 ∧
      placed.1 + header + placed.2.length ≤ addr + span header chunks := by
  induction chunks generalizing addr with
  | nil => simp [place] at member
  | cons chunk rest inductionRest =>
      rw [span]
      rcases List.mem_cons.mp member with isFirst | inRest
      · rw [isFirst]
        change addr ≤ addr ∧ addr + header + chunk.length ≤ _
        omega
      · have bounds := inductionRest inRest
        omega

/-- Two placed chunks are the same or lie apart. -/
theorem place_apart {addr : Nat} {chunks : List Chunk}
    {left right : Nat × Chunk}
    (leftMember : left ∈ place header addr chunks)
    (rightMember : right ∈ place header addr chunks) :
    left = right ∨ left.1 + header + left.2.length ≤ right.1 ∨
      right.1 + header + right.2.length ≤ left.1 := by
  induction chunks generalizing addr with
  | nil => simp [place] at leftMember
  | cons chunk rest inductionRest =>
      rcases List.mem_cons.mp leftMember with leftFirst | leftRest
      · rcases List.mem_cons.mp rightMember with rightFirst | rightRest
        · exact Or.inl (leftFirst.trans rightFirst.symm)
        · rw [leftFirst]
          exact Or.inr (Or.inl (place_bounds rightRest).1)
      · rcases List.mem_cons.mp rightMember with rightFirst | rightRest
        · rw [rightFirst]
          exact Or.inr (Or.inr (place_bounds leftRest).1)
        · exact inductionRest leftRest rightRest

theorem place_nodup (positive : 0 < header) {addr : Nat}
    {chunks : List Chunk} : (place header addr chunks).Nodup := by
  induction chunks generalizing addr with
  | nil => exact List.nodup_nil
  | cons chunk rest inductionRest =>
      refine List.nodup_cons.mpr ⟨?_, inductionRest⟩
      intro member
      have bounds := (place_bounds member).1
      change addr + header + chunk.length ≤ addr at bounds
      omega

/-- A placed chunk divides the list. -/
theorem exists_split_of_mem {addr : Nat} {chunks : List Chunk}
    {placed : Nat × Chunk} (member : placed ∈ place header addr chunks) :
    ∃ before after, chunks = before ++ placed.2 :: after ∧
      placed.1 = addr + span header before := by
  induction chunks generalizing addr with
  | nil => simp [place] at member
  | cons chunk rest inductionRest =>
      rcases List.mem_cons.mp member with isFirst | inRest
      · rw [isFirst]
        exact ⟨[], rest, rfl, rfl⟩
      · obtain ⟨before, after, isRest, isAddr⟩ := inductionRest inRest
        refine ⟨chunk :: before, after, by rw [isRest]; rfl, ?_⟩
        rw [isAddr, span]
        omega

theorem mem_of_placed {addr : Nat} {chunks : List Chunk}
    {placed : Nat × Chunk} (member : placed ∈ place header addr chunks) :
    placed.2 ∈ chunks := by
  obtain ⟨before, after, isSplit, _⟩ := exists_split_of_mem member
  rw [isSplit]
  simp

theorem placed_middle (addr : Nat) (before : List Chunk) (chunk : Chunk)
    (after : List Chunk) :
    (addr + span header before, chunk) ∈
      place header addr (before ++ chunk :: after) := by
  rw [place_append]
  exact List.mem_append_right _ List.mem_cons_self

end Placement

/-! ## First fit -/

/-- The first chunk fits, or the search goes on behind it. -/
theorem firstFit_cons {len : Nat} {first chunk : Chunk}
    {rest before after : List Chunk}
    (found : firstFit len (first :: rest) = some (before, chunk, after)) :
    ((first.used = false ∧ len < first.length) ∧
        before = [] ∧ chunk = first ∧ after = rest) ∨
      (¬ (first.used = false ∧ len < first.length) ∧
        ∃ front, before = first :: front ∧
          firstFit len rest = some (front, chunk, after)) := by
  rw [firstFit] at found
  by_cases fits : first.used = false ∧ len < first.length
  · rw [if_pos fits] at found
    exact Or.inl ⟨fits, by simpa [eq_comm] using found⟩
  · rw [if_neg fits] at found
    refine Or.inr ⟨fits, ?_⟩
    cases further : firstFit len rest with
    | none => simp [further] at found
    | some split =>
        rw [further] at found
        exact ⟨split.1, by simpa [eq_comm, Prod.ext_iff] using found⟩

theorem firstFit_some {len : Nat} {chunks before after : List Chunk}
    {chunk : Chunk}
    (found : firstFit len chunks = some (before, chunk, after)) :
    chunks = before ++ chunk :: after ∧ chunk.used = false ∧
      len < chunk.length := by
  induction chunks generalizing before with
  | nil => simp [firstFit] at found
  | cons first rest inductionRest =>
      rcases firstFit_cons found with
        ⟨fits, rfl, rfl, rfl⟩ | ⟨_, front, rfl, further⟩
      · exact ⟨rfl, fits⟩
      · have found := inductionRest further
        exact ⟨congrArg (first :: ·) found.1, found.2⟩

/-- No chunk before the first one that fits does. -/
theorem firstFit_before {len : Nat} {chunks before after : List Chunk}
    {chunk : Chunk}
    (found : firstFit len chunks = some (before, chunk, after)) :
    ∀ other, other ∈ before →
      ¬ (other.used = false ∧ len < other.length) := by
  induction chunks generalizing before with
  | nil => simp [firstFit] at found
  | cons first rest inductionRest =>
      intro other member
      rcases firstFit_cons found with
        ⟨_, rfl, _, _⟩ | ⟨tooSmall, front, rfl, further⟩
      · simp at member
      · rcases List.mem_cons.mp member with rfl | inFront
        · exact tooSmall
        · exact inductionRest further other inFront

theorem firstFit_eq_none_iff {len : Nat} {chunks : List Chunk} :
    firstFit len chunks = none ↔
      ∀ chunk, chunk ∈ chunks → ¬ (chunk.used = false ∧ len < chunk.length) := by
  induction chunks with
  | nil => simp [firstFit]
  | cons first rest inductionRest =>
      rw [firstFit, List.forall_mem_cons, ← inductionRest]
      by_cases fits : first.used = false ∧ len < first.length
      · simp [fits]
      · rw [if_neg fits]
        cases firstFit len rest with
        | none => exact ⟨fun _ => ⟨fits, rfl⟩, fun _ => rfl⟩
        | some split => simp

/-- The chunk behind `before` is found at its position. -/
theorem findAt_span {header : Nat} (positive : 0 < header) (chunk : Chunk)
    (after before : List Chunk) :
    findAt header (span header before) (before ++ chunk :: after) =
      some (before, chunk, after) := by
  induction before with
  | nil => rfl
  | cons first before inductionBefore =>
      obtain ⟨position, isPosition⟩ : ∃ position,
          header + first.length + span header before = position + 1 :=
        ⟨header + first.length + span header before - 1, by omega⟩
      have rest : position + 1 - (header + first.length) =
          span header before := by
        omega
      rw [span, isPosition, List.cons_append, findAt, if_neg (by omega), rest,
        inductionBefore]

theorem findAt_some {header position : Nat}
    {chunks before after : List Chunk} {chunk : Chunk}
    (found : findAt header position chunks = some (before, chunk, after)) :
    chunks = before ++ chunk :: after ∧ position = span header before := by
  induction chunks generalizing position before with
  | nil => simp [findAt] at found
  | cons first rest inductionRest =>
      cases position with
      | zero =>
          obtain ⟨rfl, rfl, rfl⟩ :
              [] = before ∧ first = chunk ∧ rest = after := by
            simpa [findAt] using found
          exact ⟨rfl, rfl⟩
      | succ position =>
          rw [findAt] at found
          by_cases inside : position + 1 < header + first.length
          · simp [inside] at found
          · rw [if_neg inside] at found
            cases further : findAt header
                (position + 1 - (header + first.length)) rest with
            | none => simp [further] at found
            | some split =>
                obtain ⟨front, other, back⟩ := split
                rw [further] at found
                obtain ⟨rfl, rfl, rfl⟩ :
                    first :: front = before ∧ other = chunk ∧
                      back = after := by
                  simpa using found
                obtain ⟨isRest, isPosition⟩ := inductionRest further
                refine ⟨congrArg (first :: ·) isRest, ?_⟩
                rw [span]
                omega

/-! ## Merging -/

section Merging

variable {header : Nat}

theorem span_mergeNext (chunk : Chunk) (after : List Chunk) :
    span header (mergeNext header chunk after) =
      span header (chunk :: after) := by
  cases after with
  | nil => rfl
  | cons next rest =>
      cases used : next.used with
      | true => simp [mergeNext, used]
      | false =>
          simp only [mergeNext, used, Bool.false_eq_true, if_false, span,
            merge]
          omega

theorem release_concat (chunk : Chunk) (after : List Chunk) (prev : Chunk)
    (before : List Chunk) :
    release header chunk after (before ++ [prev]) =
      before ++
        if prev.used then prev :: mergeNext header chunk after
        else mergeNext header (merge header prev chunk) after := by
  induction before with
  | nil => rfl
  | cons first before inductionBefore =>
      cases before with
      | nil => rfl
      | cons second before =>
          rw [List.cons_append] at inductionBefore
          rw [List.cons_append, List.cons_append, release, inductionBefore]
          rfl

theorem span_release (chunk : Chunk) (after before : List Chunk) :
    span header (release header chunk after before) =
      span header (before ++ chunk :: after) := by
  rcases List.eq_nil_or_concat before with rfl | ⟨front, prev, rfl⟩
  · exact span_mergeNext chunk after
  · rw [List.concat_eq_append, release_concat]
    cases used : prev.used with
    | true =>
        simp only [if_true, span_append, span, span_mergeNext]
        omega
    | false =>
        simp only [Bool.false_eq_true, if_false, span_append, span_mergeNext,
          span, merge]
        omega

theorem mergeNext_length {least : Nat} {chunk : Chunk} {after : List Chunk}
    (long : ∀ other, other ∈ chunk :: after → least ≤ other.length) :
    ∀ other, other ∈ mergeNext header chunk after →
      least ≤ other.length := by
  cases after with
  | nil => exact long
  | cons next rest =>
      cases used : next.used with
      | true =>
          simp only [mergeNext, used, if_true]
          exact long
      | false =>
          intro other member
          simp only [mergeNext, used, Bool.false_eq_true, if_false,
            List.mem_cons] at member
          have first := long chunk List.mem_cons_self
          rcases member with rfl | inRest
          · change least ≤ chunk.length + (next.length + header)
            omega
          · exact long other (by simp [inRest])

theorem release_length {least : Nat} {chunk : Chunk}
    {after before : List Chunk}
    (long : ∀ other, other ∈ before ++ chunk :: after →
      least ≤ other.length) :
    ∀ other, other ∈ release header chunk after before →
      least ≤ other.length := by
  rcases List.eq_nil_or_concat before with rfl | ⟨front, prev, rfl⟩
  · exact mergeNext_length long
  · rw [List.concat_eq_append] at long ⊢
    rw [release_concat]
    intro other member
    have prevLong := long prev (by simp)
    rcases List.mem_append.mp member with inFront | inBack
    · exact long other (by simp [inFront])
    · cases used : prev.used with
      | true =>
          rw [used, if_pos rfl] at inBack
          rcases List.mem_cons.mp inBack with rfl | merged
          · exact prevLong
          · refine mergeNext_length ?_ other merged
            intro inside insideMember
            exact long inside (List.mem_append_right _ insideMember)
      | false =>
          rw [used, if_neg (by decide)] at inBack
          refine mergeNext_length ?_ other inBack
          intro inside insideMember
          rcases List.mem_cons.mp insideMember with rfl | inAfter
          · change least ≤ prev.length + (chunk.length + header)
            omega
          · exact long inside (by simp [inAfter])

/-- Used chunks behind stay where they are. -/
theorem mem_place_mergeNext {addr : Nat} {chunk : Chunk} {after : List Chunk}
    {placed : Nat × Chunk} (used : placed.2.used = true)
    (member : placed ∈ place header (addr + header + chunk.length) after) :
    placed ∈ place header addr (mergeNext header chunk after) := by
  cases after with
  | nil => simp [place] at member
  | cons next rest =>
      cases nextUsed : next.used with
      | true =>
          simp only [mergeNext, nextUsed, if_true]
          exact List.mem_cons_of_mem _ member
      | false =>
          simp only [mergeNext, nextUsed, Bool.false_eq_true, if_false]
          rcases List.mem_cons.mp member with rfl | inRest
          · exact absurd (nextUsed.symm.trans used) (by decide)
          · have same : addr + header + chunk.length + header + next.length =
                addr + header + (chunk.length + (next.length + header)) := by
              omega
            rw [same] at inRest
            exact List.mem_cons_of_mem _ inRest

/-- Used chunks behind stay where they are when the chunk is merged with both
neighbours. -/
theorem mem_place_behind {addr : Nat} {prev chunk : Chunk}
    {after : List Chunk} {placed : Nat × Chunk}
    (used : placed.2.used = true)
    (member : placed ∈ place header
      (addr + header + prev.length + header + chunk.length) after) :
    placed ∈ place header addr (release header chunk after [prev]) := by
  rw [release]
  cases prevUsed : prev.used with
  | true =>
      rw [if_pos rfl]
      exact List.mem_cons_of_mem _ (mem_place_mergeNext used member)
  | false =>
      rw [if_neg (by decide)]
      apply mem_place_mergeNext used
      have same : addr + header + prev.length + header + chunk.length =
          addr + header + (merge header prev chunk).length := by
        simp only [merge]
        omega
      rw [same] at member
      exact member

/-- A release moves no other used chunk. -/
theorem mem_place_release {chunk freed : Chunk}
    (sameLength : freed.length = chunk.length) {after : List Chunk}
    {placed : Nat × Chunk} (used : placed.2.used = true)
    {before : List Chunk} {addr : Nat}
    (member : placed ∈ place header addr (before ++ chunk :: after))
    (elsewhere : placed.1 ≠ addr + span header before) :
    placed ∈ place header addr (release header freed after before) := by
  induction before generalizing addr with
  | nil =>
      rcases List.mem_cons.mp member with rfl | inAfter
      · exact absurd rfl elsewhere
      · rw [← sameLength] at inAfter
        exact mem_place_mergeNext used inAfter
  | cons first before inductionBefore =>
      cases before with
      | nil =>
          rcases List.mem_cons.mp member with rfl | inRest
          · rw [release, if_pos used]
            exact List.mem_cons_self
          · rcases List.mem_cons.mp inRest with rfl | inAfter
            · exact absurd (by simp only [span]; omega) elsewhere
            · rw [← sameLength] at inAfter
              exact mem_place_behind used inAfter
      | cons second before =>
          rw [release]
          rcases List.mem_cons.mp member with rfl | inRest
          · exact List.mem_cons_self
          · apply List.mem_cons_of_mem
            apply inductionBefore inRest
            rw [span] at elsewhere
            omega

end Merging

/-! ## Coalesced lists -/

section CoalescedLists

variable {header : Nat}

theorem coalesced_append {left right : List Chunk} :
    Coalesced (left ++ right) ↔
      Coalesced left ∧ Coalesced right ∧
        ∀ last, last ∈ left.getLast? → ∀ first, first ∈ right.head? →
          last.used = true ∨ first.used = true :=
  List.isChain_append

/-- Behind a used chunk nothing is asked of the next one. -/
theorem coalesced_cons_of_used {chunk : Chunk} (used : chunk.used = true)
    {rest : List Chunk} (coalesced : Coalesced rest) :
    Coalesced (chunk :: rest) := by
  cases rest with
  | nil => exact List.isChain_singleton chunk
  | cons next rest =>
      exact List.isChain_cons_cons.mpr ⟨Or.inl used, coalesced⟩

/-- The chunk behind a free one is used. -/
theorem Coalesced.next_used {chunk next : Chunk} {rest : List Chunk}
    (coalesced : Coalesced (chunk :: next :: rest))
    (free : chunk.used = false) : next.used = true := by
  have link := (List.isChain_cons_cons.mp coalesced).1
  simpa [free] using link

/-- A free chunk may stand for another one. -/
theorem Coalesced.replace {chunk other : Chunk} {rest : List Chunk}
    (coalesced : Coalesced (chunk :: rest)) (free : chunk.used = false) :
    Coalesced (other :: rest) := by
  cases rest with
  | nil => exact List.isChain_singleton other
  | cons next rest =>
      exact List.isChain_cons_cons.mpr
        ⟨Or.inr (coalesced.next_used free),
          (List.isChain_cons_cons.mp coalesced).2⟩

/-- Neighbours in the arena are neighbours in the list. -/
theorem place_isChain {chunks : List Chunk} {addr : Nat}
    (coalesced : Coalesced chunks) :
    (place header addr chunks).IsChain fun left right =>
      left.2.used = true ∨ right.2.used = true := by
  induction chunks generalizing addr with
  | nil => exact List.isChain_nil
  | cons chunk rest inductionRest =>
      cases rest with
      | nil => exact List.isChain_singleton (addr, chunk)
      | cons next rest =>
          have linked := List.isChain_cons_cons.mp coalesced
          exact List.isChain_cons_cons.mpr
            ⟨linked.1, inductionRest linked.2⟩

theorem Coalesced.mergeNext {chunk : Chunk} {after : List Chunk}
    (coalesced : Coalesced after) :
    Coalesced (mergeNext header chunk after) := by
  cases after with
  | nil => exact List.isChain_singleton chunk
  | cons next rest =>
      cases used : next.used with
      | true =>
          simp only [Chunks.mergeNext, used, if_true]
          exact List.isChain_cons_cons.mpr ⟨Or.inr used, coalesced⟩
      | false =>
          simp only [Chunks.mergeNext, used, Bool.false_eq_true, if_false]
          exact coalesced.replace used

/-- What stands before a free chunk may stand before any list. -/
theorem Coalesced.before_free {before rest other : List Chunk} {chunk : Chunk}
    (coalesced : Coalesced (before ++ chunk :: rest))
    (free : chunk.used = false) (otherCoalesced : Coalesced other) :
    Coalesced (before ++ other) := by
  obtain ⟨beforeCoalesced, _, link⟩ := coalesced_append.mp coalesced
  refine coalesced_append.mpr ⟨beforeCoalesced, otherCoalesced, ?_⟩
  intro last isLast first _
  have either := link last isLast chunk rfl
  left
  simpa [free] using either

/-- A free chunk may be divided into a used one and a free rest. -/
theorem Coalesced.split {before after : List Chunk} {chunk taken rest : Chunk}
    (coalesced : Coalesced (before ++ chunk :: after))
    (free : chunk.used = false) (used : taken.used = true) :
    Coalesced (before ++ taken :: rest :: after) := by
  obtain ⟨_, fromChunk, _⟩ := coalesced_append.mp coalesced
  exact coalesced.before_free free
    (coalesced_cons_of_used used (fromChunk.replace free))

/-- After a release no two neighbours are free. -/
theorem Coalesced.release {before after : List Chunk} {chunk freed : Chunk}
    (coalesced : Coalesced (before ++ chunk :: after)) :
    Coalesced (release header freed after before) := by
  obtain ⟨beforeCoalesced, fromChunk, _⟩ := coalesced_append.mp coalesced
  have afterCoalesced : Coalesced after := List.IsChain.tail fromChunk
  rcases List.eq_nil_or_concat before with rfl | ⟨front, prev, rfl⟩
  · exact afterCoalesced.mergeNext
  · rw [List.concat_eq_append] at beforeCoalesced ⊢
    rw [release_concat]
    cases used : prev.used with
    | true =>
        rw [if_pos rfl, ← List.singleton_append, ← List.append_assoc]
        refine coalesced_append.mpr
          ⟨beforeCoalesced, afterCoalesced.mergeNext, ?_⟩
        intro last isLast first _
        rw [List.getLast?_concat] at isLast
        left
        rw [← Option.some.inj isLast, used]
    | false =>
        rw [if_neg (by decide)]
        exact beforeCoalesced.before_free used afterCoalesced.mergeNext

/-- A division is undone by a release: the chunk before is used, and the rest
of the division is free. -/
theorem Coalesced.release_divided {len : Nat} {before after : List Chunk}
    {chunk : Chunk} (coalesced : Coalesced (before ++ chunk :: after))
    (free : chunk.used = false) (enough : header ≤ len)
    (long : len ≤ chunk.length) :
    Chunks.release header ⟨false, len - header⟩
      (⟨false, chunk.length - len⟩ :: after) before =
        before ++ chunk :: after := by
  have whole : Chunks.mergeNext header ⟨false, len - header⟩
      (⟨false, chunk.length - len⟩ :: after) = chunk :: after := by
    have length : len - header + (chunk.length - len + header) =
        chunk.length := by
      omega
    change (⟨false, len - header + (chunk.length - len + header)⟩ : Chunk) ::
      after = _
    rw [length, ← free]
  rcases List.eq_nil_or_concat before with rfl | ⟨front, prev, rfl⟩
  · exact whole
  · rw [List.concat_eq_append] at coalesced ⊢
    have used : prev.used = true := by
      have link := (coalesced_append.mp coalesced).2.2 prev
        List.getLast?_concat chunk rfl
      simpa [free] using link
    rw [release_concat, used, if_pos rfl, whole, List.append_assoc]
    rfl

/-- Free chunks only are a single chunk. -/
theorem Coalesced.eq_singleton {header : Nat} {chunks : List Chunk}
    (coalesced : Coalesced chunks)
    (free : ∀ chunk, chunk ∈ chunks → chunk.used = false)
    (nonempty : 0 < span header chunks) :
    chunks = [⟨false, span header chunks - header⟩] := by
  cases chunks with
  | nil => simp [span] at nonempty
  | cons chunk rest =>
      cases rest with
      | nil =>
          have mark := free chunk List.mem_cons_self
          have length : span header [chunk] - header = chunk.length := by
            simp only [span]
            omega
          rw [length, ← mark]
      | cons next rest =>
          have nextUsed := coalesced.next_used (free chunk (by simp))
          rw [free next (by simp)] at nextUsed
          exact absurd nextUsed (by decide)

end CoalescedLists

/-! ## Tilings -/

/-- The chunks fill the arena, none is shorter than `least`, and no two
neighbours are free. -/
structure Tiles (header least total : Nat) (chunks : List Chunk) : Prop where
  span : span header chunks = total
  long : ∀ chunk, chunk ∈ chunks → least ≤ chunk.length
  coalesced : Coalesced chunks

namespace Tiles

variable {header least total len : Nat} {chunks before after : List Chunk}
  {chunk : Chunk}

/-- A division keeps the tiling. -/
theorem divide (tiles : Tiles header least total (before ++ chunk :: after))
    (free : chunk.used = false) (enough : header + least ≤ len)
    (room : len + (header + least) ≤ chunk.length) :
    Tiles header least total
      (before ++ ⟨true, len - header⟩ :: ⟨false, chunk.length - len⟩ ::
        after) := by
  constructor
  · have whole := tiles.span
    simp only [span_append, Chunks.span] at whole ⊢
    omega
  · intro other member
    have long := tiles.long other
    simp only [List.mem_append, List.mem_cons] at member long
    rcases member with inBefore | rfl | rfl | inAfter
    · exact long (Or.inl inBefore)
    · change least ≤ len - header
      omega
    · change least ≤ chunk.length - len
      omega
    · exact long (Or.inr (Or.inr inAfter))
  · exact tiles.coalesced.split free rfl

/-- A release keeps the tiling. -/
theorem release (tiles : Tiles header least total (before ++ chunk :: after)) :
    Tiles header least total
      (release header { chunk with used := false } after before) := by
  constructor
  · rw [span_release, ← tiles.span, span_append, span_append, Chunks.span,
      Chunks.span]
  · apply release_length
    intro other member
    have long := tiles.long
    simp only [List.mem_append, List.mem_cons] at member long
    rcases member with inBefore | rfl | inAfter
    · exact long other (Or.inl inBefore)
    · exact long chunk (Or.inr (Or.inl rfl))
    · exact long other (Or.inr (Or.inr inAfter))
  · exact tiles.coalesced.release

end Tiles

end Chunks

end Hlos.Lib
