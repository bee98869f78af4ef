import Hlos.Mm.Coalescing

/-!
# Reference counts and stale frees

A second machine for the same calls, whose ledger counts calls instead of
looking at the zone.  For every page that `alloc_pages` has returned it knows
the order, the number of `get_page` calls and the number of `free_pages` calls
since then.  When the frees exceed the gets the block counts as released, and
later `free_pages` calls on its head are counted as stale.

The theorem relates these numbers to what the calls do to the zone.
-/

set_option linter.style.nameCheck false

namespace Hlos.Mm

open Hlos.Lib Hlos.Include

variable {frames : Nat}

inductive PageLedger where
  | fresh
  | held (order gets frees : Nat)
  | released (stale : Nat)
deriving DecidableEq, Repr

structure CountedState (frames : Nat) where
  zone : Zone frames
  ledger : Nat → PageLedger

/-- The number of calls that one page may see. -/
def callLimit : Nat := 2 ^ 30

def PageLedger.afterGet : PageLedger → PageLedger
  | .held order gets frees => .held order (gets + 1) frees
  | other => other

def PageLedger.afterFree : PageLedger → PageLedger
  | .held order gets frees =>
      if gets < frees + 1 then .released 0 else .held order gets (frees + 1)
  | .released stale => .released (stale + 1)
  | .fresh => .fresh

def countedStep (s : CountedState frames) :
    BuddyOp → Option (CountedState frames)
  | .alloc order => do
      let (page, zone) ← allocPages order s.zone
      match page with
      | none => return ⟨zone, s.ledger⟩
      | some page =>
          return ⟨zone, Function.update s.ledger page (.held order 0 0)⟩
  | .get page => do
      let zone ← getPage page s.zone
      return ⟨zone, Function.update s.ledger page (s.ledger page).afterGet⟩
  | .free page order => do
      let zone ← freePages page order s.zone
      return ⟨zone, Function.update s.ledger page (s.ledger page).afterFree⟩

/-- References are taken on held pages only.  A page is freed with its
allocation order while it is held, and with any order once it is released. -/
def countedLegal (s : CountedState frames) : BuddyOp → Prop
  | .alloc _ => True
  | .get page => ∃ order gets frees,
      s.ledger page = .held order gets frees ∧ gets + 1 < callLimit
  | .free page order =>
      (∃ gets frees, s.ledger page = .held order gets frees) ∨
      ∃ stale, s.ledger page = .released stale ∧ stale + 1 < callLimit

def countedMachine (frames : Nat) :
    Machine (CountedState frames) BuddyOp where
  legal := countedLegal
  step := countedStep

def bootCounted (frames : Nat) : CountedState frames :=
  ⟨bootZone frames, fun _ => .fresh⟩

/-! ## Arithmetic of the 32-bit counter -/

theorem counter_succ {gets frees : Nat} (more : frees ≤ gets) :
    BitVec.ofNat 32 (1 + gets - frees) + 1 =
      BitVec.ofNat 32 (1 + (gets + 1) - frees) := by
  have next : 1 + (gets + 1) - frees = (1 + gets - frees) + 1 := by omega
  rw [next, BitVec.ofNat_add]
  rfl

theorem counter_pred {gets frees : Nat} (more : frees ≤ gets) :
    BitVec.ofNat 32 (1 + gets - frees) - 1 = BitVec.ofNat 32 (gets - frees) := by
  have next : 1 + gets - frees = (gets - frees) + 1 := by omega
  rw [next, BitVec.ofNat_add]
  exact BitVec.add_sub_cancel _ _

theorem counter_ne_zero {count : Nat} (positive : 0 < count)
    (bound : count < callLimit) : BitVec.ofNat 32 count ≠ 0 := by
  have limit : callLimit = 1073741824 := rfl
  intro zero
  have value := congrArg BitVec.toNat zero
  rw [BitVec.toNat_ofNat] at value
  change count % 2 ^ 32 = 0 at value
  omega

theorem stale_pred (stale : Nat) :
    -BitVec.ofNat 32 stale - 1 = -BitVec.ofNat 32 (stale + 1) := by
  bv_omega

theorem stale_ne_zero {stale : Nat} (bound : stale + 1 < callLimit) :
    -BitVec.ofNat 32 stale - 1 ≠ 0 := by
  rw [stale_pred]
  intro zero
  have value : BitVec.ofNat 32 (stale + 1) = 0 := by bv_omega
  exact counter_ne_zero (Nat.succ_pos stale) bound value

/-! ## The invariant -/

/-- The held pages with their orders. -/
def heldEntries (ledger : Nat → PageLedger) : Set Entry :=
  {entry | ∃ gets frees, ledger entry.1 = .held entry.2 gets frees}

/-- The counter of a page as its ledger predicts it. -/
def CountMatches (frames page : Nat) (count : BitVec 32) :
    PageLedger → Prop
  | .fresh => True
  | .held _ gets frees =>
      frees ≤ gets ∧ gets < callLimit ∧
        count = BitVec.ofNat 32 (1 + gets - frees)
  | .released stale =>
      page < frames ∧ stale < callLimit ∧ count = -BitVec.ofNat 32 stale

structure Counted (s : CountedState frames) (free : List DyadicBlock) :
    Prop where
  consistent : Consistent s.zone free (heldEntries s.ledger)
  counts : ∀ page,
    CountMatches frames page (s.zone.fields page).count (s.ledger page)

def CountedInvariant (s : CountedState frames) : Prop :=
  ∃ free, Counted s free

theorem bootCounted_invariant (frames : Nat) :
    CountedInvariant (bootCounted frames) := by
  obtain ⟨free, consistent⟩ := bootZone_consistent frames
  have nothing : heldEntries (bootCounted frames).ledger = ∅ := by
    ext entry
    simp [heldEntries, bootCounted]
  refine ⟨free, ?_, fun _ => trivial⟩
  rw [nothing]
  exact consistent

theorem mem_heldEntries {ledger : Nat → PageLedger} {page order gets frees : Nat}
    (held : ledger page = .held order gets frees) :
    (page, order) ∈ heldEntries ledger :=
  ⟨gets, frees, held⟩

theorem heldEntries_update_held {ledger : Nat → PageLedger}
    {page order gets frees : Nat}
    (notHeld : ∀ other, (page, other) ∈ heldEntries ledger → other = order) :
    heldEntries (Function.update ledger page (.held order gets frees)) =
      insert (page, order) (heldEntries ledger) := by
  ext entry
  obtain ⟨head, other⟩ := entry
  by_cases same : head = page
  · subst head
    constructor
    · rintro ⟨_, _, held⟩
      simp only [Function.update_self, PageLedger.held.injEq] at held
      exact Or.inl (by rw [held.1])
    · rintro (isNew | old)
      · have orderEq : other = order := congrArg Prod.snd isNew
        exact ⟨gets, frees, by simp [orderEq]⟩
      · exact ⟨gets, frees, by simp [notHeld other old]⟩
  · simp [heldEntries, same]

theorem heldEntries_update_released {ledger : Nat → PageLedger}
    {page order gets frees stale : Nat}
    (held : ledger page = .held order gets frees) :
    heldEntries (Function.update ledger page (.released stale)) =
      heldEntries ledger \ {(page, order)} := by
  ext entry
  obtain ⟨head, other⟩ := entry
  by_cases same : head = page
  · subst head
    constructor
    · rintro ⟨_, _, isHeld⟩
      simp at isHeld
    · rintro ⟨⟨_, _, isHeld⟩, different⟩
      rw [held, PageLedger.held.injEq] at isHeld
      exact absurd (by rw [isHeld.1]; rfl) different
  · simp [heldEntries, same]

theorem heldEntries_update_same {ledger : Nat → PageLedger} {page : Nat}
    {value : PageLedger}
    (same : ∀ order,
      (∃ gets frees, value = .held order gets frees) ↔
        (page, order) ∈ heldEntries ledger) :
    heldEntries (Function.update ledger page value) = heldEntries ledger := by
  ext entry
  obtain ⟨head, other⟩ := entry
  by_cases isPage : head = page
  · subst head
    rw [← same other]
    simp [heldEntries]
  · simp [heldEntries, isPage]

/-- A call that changes the counter and the ledger of one page. -/
theorem counts_update {z z' : Zone frames} {ledger : Nat → PageLedger}
    {page : Nat} {value : PageLedger}
    (counts : ∀ pfn,
      CountMatches frames pfn (z.fields pfn).count (ledger pfn))
    (others : ∀ pfn, pfn ≠ page →
      (z'.fields pfn).count = (z.fields pfn).count)
    (new : CountMatches frames page (z'.fields page).count value) :
    ∀ pfn, CountMatches frames pfn (z'.fields pfn).count
      (Function.update ledger page value pfn) := by
  intro pfn
  by_cases same : pfn = page
  · subst pfn
    rw [Function.update_self]
    exact new
  · rw [Function.update_of_ne same, others pfn same]
    exact counts pfn

/-- A rewritten counter leaves the others alone. -/
theorem PlainWrite.count_others {z z' : Zone frames} {page : Nat}
    {value : BitVec 32}
    (write : PlainWrite z z' (withCount z page value) z.nrFree) :
    ∀ pfn, pfn ≠ page → (z'.fields pfn).count = (z.fields pfn).count := by
  intro pfn different
  rw [write.fields, withCount_count, if_neg different]

theorem PlainWrite.count_self {z z' : Zone frames} {page : Nat}
    {value : BitVec 32}
    (write : PlainWrite z z' (withCount z page value) z.nrFree) :
    (z'.fields page).count = value := by
  rw [write.fields, withCount_count, if_pos rfl]

theorem Counted.alloc {s : CountedState frames} {free : List DyadicBlock}
    (counted : Counted s free) (order : Nat) :
    ∃ s', countedStep s (.alloc order) = some s' ∧ CountedInvariant s' := by
  rcases counted.consistent.alloc order with
    failed | ⟨page, z', free', run, consistent', counts⟩
  · exact ⟨s, by simp [countedStep, failed], free, counted⟩
  · have single : ∀ other, (page, other) ∈ heldEntries s.ledger →
        other = order := by
      intro other member
      have same := consistent'.tiling.eq_of_head
        (Set.mem_insert_of_mem _ member) (Set.mem_insert _ _) rfl
      exact congrArg Prod.snd same
    refine ⟨⟨z', Function.update s.ledger page (.held order 0 0)⟩,
      by simp [countedStep, run], free', ?_, ?_⟩
    · rw [heldEntries_update_held single]
      exact consistent'
    · apply counts_update counted.counts
      · intro pfn different
        rw [counts pfn, if_neg different]
      · have positive : 0 < callLimit := by decide
        refine ⟨Nat.le_refl _, positive, ?_⟩
        rw [counts page, if_pos rfl]
        rfl

theorem Counted.get {s : CountedState frames} {free : List DyadicBlock}
    (counted : Counted s free) {page order gets frees : Nat}
    (held : s.ledger page = .held order gets frees)
    (bound : gets + 1 < callLimit) :
    ∃ s', countedStep s (.get page) = some s' ∧ CountedInvariant s' := by
  have member := mem_heldEntries held
  obtain ⟨z', run, write⟩ :=
    getPage_spec (counted.consistent.head_lt member) s.zone
  have run : getPage page s.zone = some z' := run
  have next : (s.ledger page).afterGet = .held order (gets + 1) frees := by
    rw [held]
    rfl
  refine ⟨⟨z', Function.update s.ledger page (s.ledger page).afterGet⟩,
    by simp [countedStep, run], free, ?_, ?_⟩
  · rw [heldEntries_update_same]
    · exact counted.consistent.of_count write
    · intro other
      rw [next]
      simp [heldEntries, held]
  · apply counts_update counted.counts write.count_others
    have matches_ := counted.counts page
    rw [held] at matches_
    obtain ⟨more, _, count⟩ := matches_
    rw [next, write.count_self]
    refine ⟨by omega, bound, ?_⟩
    change (s.zone.fields page).count + 1 = _
    rw [count, counter_succ more]

/-- The counter of a held page tells which free is the last one. -/
theorem Counted.last_iff {s : CountedState frames} {free : List DyadicBlock}
    (counted : Counted s free) {page order gets frees : Nat}
    (held : s.ledger page = .held order gets frees) :
    (s.zone.fields page).count - 1 = 0 ↔ gets < frees + 1 := by
  have matches_ := counted.counts page
  rw [held] at matches_
  obtain ⟨more, bound, count⟩ := matches_
  rw [count, counter_pred more]
  constructor
  · intro zero
    by_contra fewer
    have positive : 0 < gets - frees := by omega
    exact counter_ne_zero positive (by omega) zero
  · intro last
    have none_left : gets - frees = 0 := by omega
    rw [none_left]
    rfl

/-- The free that exceeds the gets releases the block. -/
theorem Counted.release {s : CountedState frames} {free : List DyadicBlock}
    (counted : Counted s free) {page order gets frees : Nat}
    (held : s.ledger page = .held order gets frees)
    (last : gets < frees + 1) :
    ∃ z', freePages page order s.zone = some z' ∧
      Counted ⟨z', Function.update s.ledger page (s.ledger page).afterFree⟩
        (release free (Entry.block (page, order))) := by
  have member := mem_heldEntries held
  have next : (s.ledger page).afterFree = .released 0 := by
    rw [held]
    exact if_pos last
  obtain ⟨z', run, consistent', counts⟩ :=
    counted.consistent.release member ((counted.last_iff held).mpr last)
  refine ⟨z', run, ?_, ?_⟩
  · rw [next, heldEntries_update_released held]
    exact consistent'
  · apply counts_update counted.counts
    · intro pfn different
      rw [counts pfn, if_neg different]
    · have positive : 0 < callLimit := by decide
      rw [next, counts page, if_pos rfl]
      exact ⟨counted.consistent.head_lt member, positive, rfl⟩

/-- A free that leaves references only lowers the counter. -/
theorem Counted.keep {s : CountedState frames} {free : List DyadicBlock}
    (counted : Counted s free) {page order gets frees : Nat}
    (held : s.ledger page = .held order gets frees)
    (more : frees + 1 ≤ gets) :
    ∃ z', freePages page order s.zone = some z' ∧
      PlainWrite s.zone z'
        (withCount s.zone page ((s.zone.fields page).count - 1))
        s.zone.nrFree ∧
      Counted ⟨z', Function.update s.ledger page (s.ledger page).afterFree⟩
        free := by
  have member := mem_heldEntries held
  have next : (s.ledger page).afterFree = .held order gets (frees + 1) := by
    rw [held]
    exact if_neg (by omega)
  have shared : (s.zone.fields page).count - 1 ≠ 0 := by
    intro zero
    have last := (counted.last_iff held).mp zero
    omega
  have bound : page < frames := counted.consistent.head_lt member
  obtain ⟨z', run, write⟩ := freePages_keep bound shared order
  refine ⟨z', run, write, ?_, ?_⟩
  · rw [heldEntries_update_same]
    · exact counted.consistent.of_count write
    · intro other
      rw [next]
      simp [heldEntries, held]
  · apply counts_update counted.counts write.count_others
    have matches_ := counted.counts page
    rw [held] at matches_
    obtain ⟨enough, limit, count⟩ := matches_
    rw [next, write.count_self, count, counter_pred enough]
    refine ⟨more, limit, ?_⟩
    congr 1
    omega

/-- A stale free only lowers the counter further. -/
theorem Counted.stale {s : CountedState frames} {free : List DyadicBlock}
    (counted : Counted s free) {page stale : Nat}
    (released : s.ledger page = .released stale)
    (bound : stale + 1 < callLimit) (order : Nat) :
    ∃ z', freePages page order s.zone = some z' ∧
      PlainWrite s.zone z'
        (withCount s.zone page ((s.zone.fields page).count - 1))
        s.zone.nrFree ∧
      Counted ⟨z', Function.update s.ledger page (s.ledger page).afterFree⟩
        free := by
  have matches_ := counted.counts page
  rw [released] at matches_
  obtain ⟨inside, _, count⟩ := matches_
  have next : (s.ledger page).afterFree = .released (stale + 1) := by
    rw [released]
    rfl
  have shared : (s.zone.fields page).count - 1 ≠ 0 := by
    rw [count]
    exact stale_ne_zero bound
  obtain ⟨z', run, write⟩ := freePages_keep inside shared order
  refine ⟨z', run, write, ?_, ?_⟩
  · rw [heldEntries_update_same]
    · exact counted.consistent.of_count write
    · intro other
      rw [next]
      simp [heldEntries, released]
  · apply counts_update counted.counts write.count_others
    rw [next, write.count_self, count, stale_pred]
    exact ⟨inside, bound, rfl⟩

theorem countedMachine_keeps (frames : Nat) :
    (countedMachine frames).Keeps CountedInvariant := by
  intro s op invariant legal
  obtain ⟨free, counted⟩ := invariant
  cases op with
  | alloc order => exact counted.alloc order
  | get page =>
      obtain ⟨order, gets, frees, held, bound⟩ := legal
      exact counted.get held bound
  | free page order =>
      have step : ∀ {z' : Zone frames},
          freePages page order s.zone = some z' →
          countedStep s (.free page order) =
            some ⟨z',
              Function.update s.ledger page (s.ledger page).afterFree⟩ := by
        intro z' run
        simp [countedStep, run]
      rcases legal with ⟨gets, frees, held⟩ | ⟨stale, released, bound⟩
      · by_cases last : gets < frees + 1
        · obtain ⟨z', run, counted'⟩ := counted.release held last
          exact ⟨_, step run, _, counted'⟩
        · obtain ⟨z', run, _, counted'⟩ := counted.keep held (by omega)
          exact ⟨_, step run, _, counted'⟩
      · obtain ⟨z', run, _, counted'⟩ := counted.stale released bound order
        exact ⟨_, step run, _, counted'⟩

/-! ## What the calls do to the lists -/

/-- No list, counter, mark or private field differs. -/
structure SameLists (z z' : Zone frames) : Prop where
  link : z'.link = z.link
  nrFree : z'.nrFree = z.nrFree
  mark : ∀ page, (z'.fields page).mapcount = (z.fields page).mapcount
  priv : ∀ page, (z'.fields page).priv = (z.fields page).priv

theorem PlainWrite.sameLists {z z' : Zone frames} {page : Nat}
    {value : BitVec 32}
    (write : PlainWrite z z' (withCount z page value) z.nrFree) :
    SameLists z z' := by
  refine ⟨write.link, write.nrFree, ?_, ?_⟩
  · intro pfn
    rw [write.fields]
    by_cases same : pfn = page <;> simp [withCount, same]
  · intro pfn
    rw [write.fields]
    by_cases same : pfn = page <;> simp [withCount, same]

/-- A held block is in no free list.  It enters them with the first free that
exceeds the gets, and later frees of its head change nothing. -/
theorem reference_counting (frames : Nat) {s : CountedState frames}
    (run : (countedMachine frames).Reaches (bootCounted frames) s) :
    (∀ page order gets frees, s.ledger page = .held order gets frees →
      (∀ entry, entry ∈ s.zone.freeBlocks → ∀ other,
        Entry.Holds (page, order) other → ¬ entry.Holds other) ∧
      ∃ z', freePages page order s.zone = some z' ∧
        (frees + 1 ≤ gets → SameLists s.zone z') ∧
        (gets < frees + 1 → ∀ other, Entry.Holds (page, order) other →
          ∃ entry, entry ∈ z'.freeBlocks ∧ entry.Holds other)) ∧
    (∀ page stale order, s.ledger page = .released stale →
      stale + 1 < callLimit →
      ∃ z', freePages page order s.zone = some z' ∧
        SameLists s.zone z') := by
  obtain ⟨free, counted⟩ :=
    (countedMachine_keeps frames).reaches (bootCounted_invariant frames) run
  constructor
  · intro page order gets frees held
    have member := mem_heldEntries held
    constructor
    · intro entry listed other inBlock inEntry
      apply counted.consistent.tiling.apart _ member other inBlock
      rw [mem_freePositions_freeBlocks counted.consistent.represents
        counted.consistent.valid]
      exact ⟨entry, listed, inEntry⟩
    · by_cases last : gets < frees + 1
      · obtain ⟨z', freeRun, counted'⟩ := counted.release held last
        refine ⟨z', freeRun, fun more => by omega, ?_⟩
        intro _ other inBlock
        rw [← mem_freePositions_freeBlocks counted'.consistent.represents
            counted'.consistent.valid,
          release_positions counted.consistent.valid
            (counted.consistent.tiling.taken member)
            (counted.consistent.tiling.block_inside member)
            (counted.consistent.tiling.bounded _ member),
          Entry.block_covers_iff (counted.consistent.tiling.aligned _ member)]
        exact Or.inr inBlock
      · obtain ⟨z', freeRun, write, _⟩ := counted.keep held (by omega)
        exact ⟨z', freeRun, fun _ => write.sameLists,
          fun exceeds => absurd exceeds last⟩
  · intro page stale order released bound
    obtain ⟨z', freeRun, write, _⟩ := counted.stale released bound order
    exact ⟨z', freeRun, write.sameLists⟩

theorem reference_counting_five :
    ∃ s : CountedState 5, s.ledger 0 = .released 0 ∧
      ∃ z', freePages 0 3 s.zone = some z' ∧ SameLists s.zone z' := by
  have answer :
      ((countedStep (bootCounted 5) (.alloc 1)).bind fun s =>
        (countedStep s (.free 0 1)).map fun t => (s.ledger 0, t.ledger 0)) =
        some (.held 1 0 0, .released 0) := by
    decide +kernel
  obtain ⟨s, allocRun, rest⟩ := Option.bind_eq_some_iff.mp answer
  obtain ⟨t, freeRun, ledgers⟩ := Option.map_eq_some_iff.mp rest
  have held : s.ledger 0 = .held 1 0 0 := congrArg Prod.fst ledgers
  have released : t.ledger 0 = .released 0 := congrArg Prod.snd ledgers
  have first : (countedMachine 5).Reaches (bootCounted 5) s :=
    @Machine.Reaches.step _ _ _ _ _ _ (.alloc 1) Machine.Reaches.start
      trivial allocRun
  have legal : (countedMachine 5).legal s (.free 0 1) :=
    Or.inl ⟨0, 0, held⟩
  have run : (countedMachine 5).Reaches (bootCounted 5) t :=
    first.step legal freeRun
  exact ⟨t, released,
    (reference_counting 5 run).2 0 0 3 released (by decide)⟩

end Hlos.Mm
