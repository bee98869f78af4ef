import Mathlib.Data.List.Pairwise

/-!
# Runs of bytes that follow one another

An extent is a run of bytes.  A list of extents is consecutive when every one
starts where the one before it ends.  Extents in any order, which may overlap,
form a chain between two addresses when one can go from the first address to the
second inside of them, in whole units.
-/

namespace Hlos.Lib

structure Extent where
  start : Nat
  size : Nat
deriving DecidableEq, Repr

namespace Extent

/-- The first byte behind the extent. -/
def stop (extent : Extent) : Nat := extent.start + extent.size

def Holds (extent : Extent) (addr : Nat) : Prop :=
  extent.start ≤ addr ∧ addr < extent.stop

/-- No byte belongs to both. -/
def Disjoint (left right : Extent) : Prop :=
  ∀ addr, left.Holds addr → ¬ right.Holds addr

/-- The extent is made of whole units. -/
def Aligned (unit : Nat) (extent : Extent) : Prop :=
  extent.start % unit = 0 ∧ extent.size % unit = 0

theorem aligned_mk {unit start size : Nat} (startUnits : start % unit = 0)
    (sizeUnits : size % unit = 0) : Aligned unit ⟨start, size⟩ :=
  ⟨startUnits, sizeUnits⟩

/-- The extents fill the bytes from `first` up to `last` in order. -/
def Consecutive : List Extent → (first last : Nat) → Prop
  | [], first, last => first = last
  | extent :: rest, first, last =>
      extent.start = first ∧ Consecutive rest extent.stop last

theorem disjoint_of_stop_le {left right : Extent}
    (before : left.stop ≤ right.start) : Disjoint left right := by
  intro addr inLeft inRight
  have below := inLeft.2
  have above := inRight.1
  omega

theorem Consecutive.first_le_start {extents : List Extent} {first last : Nat}
    (consecutive : Consecutive extents first last) {extent : Extent}
    (member : extent ∈ extents) : first ≤ extent.start := by
  induction extents generalizing first with
  | nil => cases member
  | cons head rest inductionRest =>
      have start := consecutive.1
      cases member with
      | head => omega
      | tail _ restMember =>
          have behind := inductionRest consecutive.2 restMember
          unfold stop at behind
          omega

theorem Consecutive.pairwise_disjoint {extents : List Extent}
    {first last : Nat} (consecutive : Consecutive extents first last) :
    extents.Pairwise Disjoint := by
  induction extents generalizing first with
  | nil => exact List.Pairwise.nil
  | cons head rest inductionRest =>
      apply List.Pairwise.cons
      · intro other member
        exact disjoint_of_stop_le (consecutive.2.first_le_start member)
      · exact inductionRest consecutive.2

/-! ## Chains -/

/-- The unit at `addr` lies in one of the extents. -/
def CoversUnit (extents : List Extent) (unit addr : Nat) : Prop :=
  ∃ extent, extent ∈ extents ∧ extent.start ≤ addr ∧
    addr + unit ≤ extent.stop

/-- The extents lead to `last`: one that holds the unit at the address leads as
many units on as it has, and others lead on from there. -/
inductive Chain (extents : List Extent) (unit last : Nat) : Nat → Prop where
  | arrived {addr : Nat} : last ≤ addr → Chain extents unit last addr
  | step {addr : Nat} {extent : Extent} : extent ∈ extents →
      extent.start ≤ addr → addr + unit ≤ extent.stop →
      Chain extents unit last (addr + unit * ((extent.stop - addr) / unit)) →
      Chain extents unit last addr

section Chains

variable {extents : List Extent} {unit last addr : Nat}

/-- An extent covers the units that it leads over. -/
theorem coversUnit_of_lt {extent : Extent} (member : extent ∈ extents)
    (begins : extent.start ≤ addr) {index : Nat}
    (inside : index < (extent.stop - addr) / unit) :
    CoversUnit extents unit (addr + unit * index) := by
  have whole : unit * ((extent.stop - addr) / unit) ≤ extent.stop - addr :=
    Nat.mul_div_le _ _
  have next : unit * (index + 1) ≤ unit * ((extent.stop - addr) / unit) :=
    Nat.mul_le_mul_left unit inside
  rw [Nat.mul_add, Nat.mul_one] at next
  refine ⟨extent, member, by omega, ?_⟩
  by_cases empty : unit = 0
  · simp only [empty, Nat.div_zero] at inside
    omega
  · omega

theorem Chain.covers (chain : Chain extents unit last addr) :
    ∀ index, addr + unit * index < last →
      CoversUnit extents unit (addr + unit * index) := by
  induction chain with
  | arrived reached =>
      intro index below
      omega
  | @step addr extent member begins _ _ inductionHypothesis =>
      intro index below
      by_cases inside : index < (extent.stop - addr) / unit
      · exact coversUnit_of_lt member begins inside
      · -- the unit lies in the rest of the chain
        obtain ⟨more, rfl⟩ := Nat.exists_eq_add_of_le (Nat.le_of_not_lt inside)
        rw [Nat.mul_add, ← Nat.add_assoc] at below ⊢
        exact inductionHypothesis more below

/-- Units are covered one by one exactly when the extents form a chain. -/
theorem chain_iff (positive : 0 < unit) :
    Chain extents unit last addr ↔
      ∀ index, addr + unit * index < last →
        CoversUnit extents unit (addr + unit * index) := by
  constructor
  · exact Chain.covers
  · intro covers
    induction left : last - addr using Nat.strongRecOn
      generalizing addr with
    | _ left inductionHypothesis =>
        by_cases reached : last ≤ addr
        · exact Chain.arrived reached
        · obtain ⟨extent, member, begins, holds⟩ := covers 0 (by omega)
          have some_ : 0 < (extent.stop - addr) / unit :=
            Nat.div_pos (by omega) positive
          have further := Nat.mul_pos positive some_
          refine Chain.step member begins holds
            (inductionHypothesis _ (by omega) ?_ rfl)
          intro index below
          rw [Nat.add_assoc, ← Nat.mul_add] at below ⊢
          exact covers _ below

end Chains

end Extent

end Hlos.Lib
