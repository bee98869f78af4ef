/-!
# Machines with legal operations and faulting steps

A client issues operations one after the other.  `legal` says which operation
it may issue in which state, and `step` has no result when an operation runs
into a fault.  The rules below reduce statements about all runs to statements
about one step.
-/

namespace Hlos.Lib

structure Machine (State Op : Type) where
  legal : State → Op → Prop
  step : State → Op → Option State

namespace Machine

variable {State Op : Type} {machine : Machine State Op}

/-- The states of all runs from `start`. -/
inductive Reaches (machine : Machine State Op) (start : State) :
    State → Prop where
  | start : Reaches machine start start
  | step {state next : State} {op : Op} :
      Reaches machine start state → machine.legal state op →
      machine.step state op = some next → Reaches machine start next

/-- A legal operation does not fault and leads to `inv` again. -/
def Keeps (machine : Machine State Op) (inv : State → Prop) : Prop :=
  ∀ state op, inv state → machine.legal state op →
    ∃ next, machine.step state op = some next ∧ inv next

/-- The same clients, restricted to operations that meet a condition. -/
def restrict (machine : Machine State Op) (condition : State → Op → Prop) :
    Machine State Op where
  legal state op := machine.legal state op ∧ condition state op
  step := machine.step

theorem Keeps.next {inv : State → Prop} (keeps : machine.Keeps inv)
    {state next : State} {op : Op} (holds : inv state)
    (legal : machine.legal state op)
    (run : machine.step state op = some next) : inv next := by
  obtain ⟨other, otherRun, otherHolds⟩ := keeps state op holds legal
  rw [run] at otherRun
  rw [Option.some.inj otherRun]
  exact otherHolds

/-- An invariant that is kept holds in every run. -/
theorem Keeps.reaches {inv : State → Prop} (keeps : machine.Keeps inv)
    {start state : State} (initial : inv start)
    (run : machine.Reaches start state) : inv state := by
  induction run with
  | start => exact initial
  | step _ legal stepRun inductionHypothesis =>
      exact keeps.next inductionHypothesis legal stepRun

/-- No run faults. -/
theorem Keeps.progress {inv : State → Prop} (keeps : machine.Keeps inv)
    {start state : State} (initial : inv start)
    (run : machine.Reaches start state) {op : Op}
    (legal : machine.legal state op) :
    ∃ next, machine.step state op = some next := by
  obtain ⟨next, stepRun, _⟩ :=
    keeps state op (keeps.reaches initial run) legal
  exact ⟨next, stepRun⟩

/-- The runs along a list of operations. -/
inductive Runs (machine : Machine State Op) :
    State → List Op → State → Prop where
  | done {state : State} : Runs machine state [] state
  | step {state next last : State} {op : Op} {ops : List Op} :
      machine.legal state op → machine.step state op = some next →
      Runs machine next ops last → Runs machine state (op :: ops) last

/-- A run from a reachable state ends in one. -/
theorem Reaches.run {start state last : State} {ops : List Op}
    (reached : machine.Reaches start state)
    (run : machine.Runs state ops last) : machine.Reaches start last := by
  induction run with
  | done => exact reached
  | step legal stepRun _ inductionHypothesis =>
      exact inductionHypothesis (reached.step legal stepRun)

/-- What every operation of a kind preserves, a run of such operations
preserves. -/
theorem Keeps.along {inv : State → Prop} (keeps : machine.Keeps inv)
    (kind : Op → Prop) {holds : State → Prop}
    (kept : ∀ state op next, inv state → machine.legal state op →
      machine.step state op = some next → kind op → holds state → holds next)
    {state last : State} {ops : List Op} (run : machine.Runs state ops last)
    (initial : inv state) (first : holds state)
    (allKind : ∀ op, op ∈ ops → kind op) : holds last := by
  induction run with
  | done => exact first
  | step legal stepRun _ inductionHypothesis =>
      apply inductionHypothesis (keeps.next initial legal stepRun)
      · exact kept _ _ _ initial legal stepRun
          (allKind _ List.mem_cons_self) first
      · exact fun op member => allKind op (List.mem_cons_of_mem _ member)

end Machine

end Hlos.Lib
