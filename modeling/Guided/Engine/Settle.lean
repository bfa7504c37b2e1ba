import Guided.Constraint.Evaluation

/-!
# Settling a verdict

As long as the verdict on a state is pending, nested runs are worked on in rounds. After
every round the results that have become ready are published into the state and the
constraint is evaluated again.

## Main definitions

* `Constraint.forwardOn`, `Constraint.followOn`: evaluation with the bench as a whole.
* `publishReady`: publish what is ready.
* `Constraint.settle`: rounds until the verdict is not pending.
-/
namespace Guided

/-- The bench with another scheduler. -/
def Bench.withScheduler {W : Type} (b : Bench W) (scheduler : Scheduler W) : Bench W :=
  { b with scheduler }

/-- A state with results published into it: how many were published now, and how many
are outstanding. -/
structure Publication where
  state : ProgramState
  published : Nat
  outstanding : Nat

/-- Publish the results of runs that have become ready. A run that failed ends this with
its reason. -/
def publishReady {W : Type} (scheduler : Scheduler W) :
    List CallKey → Publication → Except Error Publication
  | [], p => .ok p
  | key :: rest, p =>
      if p.state.results.contains key then publishReady scheduler rest p
      else
        match scheduler.resolution? key with
        | some (.ready v) =>
            match p.state.withResult key v with
            | .error e => .error e
            | .ok state =>
                publishReady scheduler rest { p with state, published := p.published + 1 }
        | some (.failed reason) => .error (.request (.nestedRunFailed key reason))
        | none => publishReady scheduler rest { p with outstanding := p.outstanding + 1 }

namespace Constraint

variable {W : Type}

/-- Evaluate a constraint with the scheduler of a bench. -/
def forwardOn (root : Constraint W) (state : ProgramState) (b : Bench W) :
    Except Error Eval × Bench W :=
  match root.forward state b.scheduler with
  | (result, scheduler) => (result, b.withScheduler scheduler)

/-- Evaluate a constraint after one more token with the scheduler of a bench. -/
def followOn (root : Constraint W) (state : ProgramState) (variableName token : String)
    (b : Bench W) : Except Error (Eval × ProgramState) × Bench W :=
  match root.follow state variableName token b.scheduler with
  | (result, scheduler) => (result, b.withScheduler scheduler)

/-- One round: work on nested runs and publish what is ready. A round that publishes
nothing while nothing is outstanding cannot lead any further. -/
def settleRound (root : Constraint W) (variableName : String) (state : ProgramState)
    (b : Bench W) : Except Error ProgramState × Bench W :=
  let b := b.runPending.2
  match publishReady b.scheduler (root.callKeys state.prompt) ⟨state, 0, 0⟩ with
  | .error e => (.error e, b)
  | .ok p =>
      if p.published = 0 ∧ p.outstanding = 0 then
        (.error (.unresolved (.nothingOutstanding variableName)), b)
      else (.ok p.state, b)

/-- Rounds until the verdict is not pending, with at most `left` more of `rounds`. -/
def settleWithin (root : Constraint W) (variableName : String) (rounds : Nat) :
    (left : Nat) → Eval → ProgramState → Bench W →
      Except Error (Eval × ProgramState) × Bench W
  | _, .value v, state, b => (.ok (.value v, state), b)
  | 0, .pending, _, b => (.error (.unresolved (.stillPending variableName rounds)), b)
  | left + 1, .pending, state, b =>
      match root.settleRound variableName state b with
      | (.error e, b) => (.error e, b)
      | (.ok state, b) =>
          match root.forwardOn state b with
          | (.error e, b) => (.error e, b)
          | (.ok eval, b) => settleWithin root variableName rounds left eval state b

/-- Rounds until the verdict is not pending. -/
def settle (root : Constraint W) (variableName : String) (rounds : Nat) (eval : Eval)
    (state : ProgramState) (b : Bench W) : Except Error (Eval × ProgramState) × Bench W :=
  settleWithin root variableName rounds rounds eval state b

end Constraint

end Guided
