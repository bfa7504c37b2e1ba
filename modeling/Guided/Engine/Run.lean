import Guided.Constraint.Postprocess
import Guided.Engine.Settle
import Guided.Stream.Event

/-!
# Running an engine

An engine takes one variable through a stream of tokens. Each token that has a text is
tried: if the constraint can still be satisfied with it, it is kept, and otherwise it is
dropped and generation stops. Once generation has stopped, the variable is marked as
finished and the constraint decides whether its whole text is accepted.

## Main definitions

* `Engine`, `EngineEvent`, `EngineOutcome`.
* `Engine.judge`, `Engine.take`, `Engine.generate`, `Engine.finish`: the parts of a run.
* `Engine.run`: a whole run with the events it emits.
* `Engine.discard`: forgetting the nested runs of a branch.
-/
namespace Guided

/-- A constraint on one variable, and how far to go: at most so many tokens, and at most
so many rounds for one verdict. -/
structure Engine (W : Type) where
  root : Constraint W
  variableName : String
  maxTokens : Nat
  maxRounds : Nat

/-- What an engine reports. -/
inductive EngineEvent where
  | token (streamId token : Nat) (text : String)
  | finish (streamId : Nat) (reason : FinishReason)
  | error (streamId : Nat) (message : String)
deriving DecidableEq, Repr

/-- How a run ends. Final values are there only for an accepted text. -/
structure EngineOutcome where
  state : ProgramState
  reason : FinishReason
  accepted : Bool
  values : Option (Fields Value)

/-- What changes while an engine consumes tokens: the state, the number of tokens kept,
the stream of the last event taken, and the events emitted. -/
structure Progress where
  state : ProgramState
  generated : Nat
  streamId : Nat
  emitted : List EngineEvent

/-- The default number of tokens of a run. -/
def defaultMaxTokens : Nat := 256

/-- The default number of rounds for one verdict. -/
def defaultMaxRounds : Nat := 8

/-- Whether a verdict is definitely false. -/
def Eval.isFalse (eval : Eval) : Bool := eval.truth? == some false

namespace Engine

variable {W : Type}

/-- Evaluate the constraint and settle the verdict. -/
def judge (e : Engine W) (state : ProgramState) (b : Bench W) :
    Except Error (Eval × ProgramState) × Bench W :=
  match e.root.forwardOn state b with
  | (.error err, b) => (.error err, b)
  | (.ok eval, b) => e.root.settle e.variableName e.maxRounds eval state b

/-- Judge the state after one more piece of text. -/
def tryText (e : Engine W) (state : ProgramState) (text : String) (b : Bench W) :
    Except Error (Eval × ProgramState) × Bench W :=
  match e.root.followOn state e.variableName text b with
  | (.error err, b) => (.error err, b)
  | (.ok (eval, next), b) => e.root.settle e.variableName e.maxRounds eval next b

/-- The progress once a piece of text has been kept. -/
def keep (p : Progress) (event : TokenEvent) (text : String) (state : ProgramState) : Progress :=
  { p with
    state
    generated := p.generated + 1
    emitted := p.emitted ++ [.token event.streamId event.token text] }

/-- Take one event. The answer is the reason to stop, if there is one: a text that cannot
be kept, or the reason that the event itself gives. -/
def take (e : Engine W) (event : TokenEvent) (p : Progress) (b : Bench W) :
    Except Error (Option FinishReason) × Progress × Bench W :=
  let p := { p with streamId := event.streamId }
  match event.text.getD "" with
  | "" => (.ok event.finishReason, p, b)
  | text =>
      match e.tryText p.state text b with
      | (.error err, b) => (.error err, p, b)
      | (.ok (eval, next), b) =>
          if eval.isFalse then (.ok (some .violated), p, b)
          else (.ok event.finishReason, keep p event text next, b)

/-- Take events until there is a reason to stop: enough tokens, no more events, or one
that an event gives. -/
def consume (e : Engine W) : List TokenEvent → Progress → Bench W →
    Except Error FinishReason × Progress × Bench W
  | [], p, b => (.ok (if e.maxTokens ≤ p.generated then .length else .cancelled), p, b)
  | event :: rest, p, b =>
      if e.maxTokens ≤ p.generated then (.ok .length, p, b)
      else
        match e.take event p b with
        | (.error err, p, b) => (.error err, p, b)
        | (.ok (some reason), p, b) => (.ok reason, p, b)
        | (.ok none, p, b) => e.consume rest p b

/-- Start the variable and generate. If the constraint is false from the start, no event
is taken. -/
def generate (e : Engine W) (state : ProgramState) (events : List TokenEvent) (b : Bench W) :
    Except Error FinishReason × Progress × Bench W :=
  let state := state.beginVariable e.variableName
  match e.judge state b with
  | (.error err, b) => (.error err, ⟨state, 0, 0, []⟩, b)
  | (.ok (eval, state), b) =>
      if eval.isFalse then (.ok .violated, ⟨state, 0, 0, []⟩, b)
      else e.consume events ⟨state, 0, 0, []⟩ b

/-- Mark the variable as finished, judge its whole text and take its final value. -/
def finish (e : Engine W) (state : ProgramState) (reason : FinishReason) (b : Bench W) :
    Except Error EngineOutcome × Bench W :=
  match e.judge (state.finishVariable e.variableName) b with
  | (.error err, b) => (.error err, b)
  | (.ok (eval, state), b) =>
      if eval.truth?.getD false then
        match e.root.finalValues state [e.variableName] b.scheduler with
        | (.error err, scheduler) => (.error err, b.withScheduler scheduler)
        | (.ok values, scheduler) =>
            (.ok ⟨state, reason, true, some values⟩, b.withScheduler scheduler)
      else (.ok ⟨state, reason, false, none⟩, b)

/-- A run: generation, then its end. The last event reports how it ended. -/
def run (e : Engine W) (state : ProgramState) (events : List TokenEvent) (b : Bench W) :
    Except Error EngineOutcome × List EngineEvent × Bench W :=
  match e.generate state events b with
  | (.error err, p, b) => (.error err, p.emitted ++ [.error p.streamId err.message], b)
  | (.ok reason, p, b) =>
      match e.finish p.state reason b with
      | (.error err, b) => (.error err, p.emitted ++ [.error p.streamId err.message], b)
      | (.ok outcome, b) =>
          (.ok outcome, p.emitted ++ [.finish p.streamId outcome.reason], b)

/-- Forget the nested runs that were asked for under a state. -/
def discard (e : Engine W) (state : ProgramState) (b : Bench W) : Nat × Bench W :=
  let (count, scheduler) := b.scheduler.forget (e.root.callKeys state.prompt)
  (count, b.withScheduler scheduler)

end Engine

end Guided
