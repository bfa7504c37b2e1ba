import Guided.Constraint.Traversal
import Guided.Program.State
import Guided.Request.Scheduler
import Guided.Text.Bytes

/-!
# Evaluating a constraint

A constraint is evaluated against a state. The result is pending as long as anything it
depends on is undecided: a variable that has not been started, or a nested run without
a published result. Nodes used in several places are evaluated once. All inputs of a
node are evaluated, also when one of them already decides the result, so that all nested
runs are asked for.

## Main definitions

* `Eval`: pending, or a value.
* `PatternLeaf.follow`: the state a leaf retains, from the one it retained before.
* `Constraint.evaluate`, `Constraint.forward`.
* `Constraint.follow`: evaluation after one more token.
-/
namespace Guided

/-- The result of evaluating a node. -/
inductive Eval where
  | pending
  | value (v : Value)

namespace Eval

/-- Whether the result is open. -/
def isPending : Eval → Bool
  | pending => true
  | value _ => false

/-- The truth of a result, if it is not open. -/
def truth? : Eval → Option Bool
  | pending => none
  | value v => some v.truthy

/-- A truth value as a result. -/
def ofBool (b : Bool) : Eval := value (.bool b)

@[simp] theorem truth?_ofBool (b : Bool) : (ofBool b).truth? = some b := rfl

end Eval

namespace PatternLeaf

/-- The state a leaf retains for a text when it retains nothing yet. -/
def followFresh (leaf : PatternLeaf) (text : String) : PatternState :=
  ⟨text.utf8ByteSize, leaf.regex.residual text⟩

/-- The state a leaf retains for a text. A state retained before is continued if the
text has a character boundary where that state ends; otherwise the text is followed from
its beginning. -/
def follow (leaf : PatternLeaf) (retained : Option PatternState) (text : String) :
    PatternState :=
  match retained with
  | none => leaf.followFresh text
  | some st =>
      match dropBytes? st.consumed text.toList with
      | none => leaf.followFresh text
      | some rest => ⟨text.utf8ByteSize, st.residual.bind (Pattern.residual · rest)⟩

/-- Whether the text of a variable that is still being generated can go on. A retained
state answers if it ends where the text ends. -/
def viable (leaf : PatternLeaf) (retained : Option PatternState) (text : String) : Bool :=
  match retained with
  | some st =>
      if st.consumed = text.utf8ByteSize then st.residual.isSome
      else (leaf.followFresh text).residual.isSome
  | none => (leaf.followFresh text).residual.isSome

/-- The result of a leaf: a finished text has to match as a whole, an unfinished one has
to be able to go on. -/
def evaluate (leaf : PatternLeaf) (id : NodeId) (state : ProgramState) : Except Error Eval :=
  match state.find? leaf.variableName with
  | none => .ok .pending
  | some v =>
      if v.finished then (leaf.regex.fullMatch v.text).map Eval.ofBool
      else .ok (.ofBool (leaf.viable (state.pattern? id) v.text))

end PatternLeaf

/-- The result of a call, once it has been published. -/
def callResult (id : NodeId) (state : ProgramState) : Eval :=
  match state.results.get? ⟨id, state.prompt⟩ with
  | some v => .value v
  | none => .pending

/-- Ask for the nested run of a call. -/
def InlineCall.register {W : Type} (call : InlineCall W) (id : NodeId) (state : ProgramState)
    (scheduler : Scheduler W) : Scheduler W :=
  scheduler.register ⟨id, state.prompt⟩ call.query call.captures

/-- The result of a node whose inputs have been decided, from their truth. A negation
negates its first input. -/
def Operator.apply {W : Type} (operator : Operator W) (id : NodeId) (state : ProgramState)
    (truths : List Bool) (scheduler : Scheduler W) : Except Error Eval × Scheduler W :=
  match operator with
  | .all => (.ok (.ofBool (truths.all (·))), scheduler)
  | .any => (.ok (.ofBool (truths.any (·))), scheduler)
  | .negation => (.ok (.ofBool !(truths.headD false)), scheduler)
  | .reference name =>
      match state.find? name with
      | some v => (.ok (.value (.string v.text)), scheduler)
      | none => (.ok .pending, scheduler)
  | .constant v => (.ok (.value v), scheduler)
  | .pattern leaf => (leaf.evaluate id state, scheduler)
  | .call inlineCall =>
      (.ok (callResult id state), inlineCall.register id state scheduler)

/-- What evaluation carries along: the results of nodes already evaluated, and the
scheduler. -/
structure Session (W : Type) where
  memo : List (NodeId × Eval)
  scheduler : Scheduler W

/-- Keep the result of a node, unless it is an error. -/
def Session.remember {W : Type} (memo : List (NodeId × Eval)) (id : NodeId)
    (result : Except Error Eval × Scheduler W) : Except Error Eval × Session W :=
  match result with
  | (.ok eval, scheduler) => (.ok eval, ⟨(id, eval) :: memo, scheduler⟩)
  | (.error e, scheduler) => (.error e, ⟨memo, scheduler⟩)

mutual

/-- Evaluate a node, after its inputs. -/
def Constraint.evaluate {W : Type} (state : ProgramState) :
    Constraint W → Session W → Except Error Eval × Session W
  | .node id operator inputs, session =>
      match session.memo.lookup id with
      | some eval => (.ok eval, session)
      | none =>
          match Constraint.evaluateAll state inputs session with
          | (.error e, session) => (.error e, session)
          | (.ok evals, session) =>
              Session.remember session.memo id <|
                if evals.any Eval.isPending then (.ok .pending, session.scheduler)
                else operator.apply id state (evals.filterMap Eval.truth?) session.scheduler

/-- Evaluate nodes from left to right up to the first error. -/
def Constraint.evaluateAll {W : Type} (state : ProgramState) :
    List (Constraint W) → Session W → Except Error (List Eval) × Session W
  | [], session => (.ok [], session)
  | c :: rest, session =>
      match Constraint.evaluate state c session with
      | (.error e, session) => (.error e, session)
      | (.ok eval, session) =>
          match Constraint.evaluateAll state rest session with
          | (.error e, session) => (.error e, session)
          | (.ok evals, session) => (.ok (eval :: evals), session)

end

namespace Constraint

variable {W : Type}

/-- Evaluate a constraint. Nested runs asked for on the way are registered, also when
evaluation ends in an error. -/
def forward (root : Constraint W) (state : ProgramState) (scheduler : Scheduler W) :
    Except Error Eval × Scheduler W :=
  match root.evaluate state ⟨[], scheduler⟩ with
  | (result, session) => (result, session.scheduler)

/-- Advance the leaves on a variable to its present text, each from what it retained in
an earlier state. -/
def advance (leaves : List (Constraint W)) (earlier : ProgramState) (variableName text : String)
    (state : ProgramState) : ProgramState :=
  leaves.foldl
    (fun state c =>
      match c.pattern? with
      | some leaf =>
          if leaf.variableName = variableName then
            state.setPattern c.id (leaf.follow (earlier.pattern? c.id) text)
          else state
      | none => state)
    state

/-- The state after one more token of a variable, its leaves advanced. -/
def following (root : Constraint W) (state : ProgramState) (variableName token : String) :
    ProgramState :=
  let next := state.withToken variableName token
  let text := ((next.find? variableName).getD Variable.fresh).text
  advance root.walk state variableName text next

/-- Evaluate a constraint after one more token of a variable. -/
def follow (root : Constraint W) (state : ProgramState) (variableName token : String)
    (scheduler : Scheduler W) : Except Error (Eval × ProgramState) × Scheduler W :=
  let next := root.following state variableName token
  match root.forward next scheduler with
  | (.ok eval, scheduler) => (.ok (eval, next), scheduler)
  | (.error e, scheduler) => (.error e, scheduler)

end Constraint

end Guided
