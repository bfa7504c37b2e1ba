import Guided.Constraint.Evaluation

/-!
# Final values

Once generation has stopped, a variable gets its final value from the first node, in the
order of the walk, that decides it: the text that matches a pattern, or the result of a
nested run. A variable that no node decides keeps its text.

## Main definitions

* `Constraint.postprocess`: the value that one node gives.
* `Constraint.finalValues`: the values of several variables.
-/
namespace Guided

/-- The value that a pattern leaf gives: the text of its variable, if all of it matches. -/
def PatternLeaf.postprocess (leaf : PatternLeaf) (state : ProgramState) : Except Error Value :=
  match state.find? leaf.variableName with
  | none => .error (.unresolved (.unknownVariable leaf.variableName))
  | some v =>
      match leaf.regex.fullMatch v.text with
      | .error e => .error e
      | .ok true => .ok (.string v.text)
      | .ok false => .error (.violated v.text leaf.variableName leaf.regex.source)

/-- The value that a call gives: its published result. -/
def InlineCall.postprocess {W : Type} (call : InlineCall W) (id : NodeId)
    (state : ProgramState) : Except Error Value :=
  match callResult id state with
  | .value v => .ok v
  | .pending =>
      .error (.unresolved (.callResult call.query.name call.variableName ⟨id, state.prompt⟩))

namespace Constraint

variable {W : Type}

/-- The value that a node gives to its variable. Calls are asked for again. -/
def postprocess (c : Constraint W) (state : ProgramState) (scheduler : Scheduler W) :
    Except Error Value × Scheduler W :=
  match c.operator with
  | .pattern leaf => (leaf.postprocess state, scheduler)
  | .call inlineCall =>
      (inlineCall.postprocess c.id state, inlineCall.register c.id state scheduler)
  | _ => (.error (.internal (.notAnOwner c.id)), scheduler)

/-- The nodes that decide a variable, in the order of the walk. -/
def owners (root : Constraint W) (variableName : String) : List (Constraint W) :=
  root.walk.filter (·.owns variableName)

/-- The final value of a variable, if it has been started or a node decides it. -/
def finalValue (root : Constraint W) (state : ProgramState) (variableName : String)
    (scheduler : Scheduler W) : Except Error (Option Value) × Scheduler W :=
  match (root.owners variableName).head? with
  | some c =>
      match c.postprocess state scheduler with
      | (.ok v, scheduler) => (.ok (some v), scheduler)
      | (.error e, scheduler) => (.error e, scheduler)
  | none => (.ok ((state.find? variableName).map fun v => .string v.text), scheduler)

/-- The final values of variables, up to the first error. -/
def finalValues (root : Constraint W) (state : ProgramState) :
    List String → Scheduler W → Except Error (Fields Value) × Scheduler W
  | [], scheduler => (.ok [], scheduler)
  | name :: rest, scheduler =>
      match root.finalValue state name scheduler with
      | (.error e, scheduler) => (.error e, scheduler)
      | (.ok v, scheduler) =>
          match finalValues root state rest scheduler with
          | (.error e, scheduler) => (.error e, scheduler)
          | (.ok fields, scheduler) =>
              let fields := match v with
                | some v => fields.insert name v
                | none => fields
              (.ok fields, scheduler)

end Constraint

end Guided
