import Guided.Error
import Guided.Fields
import Guided.Text.Blank
import Guided.Value.Basic

/-!
# Nested queries

A query declares parameters and, when it is invoked with values for them, ends in an
outcome. What it does on the way, such as keeping a journal or calling a model, happens
in a world that is passed through every invocation.

## Main definitions

* `Scope`: names and their values, innermost first.
* `QueryOutput`, `QueryOutput.result`: what a run yields and what its caller sees of it.
* `Query`, `Outcome`.
-/
namespace Guided

/-- A chain of scopes, innermost first. -/
abbrev Scope := List (Fields Value)

/-- The value of a name in the innermost scope that has one. -/
def Scope.resolve (scope : Scope) (name : String) : Option Value :=
  scope.findSome? (·.find? name)

@[simp] theorem Scope.resolve_nil (name : String) : Scope.resolve [] name = none := rfl

theorem Scope.resolve_cons (symbols : Fields Value) (outer : Scope) (name : String) :
    Scope.resolve (symbols :: outer) name =
      (symbols.find? name).or (Scope.resolve outer name) := by
  cases h : symbols.find? name <;> simp [Scope.resolve, h]

/-- What a query that is a function knows: the names of its positional arguments and the
scope it was defined in. -/
structure FunctionContext where
  argNames : List String
  scope : Scope

/-- The named outputs of one run. -/
structure QueryOutput where
  outputs : Fields Value

/-- The output that holds the result of a run, if it is there. -/
def resultName : String := "RESULT"

/-- What a caller sees of a run: its result without surrounding blanks if it is a text,
otherwise its only output, otherwise all outputs as a record. -/
def QueryOutput.result (o : QueryOutput) : Value :=
  match o.outputs.find? resultName with
  | some (.string s) => .string (String.ofList (trimBlanks s.toList))
  | some v => v
  | none =>
      match o.outputs with
      | [(_, v)] => v
      | outputs => .object outputs

/-- How an invocation ends. One that is cut off neither yields nor fails. -/
inductive Outcome where
  | output (o : QueryOutput)
  | failed (e : Error)
  | cutOff

/-- A query in a world. -/
structure Query (W : Type) where
  name : String
  params : List String
  context : Option FunctionContext
  source : String
  invoke : Fields Value → W → Outcome × W

end Guided
