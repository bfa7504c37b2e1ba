import Guided.Query.Basic

/-!
# Queries with a fixed script

A scripted query needs no model behind it: its outputs follow from its bindings and from
how often it has been invoked. Every invocation is entered in a journal, also one that
fails or is cut off.

## Main definitions

* `Journal`: all invocations so far.
* `Script`, `Script.play`, `Query.scripted`.
-/
namespace Guided

/-- An invocation: the name of the query and its bindings. -/
structure JournalEntry where
  query : String
  bindings : Fields Value

/-- All invocations so far, in order. -/
abbrev Journal := List JournalEntry

/-- How often a query has been invoked. -/
def Journal.invocations (journal : Journal) (query : String) : Nat :=
  (journal.filter (·.query == query)).length

/-- What a scripted query does: yield fixed outputs, its bindings, the number of its
invocations or one of its bindings, fail, or be cut off. -/
inductive Script where
  | fixed (outputs : Fields Value)
  | echo
  | count
  | pick (param output : String)
  | fail (message : String)
  | cutOff

/-- The outcome of an invocation, which is the `invocation`-th of its query. -/
def Script.play (bindings : Fields Value) (invocation : Nat) : Script → Outcome
  | fixed outputs => .output ⟨outputs⟩
  | echo => .output ⟨bindings⟩
  | count => .output ⟨[(resultName, .number (.integer invocation))]⟩
  | pick param output => .output ⟨[(output, (bindings.find? param).getD .null)]⟩
  | fail message => .failed (.internal (.queryFailed message))
  | cutOff => .cutOff

/-- A query that follows a script. -/
def Query.scripted (name : String) (params : List String) (context : Option FunctionContext)
    (source : String) (script : Script) : Query Journal where
  name := name
  params := params
  context := context
  source := source
  invoke bindings journal :=
    (script.play bindings (journal.invocations name + 1), journal ++ [⟨name, bindings⟩])

end Guided
