import Guided.Error
import Guided.Value.Basic

/-!
# Outcomes of nested runs

A promise is resolved at most once. Published results are kept in a table that is only
ever added to, so that evaluating a constraint twice sees the same results.

## Main definitions

* `Resolution`, `Promise.resolve`, `Promise.resolveOnce`.
* `ResultTable`, `ResultTable.publish`.
-/
namespace Guided

/-- How a nested run ended. -/
inductive Resolution where
  | ready (v : Value)
  | failed (reason : String)

/-- A slot for the resolution of one nested run. -/
abbrev Promise := Option Resolution

/-- Resolve a promise that has not been resolved before. -/
def Promise.resolve (p : Promise) (r : Resolution) : Except Error Promise :=
  match p with
  | none => .ok (some r)
  | some _ => .error (.request .resolvedTwice)

/-- The promise once a resolution has been tried: if it is the second one, it is refused, and
the promise stays as it is. -/
def Promise.resolveOnce (p : Promise) (r : Resolution) : Promise := (p.resolve r).toOption.getD p

/-- Whatever is tried, the promise is resolved then, and keeps its first resolution. -/
@[simp] theorem Promise.resolveOnce_eq (p : Promise) (r : Resolution) :
    p.resolveOnce r = some (p.getD r) := by
  cases p <;> rfl

/-- Published results by nested run. -/
abbrev ResultTable := List (CallKey × Value)

namespace ResultTable

/-- The result of a nested run. -/
def get? (t : ResultTable) (key : CallKey) : Option Value := t.lookup key

/-- Whether a nested run has a result. -/
def contains (t : ResultTable) (key : CallKey) : Bool := (t.get? key).isSome

/-- Add the result of a nested run that has none yet. -/
def publish (t : ResultTable) (key : CallKey) (v : Value) : Except Error ResultTable :=
  if t.contains key then .error (.request (.alreadyPublished key)) else .ok (t ++ [(key, v)])

end ResultTable

end Guided
