import Guided.Value.Basic

/-!
# Values with fields in any order

Arguments may come from maps that list their entries in any order. They become values by
putting the fields of every record in order, at every depth; of entries with the same name
the last one counts.

## Main definitions

* `Value.arranged`: the value with all fields in order.
-/
namespace Guided

namespace Value

mutual

/-- The value with the fields of every record in order. -/
def arranged : Value → Value
  | .null => .null
  | .bool b => .bool b
  | .number n => .number n
  | .string s => .string s
  | .array items => .array (arrangedItems items)
  | .object fields => .object (Fields.ofList (arrangedFields fields))

/-- The items, each with its fields in order. -/
def arrangedItems : List Value → List Value
  | [] => []
  | item :: rest => item.arranged :: arrangedItems rest

/-- The fields as listed, the value of each with its fields in order. -/
def arrangedFields : List (String × Value) → List (String × Value)
  | [] => []
  | (name, value) :: rest => (name, value.arranged) :: arrangedFields rest

end

theorem arrangedItems_eq_map (items : List Value) : arrangedItems items = items.map arranged := by
  induction items with
  | nil => rfl
  | cons item items ih => rw [arrangedItems, ih, List.map_cons]

theorem arrangedFields_eq_map (fields : List (String × Value)) :
    arrangedFields fields = fields.map fun e => (e.1, e.2.arranged) := by
  induction fields with
  | nil => rfl
  | cons e fields ih => rw [arrangedFields, ih, List.map_cons]

end Value

end Guided
