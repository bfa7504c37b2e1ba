import Guided.Decimal.Binary
import Guided.Fields

/-!
# Values

The values that flow through constraints and out of nested queries: numbers that stay
integers when written as such, texts, lists, and records with named fields.

## Main definitions

* `Number`, `Value`.
* `Value.truthy`: the truth of a value.
* `Value.Ordered`: the fields of every record are in order.
-/
namespace Guided

/-- A number is an integer or a binary fraction; a fraction that happens to be whole
stays a fraction. -/
inductive Number where
  | integer (n : Int)
  | fraction (x : Float64)
deriving DecidableEq, Repr

/-- Whether a number is zero, of either sign. -/
def Number.isZero : Number → Bool
  | .integer n => n == 0
  | .fraction x => x.code == 0

/-- A value. The fields of a record stand in increasing order of names. -/
inductive Value where
  | null
  | bool (b : Bool)
  | number (n : Number)
  | string (s : String)
  | array (items : List Value)
  | object (fields : List (String × Value))
deriving Inhabited

/-- False, null, zero and whatever is empty are false; all else is true. -/
def Value.truthy : Value → Bool
  | .null => false
  | .bool b => b
  | .number n => !n.isZero
  | .string s => !s.isEmpty
  | .array items => !items.isEmpty
  | .object fields => !fields.isEmpty

@[simp] theorem Value.truthy_bool (b : Bool) : (Value.bool b).truthy = b := rfl

mutual

/-- Whether the fields of every record in the value are in strict order. -/
def Value.Ordered : Value → Prop
  | .null | .bool _ | .number _ | .string _ => True
  | .array items => Value.OrderedItems items
  | .object fields => Fields.Sorted fields ∧ Value.OrderedFields fields

/-- Whether every item is ordered. -/
def Value.OrderedItems : List Value → Prop
  | [] => True
  | item :: rest => item.Ordered ∧ Value.OrderedItems rest

/-- Whether the value of every field is ordered. -/
def Value.OrderedFields : List (String × Value) → Prop
  | [] => True
  | (_, value) :: rest => value.Ordered ∧ Value.OrderedFields rest

end

end Guided
