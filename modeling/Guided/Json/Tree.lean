/-!
# JSON as written

The tree of a JSON text before it is given a meaning: fields in the order written with
repetitions kept, numbers as their digits, and strings that may turn out to hold half of
a surrogate pair. What is only skipped is never looked at more closely than this.

## Main definitions

* `NumberText`: the parts of a written number.
* `JsonTree`: the tree.
-/
namespace Guided

/-- A number as written. Absent parts of the text are empty lists or `none`. -/
structure NumberText where
  negative : Bool
  whole : List Char
  fraction : Option (List Char)
  exponent : Option (Bool × List Char)
deriving DecidableEq, Repr

/-- Whether a number is written without fraction and exponent. -/
def NumberText.isInteger (t : NumberText) : Bool := t.fraction.isNone && t.exponent.isNone

/-- A JSON text as written. A string is `none` if an escape in it names a surrogate that
has no partner. -/
inductive JsonTree where
  | null
  | bool (b : Bool)
  | number (text : NumberText)
  | string (s : Option String)
  | array (items : List JsonTree)
  | object (fields : List (Option String × JsonTree))

namespace JsonTree

/-- The text of a string all of whose characters are whole. -/
def asString? : JsonTree → Option String
  | string s => s
  | _ => none

/-- The items of an array. -/
def asArray? : JsonTree → Option (List JsonTree)
  | array items => some items
  | _ => none

/-- Whether this is the null value. -/
def isNull : JsonTree → Bool
  | null => true
  | _ => false

end JsonTree

end Guided
