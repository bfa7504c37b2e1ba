import Guided.Text.Quoted
import Guided.Value.Printer

/-!
# Outlines of values

An outline names the kind of every part of a value. It is what messages show of a value,
and it tells apart values that have no JSON form.

## Main definitions

* `Value.outline`, `outlineOfFields`.
-/
namespace Guided

/-- Parts separated by commas, between two brackets. -/
def bracketed (opening closing : Char) (parts : List (List Char)) : List Char :=
  opening :: (parts.intersperse [',', ' ']).flatten ++ [closing]

mutual

/-- The outline of a value. -/
def Value.outlineChars : Value → List Char
  | .null => "Null".toList
  | .bool true => "Bool(true)".toList
  | .bool false => "Bool(false)".toList
  | .number n => "Number(".toList ++ n.chars ++ [')']
  | .string s => "String(".toList ++ quotedChars s.toList ++ [')']
  | .array items => "Array ".toList ++ bracketed '[' ']' (Value.outlineItems items)
  | .object fields =>
      "Object ".toList ++ bracketed '\x7b' '\x7d' (Value.outlineFields fields)

/-- The outlines of all items. -/
def Value.outlineItems : List Value → List (List Char)
  | [] => []
  | item :: rest => item.outlineChars :: Value.outlineItems rest

/-- The outlines of all fields, names quoted. -/
def Value.outlineFields : List (String × Value) → List (List Char)
  | [] => []
  | (name, value) :: rest =>
      (quotedChars name.toList ++ ':' :: ' ' :: value.outlineChars) :: Value.outlineFields rest

end

/-- The outline of a value. -/
def Value.outline (v : Value) : String := String.ofList v.outlineChars

/-- The outline of named values. -/
def outlineOfFields (fields : Fields Value) : String :=
  String.ofList (bracketed '\x7b' '\x7d' (Value.outlineFields fields))

end Guided
