import Guided.Decimal.Shortest
import Guided.Text.Hex
import Guided.Value.Basic

/-!
# Values as compact JSON

A value is written without blanks, the fields of a record in their order. In a string
the quote, the backslash and control characters are escaped, the common ones by a
letter; everything else stands as it is.

## Main definitions

* `jsonStringChars`, `Number.chars`, `Value.chars`, `Value.text`.
-/
namespace Guided

/-- A character inside a JSON string. -/
def jsonEscaped (c : Char) : List Char :=
  if c = '"' then ['\\', '"']
  else if c = '\\' then ['\\', '\\']
  else if c = '\x08' then ['\\', 'b']
  else if c = '\x0c' then ['\\', 'f']
  else if c = '\n' then ['\\', 'n']
  else if c = '\r' then ['\\', 'r']
  else if c = '\t' then ['\\', 't']
  else if c.toNat < 0x20 then
    ['\\', 'u', '0', '0', hexDigitChar (c.toNat / 16), hexDigitChar (c.toNat % 16)]
  else [c]

/-- A text as a JSON string, quotes included. -/
def jsonStringChars (s : List Char) : List Char := '"' :: s.flatMap jsonEscaped ++ ['"']

/-- An integer in decimal digits. -/
def intChars (n : Int) : List Char :=
  (if n < 0 then ['-'] else []) ++ Nat.toDigits 10 n.natAbs

/-- The text of a number. -/
def Number.chars : Number → List Char
  | .integer n => intChars n
  | .fraction x => x.chars

mutual

/-- A value as JSON. -/
def Value.chars : Value → List Char
  | .null => ['n', 'u', 'l', 'l']
  | .bool true => ['t', 'r', 'u', 'e']
  | .bool false => ['f', 'a', 'l', 's', 'e']
  | .number n => n.chars
  | .string s => jsonStringChars s.toList
  | .array items => '[' :: Value.itemChars items ++ [']']
  | .object fields => '{' :: Value.fieldChars fields ++ ['}']

/-- Items separated by commas. -/
def Value.itemChars : List Value → List Char
  | [] => []
  | [item] => item.chars
  | item :: more :: rest => item.chars ++ ',' :: Value.itemChars (more :: rest)

/-- Fields separated by commas. -/
def Value.fieldChars : List (String × Value) → List Char
  | [] => []
  | [(name, value)] => jsonStringChars name.toList ++ ':' :: value.chars
  | (name, value) :: more :: rest =>
      jsonStringChars name.toList ++ ':' :: value.chars ++ ',' :: Value.fieldChars (more :: rest)

end

/-- A value as compact JSON. -/
def Value.text (v : Value) : String := String.ofList v.chars

end Guided
