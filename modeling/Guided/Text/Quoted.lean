import Guided.Text.Hex
import Guided.Text.Printable

/-!
# Quoted text

A text in double quotes, as messages show it. Quotes and backslashes are escaped, common
controls by a letter, and all other characters that show nothing by their code.

## Main definitions

* `quotedChars`, `quoted`.
-/
namespace Guided

/-- A character inside a quoted text. -/
def quotedChar (c : Char) : List Char :=
  if c = '\x00' then ['\\', '0']
  else if c = '\t' then ['\\', 't']
  else if c = '\r' then ['\\', 'r']
  else if c = '\n' then ['\\', 'n']
  else if c = '"' then ['\\', '"']
  else if c = '\\' then ['\\', '\\']
  else if isPrintable c then [c]
  else ['\\', 'u', '\x7b'] ++ hexChars c.toNat ++ ['\x7d']

/-- A text in quotes. -/
def quotedChars (s : List Char) : List Char := '"' :: s.flatMap quotedChar ++ ['"']

/-- A text in quotes. -/
def quoted (s : String) : String := String.ofList (quotedChars s.toList)

end Guided
