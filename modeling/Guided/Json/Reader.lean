import Guided.Json.Tree
import Guided.Text.Hex

/-!
# Reading JSON

A reader for the whole JSON grammar and nothing else. Every part takes the characters
still to come and returns the rest. A string is read piece by piece before its surrogates
are paired. The three readers for nested values call each other with fuel; each character
costs at most two units of it.

## Main definitions

* `JsonTree.readPieces`, `JsonTree.joinPieces`: the two halves of reading a string.
* `JsonTree.readString`, `JsonTree.readNumber`, `JsonTree.readValue`: the parts.
* `JsonTree.parse`: a whole text.
-/
namespace Guided

namespace JsonTree

/-- Blanks between tokens. -/
def isBlank (c : Char) : Bool := c = ' ' || c = '\n' || c = '\t' || c = '\r'

/-- The rest after leading blanks. -/
def skipBlanks (s : List Char) : List Char := s.dropWhile isBlank

/-- The number that four hexadecimal digits write. -/
def hexUnit? (a b c d : Char) : Option Nat := do
  let a ← hexDigit? a
  let b ← hexDigit? b
  let c ← hexDigit? c
  let d ← hexDigit? d
  return ((a * 16 + b) * 16 + c) * 16 + d

/-- The character that a letter after a backslash stands for. -/
def escapeOf? (c : Char) : Option Char :=
  if c = '"' then some '"'
  else if c = '\\' then some '\\'
  else if c = '/' then some '/'
  else if c = 'b' then some '\x08'
  else if c = 'f' then some '\x0c'
  else if c = 'n' then some '\n'
  else if c = 'r' then some '\r'
  else if c = 't' then some '\t'
  else none

/-- Whether a unit is the first half of a surrogate pair. -/
def isHighSurrogate (n : Nat) : Bool := 0xD800 ≤ n && n < 0xDC00

/-- Whether a unit is the second half of a surrogate pair. -/
def isLowSurrogate (n : Nat) : Bool := 0xDC00 ≤ n && n < 0xE000

/-- What stands for one character of a string, or for half of one: a character, which may
have been written as an escape, or a unit in hexadecimal digits. -/
inductive StringPiece where
  | char (c : Char)
  | unit (n : Nat)
deriving DecidableEq, Repr

/-- The rest of a string after its opening quote, piece by piece. -/
def readPieces : List Char → Option (List StringPiece × List Char)
  | [] => none
  | c :: rest =>
      if c = '"' then some ([], rest)
      else if c = '\\' then
        match rest with
        | 'u' :: a :: b :: c :: d :: rest => do
            let unit ← hexUnit? a b c d
            let (pieces, rest) ← readPieces rest
            return (.unit unit :: pieces, rest)
        | e :: rest => do
            let c ← escapeOf? e
            let (pieces, rest) ← readPieces rest
            return (.char c :: pieces, rest)
        | [] => none
      else if c.toNat < 0x20 then none
      else do
        let (pieces, rest) ← readPieces rest
        return (.char c :: pieces, rest)

/-- The character of a surrogate pair. -/
def pairChar (high low : Nat) : Char :=
  Char.ofNat (0x10000 + (high - 0xD800) * 0x400 + (low - 0xDC00))

/-- The text of pieces. A surrogate that is not part of a pair leaves them without one. -/
def joinPieces : List StringPiece → Option (List Char)
  | [] => some []
  | .char c :: rest => (joinPieces rest).map (c :: ·)
  | .unit n :: rest =>
      if isHighSurrogate n then
        match rest with
        | .unit m :: rest =>
            if isLowSurrogate m then (joinPieces rest).map (pairChar n m :: ·) else none
        | _ => none
      else if isLowSurrogate n then none
      else (joinPieces rest).map (Char.ofNat n :: ·)

/-- The rest of a string after its opening quote. A string without a text is read to its
end all the same. -/
def readString (s : List Char) : Option (Option (List Char) × List Char) :=
  (readPieces s).map fun (pieces, rest) => (joinPieces pieces, rest)

/-- A run of digits that is not empty. -/
def readDigits (s : List Char) : Option (List Char × List Char) :=
  let digits := s.takeWhile Char.isDigit
  if digits.isEmpty then none else some (digits, s.dropWhile Char.isDigit)

/-- The digits before the point; only a lone zero may begin with zero. -/
def readWhole (s : List Char) : Option (List Char × List Char) :=
  match s with
  | '0' :: rest =>
      match rest.head? with
      | some c => if c.isDigit then none else some (['0'], rest)
      | none => some (['0'], rest)
  | s => readDigits s

/-- The part after a point, if there is one. -/
def readFraction (s : List Char) : Option (Option (List Char) × List Char) :=
  match s with
  | '.' :: rest => do
      let (digits, rest) ← readDigits rest
      return (some digits, rest)
  | s => some (none, s)

/-- The exponent, if there is one; its sign is `true` when negative. -/
def readExponent (s : List Char) : Option (Option (Bool × List Char) × List Char) :=
  match s with
  | c :: rest =>
      if c = 'e' ∨ c = 'E' then do
        let (negative, rest) := match rest with
          | '-' :: rest => (true, rest)
          | '+' :: rest => (false, rest)
          | rest => (false, rest)
        let (digits, rest) ← readDigits rest
        return (some (negative, digits), rest)
      else some (none, s)
  | [] => some (none, s)

/-- A number. -/
def readNumber (s : List Char) : Option (NumberText × List Char) := do
  let (negative, rest) := match s with
    | '-' :: rest => (true, rest)
    | rest => (false, rest)
  let (whole, rest) ← readWhole rest
  let (fraction, rest) ← readFraction rest
  let (exponent, rest) ← readExponent rest
  return (⟨negative, whole, fraction, exponent⟩, rest)

/-- The rest after a given word. -/
def dropWord (word : List Char) (s : List Char) : Option (List Char) :=
  if word.isPrefixOf s then some (s.drop word.length) else none

mutual

/-- A value, leading blanks skipped. -/
def readValue : (fuel : Nat) → List Char → Option (JsonTree × List Char)
  | 0, _ => none
  | fuel + 1, s =>
      match skipBlanks s with
      | [] => none
      | c :: rest =>
          if c = '"' then do
            let (text, rest) ← readString rest
            return (.string (text.map String.ofList), rest)
          else if c = '[' then
            match skipBlanks rest with
            | ']' :: rest => some (.array [], rest)
            | rest => do
                let (items, rest) ← readItems fuel rest
                return (.array items, rest)
          else if c = '{' then
            match skipBlanks rest with
            | '}' :: rest => some (.object [], rest)
            | rest => do
                let (fields, rest) ← readFields fuel rest
                return (.object fields, rest)
          else if c = 'n' then (dropWord "null".toList (c :: rest)).map (.null, ·)
          else if c = 't' then (dropWord "true".toList (c :: rest)).map (.bool true, ·)
          else if c = 'f' then (dropWord "false".toList (c :: rest)).map (.bool false, ·)
          else do
            let (text, rest) ← readNumber (c :: rest)
            return (.number text, rest)

/-- The items of an array up to its closing bracket, of which there is at least one. -/
def readItems : (fuel : Nat) → List Char → Option (List JsonTree × List Char)
  | 0, _ => none
  | fuel + 1, s => do
      let (item, rest) ← readValue fuel s
      match skipBlanks rest with
      | ']' :: rest => return ([item], rest)
      | ',' :: rest =>
          let (items, rest) ← readItems fuel rest
          return (item :: items, rest)
      | _ => none

/-- The fields of an object up to its closing brace, of which there is at least one. -/
def readFields : (fuel : Nat) → List Char → Option (List (Option String × JsonTree) × List Char)
  | 0, _ => none
  | fuel + 1, s =>
      match skipBlanks s with
      | '"' :: rest => do
          let (name, rest) ← readString rest
          match skipBlanks rest with
          | ':' :: rest =>
              let (value, rest) ← readValue fuel rest
              let field := (name.map String.ofList, value)
              match skipBlanks rest with
              | '}' :: rest => return ([field], rest)
              | ',' :: rest =>
                  let (fields, rest) ← readFields fuel rest
                  return (field :: fields, rest)
              | _ => none
          | _ => none
      | _ => none

end

/-- The tree of a text that holds one value and nothing more. -/
def ofChars (s : List Char) : Option JsonTree :=
  match readValue (2 * s.length + 2) s with
  | some (tree, rest) => if (skipBlanks rest).isEmpty then some tree else none
  | none => none

/-- The tree of a text. -/
def parse (text : String) : Option JsonTree := ofChars text.toList

end JsonTree

end Guided
