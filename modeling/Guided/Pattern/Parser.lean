import Guided.Decimal.Word
import Guided.Pattern.Basic
import Guided.Pattern.Escape
import Guided.Pattern.Fault
import Guided.Text.Hex

/-!
# Reading a pattern

Every reader takes the characters still to come and returns what it read together
with the rest. One function descends into groups and walks along a sequence; it takes
fuel, and the length of the text is always enough, since each call has at least one
character less before it.

## Main definitions

* `readEscape`, `readClass`, `readBounds`, `readQuantified`: the parts of an atom.
* `readBranches`: a sequence of alternatives up to a closing parenthesis or the end.
* `Pattern.ofChars`: a whole text.
-/
namespace Guided

/-- The longest accepted text, in characters. -/
def maxPatternLength : Nat := 8192

/-- How deep groups may be nested. -/
def maxGroupDepth : Nat := 256

/-- The number that two characters write in base sixteen. A plus sign before a single
digit is part of the number. -/
def hexPair? (a b : Char) : Option Nat :=
  match hexDigit? b with
  | none => none
  | some low => if a = '+' then some low else (hexDigit? a).map (· * 16 + low)

/-- The two characters after a hexadecimal escape, which together must take two bytes. -/
def readHex : List Char → Except Refusal (Char × List Char)
  | [] => refuse .incompleteHex []
  | [a] => if a.utf8Size = 2 then refuse .badHex [a] else refuse .incompleteHex [a]
  | a :: b :: rest =>
      if a.utf8Size + b.utf8Size ≠ 2 then refuse .incompleteHex (a :: b :: rest)
      else
        match hexPair? a b with
        | some code => .ok (Char.ofNat code, rest)
        | none => refuse .badHex (a :: b :: rest)

/-- The escape after a backslash. Letters and digits without a meaning of their own are
left out, so that they can never change their meaning; any other character stands for
itself. -/
def readEscape : List Char → Except Refusal (Char × List Char)
  | [] => refuse .trailingBackslash []
  | c :: rest =>
      if c = 'x' then readHex rest
      else
        match controlOfLetter c with
        | some control => .ok (control, rest)
        | none =>
            if ['d', 'D', 'w', 'W', 's', 'S'].contains c then leaveOut (.shorthand c) (c :: rest)
            else if '1' ≤ c ∧ c ≤ '9' then leaveOut (.backreference c) (c :: rest)
            else if ['b', 'B', 'A', 'Z', 'z'].contains c then leaveOut (.anchor c) (c :: rest)
            else if c.isAlphanum then leaveOut (.escape c) (c :: rest)
            else .ok (c, rest)

/-- One character inside a class, escaped or not. -/
def readClassChar : List Char → Except Refusal (Char × List Char)
  | [] => refuse .unterminatedClass []
  | c :: rest => if c = '\\' then readEscape rest else .ok (c, rest)

/-- Whether a hyphen here joins two ends of a range: before the closing bracket it is a
character like any other. -/
def startsRange : List Char → Bool
  | '-' :: c :: _ => c != ']'
  | _ => false

/-- One item of a class: a character or a range. -/
def readClassItem (s : List Char) : Except Refusal (ClassItem × List Char) := do
  let (low, rest) ← readClassChar s
  if startsRange rest then
    let (high, rest) ← readClassChar (rest.drop 1)
    if high < low then refuse (.reversedRange low high) rest
    else .ok (.range low high, rest)
  else .ok (.single low, rest)

/-- The items of a class up to its closing bracket; as the first item the bracket is a
character like any other. -/
def readClassItems : (fuel : Nat) → (first : Bool) → List Char →
    Except Refusal (List ClassItem × List Char)
  | _, _, [] => refuse .unterminatedClass []
  | 0, _, s => refuse .unterminatedClass s
  | fuel + 1, first, c :: rest =>
      if c = ']' ∧ first = false then .ok ([], rest)
      else if c = '[' ∧ rest.head? = some ':' then leaveOut .namedClass (c :: rest)
      else do
        let (item, rest) ← readClassItem (c :: rest)
        let (items, rest) ← readClassItems fuel false rest
        return (item :: items, rest)

/-- A class after its opening bracket. -/
def readClass (s : List Char) : Except Refusal (Node × List Char) :=
  if s.head? = some '^' then leaveOut .negatedClass s
  else do
    let (items, rest) ← readClassItems s.length true s
    return (.oneOf items, rest)

/-- A run of decimal digits, which may be empty. -/
def takeDigits (s : List Char) : List Char × List Char :=
  (s.takeWhile Char.isDigit, s.dropWhile Char.isDigit)

/-- The number that a run of digits writes. -/
def numberOfDigits (digits : List Char) : Nat :=
  digits.foldl (fun n c => n * 10 + (c.toNat - 48)) 0

/-- The lower and the upper bound of a repetition. -/
abbrev Bounds := Nat × Option Nat

/-- The bounds that two runs of digits write, with `rest` after the closing brace. A
missing lower bound is zero; without a comma both bounds are the same. -/
def boundsOfDigits (low : List Char) (comma : Bool) (high rest : List Char) :
    Except Refusal Bounds :=
  let min := numberOfDigits low
  if word32Bound ≤ min then refuse .countTooLarge rest
  else if comma = false then .ok (min, some min)
  else if high.isEmpty then .ok (min, none)
  else
    let max := numberOfDigits high
    if word32Bound ≤ max then refuse .countTooLarge rest
    else if max < min then refuse .reversedBounds rest
    else .ok (min, some max)

/-- Bounds in braces, after the opening one. Braces that hold no bounds are no
quantifier; the opening one is then a character like any other. -/
def readBraces (s : List Char) : Except Refusal (Option (Bounds × List Char)) :=
  let (low, rest) := takeDigits s
  let comma := rest.head? = some ','
  let (high, rest) := if comma then takeDigits (rest.drop 1) else ([], rest)
  match rest with
  | '}' :: rest =>
      if low.isEmpty && high.isEmpty then .ok none
      else do
        let bounds ← boundsOfDigits low comma high rest
        return some (bounds, rest)
  | _ => .ok none

/-- A quantifier, if one stands here. -/
def readBounds : List Char → Except Refusal (Option (Bounds × List Char))
  | '*' :: rest => .ok (some ((0, none), rest))
  | '+' :: rest => .ok (some ((1, none), rest))
  | '?' :: rest => .ok (some ((0, some 1), rest))
  | '{' :: rest => readBraces rest
  | _ => .ok none

/-- What may not follow a quantifier: a second one, or a mark that would make it lazy or
possessive. -/
def checkAfterBounds : List Char → Except Refusal Unit
  | '?' :: rest => leaveOut .lazyQuantifier ('?' :: rest)
  | '+' :: rest => leaveOut .possessiveQuantifier ('+' :: rest)
  | '*' :: rest => refuse .multipleRepeat ('*' :: rest)
  | '{' :: rest => do
      match ← readBraces rest with
      | some (_, rest) => refuse .multipleRepeat rest
      | none => .ok ()
  | _ => .ok ()

/-- An atom with the quantifier that follows it, if one does. -/
def readQuantified (atom : Node) (s : List Char) : Except Refusal (Node × List Char) := do
  match ← readBounds s with
  | none => return (atom, s)
  | some ((min, max), rest) =>
      if atom = .endAnchor then refuse .nothingToRepeat rest
      else do
        checkAfterBounds rest
        return (.repetition min max [atom], rest)

/-- An atom other than a group, whose first character is `c`. -/
def readAtom (c : Char) (rest : List Char) : Except Refusal (Node × List Char) :=
  if c = '[' then readClass rest
  else if c = '\\' then do
    let (c, rest) ← readEscape rest
    return (.literal c, rest)
  else if c = '$' then .ok (.endAnchor, rest)
  else if c = '^' then leaveOut .startAnchor (c :: rest)
  else if c = '.' then leaveOut .wildcard (c :: rest)
  else if c = '*' ∨ c = '+' ∨ c = '?' then refuse .nothingToRepeat (c :: rest)
  else .ok (.literal c, rest)

/-- What follows an opening parenthesis when so many levels of groups are left: nothing, or
the mark of a group without a number, which is a group all the same. -/
def openGroup (levels : Nat) (s : List Char) : Except Refusal (List Char) :=
  if s.head? = some '?' ∧ (s.drop 1).head? ≠ some ':' then leaveOut .extensionGroup s
  else
    let rest := if s.head? = some '?' then s.drop 2 else s
    if levels = 0 then refuse .tooDeep rest else .ok rest

/-- The pattern that alternatives make: a single one needs no alternation. -/
def Pattern.ofBranches (branch : Pattern) (more : List Pattern) : Pattern :=
  if more.isEmpty then branch else [.alternation (branch :: more)]

/-- The alternatives up to a closing parenthesis or the end, the first one apart.
`levels` counts the levels of groups that may still be opened. -/
def readBranches : (fuel levels : Nat) → List Char →
    Except Refusal ((Pattern × List Pattern) × List Char)
  | 0, _, s => .ok (([], []), s)
  | _, _, [] => .ok (([], []), [])
  | fuel + 1, levels, c :: rest =>
      if c = ')' then .ok (([], []), c :: rest)
      else if c = '|' then do
        let ((branch, more), rest) ← readBranches fuel levels rest
        return (([], branch :: more), rest)
      else do
        let (atom, rest) ←
          if c = '(' then do
            let inside ← openGroup levels rest
            let ((branch, more), rest) ← readBranches fuel (levels - 1) inside
            match rest with
            | ')' :: rest => .ok (.group (Pattern.ofBranches branch more), rest)
            | rest => refuse .missingClose rest
          else readAtom c rest
        let (node, rest) ← readQuantified atom rest
        let ((branch, more), rest) ← readBranches fuel levels rest
        return ((node :: branch, more), rest)

/-- The pattern that a list of characters spells. -/
def Pattern.ofChars (s : List Char) : Except Refusal Pattern :=
  if maxPatternLength < s.length then refuse (.tooLong s.length maxPatternLength) s
  else do
    let ((branch, more), rest) ← readBranches s.length maxGroupDepth s
    if rest.isEmpty then return Pattern.ofBranches branch more
    else refuse .unbalancedClose rest

end Guided
