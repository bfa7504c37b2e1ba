/-!
# Why a text is not a pattern

A text is refused for a fault of form or for a construct that the grammar leaves out.
The grammar leaves out what cannot be followed one character at a time; such a
construct is refused and never approximated.

## Main definitions

* `PatternFault`, `Construct`: the two kinds of cause.
* `Refusal`: a cause with the part of the text that was still unread.
-/
namespace Guided

/-- A fault of form. -/
inductive PatternFault where
  | tooLong (length limit : Nat)
  | unbalancedClose
  | nothingToRepeat
  | tooDeep
  | missingClose
  | trailingBackslash
  | incompleteHex
  | badHex
  | unterminatedClass
  | reversedRange (low high : Char)
  | multipleRepeat
  | countTooLarge
  | reversedBounds
deriving DecidableEq, Repr

/-- A construct outside the grammar. -/
inductive Construct where
  | startAnchor
  | wildcard
  | extensionGroup
  | shorthand (letter : Char)
  | backreference (digit : Char)
  | anchor (letter : Char)
  | escape (letter : Char)
  | negatedClass
  | namedClass
  | lazyQuantifier
  | possessiveQuantifier
deriving DecidableEq, Repr

/-- The wording of a fault. -/
def PatternFault.message : PatternFault → String
  | .tooLong length limit =>
      "pattern too long (" ++ toString length ++ " chars, max " ++ toString limit ++ ")"
  | .unbalancedClose => "unbalanced ')'"
  | .nothingToRepeat => "nothing to repeat"
  | .tooDeep => "groups nested too deeply"
  | .missingClose => "missing ')'"
  | .trailingBackslash => "trailing backslash"
  | .incompleteHex => "incomplete \\x escape"
  | .badHex => "bad \\x escape"
  | .unterminatedClass => "unterminated character class"
  | .reversedRange low high =>
      "bad character range " ++ String.singleton low ++ "-" ++ String.singleton high
  | .multipleRepeat => "multiple repeat"
  | .countTooLarge => "repeat count too large"
  | .reversedBounds => "min repeat greater than max repeat"

/-- The wording of a construct. -/
def Construct.message : Construct → String
  | .startAnchor => "start anchor '^'"
  | .wildcard => "wildcard '.'"
  | .extensionGroup => "extension group '(?'"
  | .shorthand c => "shorthand class '\\" ++ String.singleton c ++ "'"
  | .backreference c => "backreference '\\" ++ String.singleton c ++ "'"
  | .anchor c => "anchor '\\" ++ String.singleton c ++ "'"
  | .escape c => "escape '\\" ++ String.singleton c ++ "'"
  | .negatedClass => "negated class '[^'"
  | .namedClass => "POSIX class '[:'"
  | .lazyQuantifier => "lazy quantifier"
  | .possessiveQuantifier => "possessive quantifier"

/-- The cause of a refusal. -/
inductive Cause where
  | invalid (fault : PatternFault)
  | unsupported (construct : Construct)
deriving DecidableEq, Repr

/-- A refusal while reading: its cause and the characters not yet read. -/
structure Refusal where
  cause : Cause
  unread : List Char
deriving DecidableEq, Repr

/-- Refuse for a fault of form, with `unread` still to come. -/
def refuse {α : Type} (fault : PatternFault) (unread : List Char) : Except Refusal α :=
  .error ⟨.invalid fault, unread⟩

/-- Refuse a construct outside the grammar, with `unread` still to come. -/
def leaveOut {α : Type} (construct : Construct) (unread : List Char) : Except Refusal α :=
  .error ⟨.unsupported construct, unread⟩

end Guided
