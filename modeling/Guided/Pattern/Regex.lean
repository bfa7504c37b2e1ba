import Guided.Error
import Guided.Pattern.FullMatch
import Guided.Pattern.Parser
import Guided.Pattern.Simplify

/-!
# Patterns with their text

A regex is a pattern tree together with the text it goes by: the text it was read from,
or its printed form if it was made from a tree. Two regexes are compared by their
simplified printed forms.

## Main definitions

* `Pattern.parse`, `Regex.parse`, `Regex.ofPattern`.
* `Regex.fullMatch`, `Regex.comparePattern`.
-/
namespace Guided

/-- The pattern that a text spells; an offset counts the characters before the place
where reading stopped. A text that is too long is not read at all. -/
def Pattern.parse (text : String) : Except Error Pattern :=
  let chars := text.toList
  match Pattern.ofChars chars with
  | .ok p => .ok p
  | .error ⟨.invalid fault, unread⟩ =>
      .error (.invalidPattern text (chars.length - unread.length) fault)
  | .error ⟨.unsupported construct, unread⟩ =>
      .error (.unsupportedPattern text (chars.length - unread.length) construct)

/-- Whether a pattern matches the whole of a text, within the limits of such matching. -/
def Pattern.fullMatch (p : Pattern) (text : String) : Except Error Bool :=
  match Pattern.checkLimits p with
  | .error limit => .error (.internal (.matchLimit limit))
  | .ok () => .ok (Pattern.matchesAll p text.toList)

/-- Whether what has been consumed to reach a residual is itself a complete match. -/
def isAccepting (residual : Option Pattern) : Bool := residual.any Pattern.acceptsEmpty

/-- A pattern and the text it goes by. -/
structure Regex where
  source : String
  pattern : Pattern

namespace Regex

/-- The regex that a text spells. -/
def parse (text : String) : Except Error Regex := (Pattern.parse text).map (⟨text, ·⟩)

/-- A regex that goes by the printed form of its pattern. -/
def ofPattern (p : Pattern) : Regex := ⟨Pattern.text p, p⟩

/-- The residual after a text. -/
def residual (r : Regex) (text : String) : Option Pattern :=
  Pattern.residual r.pattern text.toList

/-- Whether the whole of a text matches. -/
def fullMatch (r : Regex) (text : String) : Except Error Bool := Pattern.fullMatch r.pattern text

/-- The printed form after simplification. -/
def canonical (r : Regex) : String := Pattern.text (Pattern.simplify r.pattern)

/-- Whether another text spells a pattern of the same simplified form. -/
def comparePattern (r : Regex) (other : String) : Except Error Bool :=
  (Regex.parse other).map fun q => r.canonical == q.canonical

end Regex

end Guided
