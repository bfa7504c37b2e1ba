import Guided.Pattern.Marks

/-!
# Matching a whole text

A whole text is matched without derivatives, by moving marks through the pattern. The
first character enters the pattern at its beginning; after the last one a mark has to be
able to leave the pattern at its end. Each character costs at most a walk over the
pattern and its rounds.

## Main definitions

* `Pattern.marksAfter`: the marks that a text leaves.
* `Pattern.matchesAll`: whether a pattern matches a text from its first to its last
  character.
-/
namespace Guided

/-- The marks in a pattern after further characters. -/
def Pattern.marksAfter (p : Pattern) (marks : List Marks) (text : List Char) : List Marks :=
  text.foldl (fun marks c => Pattern.read c p false marks) marks

/-- Whether the pattern matches the whole of a text. -/
def Pattern.matchesAll (p : Pattern) : List Char → Bool
  | [] => Pattern.acceptsEmpty p
  | c :: rest =>
      Pattern.leaves true p false (Pattern.marksAfter p (Pattern.read c p true []) rest)

end Guided
