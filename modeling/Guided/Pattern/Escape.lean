/-!
# Escapes of the pattern grammar

Which characters have a meaning of their own in a pattern text, and the letters by
which control characters are written. The reader and the printer share these tables,
so that what one writes the other reads.

## Main definitions

* `controlLetter`, `controlOfLetter`: newline, tab, return, vertical tab, form feed.
* `isMeta`, `isClassMeta`: characters escaped outside and inside a class.
-/
namespace Guided

/-- The letter that stands for a control character after a backslash. -/
def controlLetter (c : Char) : Option Char :=
  if c = '\n' then some 'n'
  else if c = '\t' then some 't'
  else if c = '\r' then some 'r'
  else if c = '\x0b' then some 'v'
  else if c = '\x0c' then some 'f'
  else none

/-- The control character that a letter stands for after a backslash. -/
def controlOfLetter (c : Char) : Option Char :=
  if c = 'n' then some '\n'
  else if c = 't' then some '\t'
  else if c = 'r' then some '\r'
  else if c = 'v' then some '\x0b'
  else if c = 'f' then some '\x0c'
  else none

theorem controlOfLetter_of_controlLetter {c l : Char} (h : controlLetter c = some l) :
    controlOfLetter l = some c := by
  unfold controlLetter at h
  repeat' split at h
  all_goals first | (injection h with h; subst_vars; rfl) | contradiction

/-- Characters with a meaning of their own outside a class. -/
def isMeta (c : Char) : Bool :=
  ['\\', '.', '^', '$', '|', '?', '*', '+', '(', ')', '[', ']', '{', '}'].contains c

/-- Characters escaped inside a class. Doubled ampersands, tildes and hyphens are set
operators in other dialects, so single ones are never left bare. -/
def isClassMeta (c : Char) : Bool :=
  ['\\', ']', '[', '^', '-', '&', '~'].contains c

/-- A character as written where `special` characters need a backslash. -/
def escapedChars (special : Char → Bool) (c : Char) : List Char :=
  match controlLetter c with
  | some l => ['\\', l]
  | none => if special c then ['\\', c] else [c]

end Guided
