import Guided.Pattern.Basic
import Guided.Pattern.Escape

/-!
# The text of a pattern

Printing writes as few parentheses as the tree needs: an alternation keeps its scope
by parentheses only beside siblings, and a repetition only around a body that is not
a single atom. The printed text is what equality of patterns is decided on.

## Main definitions

* `Pattern.chars`, `Pattern.text`: the printed form.
* `Node.text`: a node printed alone.
-/
namespace Guided

/-- A class item as it stands between the brackets. -/
def ClassItem.chars : ClassItem → List Char
  | .single c => escapedChars isClassMeta c
  | .range low high => escapedChars isClassMeta low ++ '-' :: escapedChars isClassMeta high

/-- A class in brackets. -/
def classChars (items : List ClassItem) : List Char :=
  '[' :: items.flatMap ClassItem.chars ++ [']']

/-- The quantifier for given bounds, in its shortest spelling; exactly once needs none. -/
def quantifierChars (min : Nat) (max : Option Nat) : List Char :=
  match max with
  | none =>
      if min = 0 then ['*']
      else if min = 1 then ['+']
      else '{' :: Nat.toDigits 10 min ++ [',', '}']
  | some max =>
      if min = 0 ∧ max = 1 then ['?']
      else if min = 1 ∧ max = 1 then []
      else if min = max then '{' :: Nat.toDigits 10 min ++ ['}']
      else '{' :: Nat.toDigits 10 min ++ ',' :: Nat.toDigits 10 max ++ ['}']

/-- Whether a repetition may follow the printed sequence without parentheses. -/
def Pattern.isAtom : Pattern → Bool
  | [.literal _] | [.oneOf _] | [.group _] => true
  | _ => false

/-- Whether the nodes of a sequence have siblings. -/
def Pattern.hasSiblings (p : Pattern) : Bool := decide (1 < p.length)

mutual

/-- A node as printed beside siblings or alone. -/
def Node.chars (siblings : Bool) : Node → List Char
  | .literal c => escapedChars isMeta c
  | .oneOf items => classChars items
  | .repetition min max body =>
      let inner := Pattern.charsAmong (Pattern.hasSiblings body) body
      (if Pattern.isAtom body then inner else '(' :: inner ++ [')']) ++ quantifierChars min max
  | .alternation branches =>
      let inner := Pattern.branchChars branches
      if siblings then '(' :: inner ++ [')'] else inner
  | .group inner => '(' :: Pattern.charsAmong (Pattern.hasSiblings inner) inner ++ [')']
  | .endAnchor => ['$']

/-- The nodes of a sequence one after the other. -/
def Pattern.charsAmong (siblings : Bool) : List Node → List Char
  | [] => []
  | node :: rest => node.chars siblings ++ Pattern.charsAmong siblings rest

/-- Branches separated by bars. -/
def Pattern.branchChars : List (List Node) → List Char
  | [] => []
  | [branch] => Pattern.charsAmong (Pattern.hasSiblings branch) branch
  | branch :: more :: rest =>
      Pattern.charsAmong (Pattern.hasSiblings branch) branch ++
        '|' :: Pattern.branchChars (more :: rest)

end

/-- The characters of a printed pattern. -/
def Pattern.chars (p : Pattern) : List Char :=
  Pattern.charsAmong (Pattern.hasSiblings p) p

/-- The text of a pattern. -/
def Pattern.text (p : Pattern) : String := String.ofList (Pattern.chars p)

/-- The text of a node that stands alone. -/
def Node.text (n : Node) : String := String.ofList (n.chars false)

theorem Pattern.charsAmong_append (siblings : Bool) (p q : Pattern) :
    Pattern.charsAmong siblings (p ++ q) =
      Pattern.charsAmong siblings p ++ Pattern.charsAmong siblings q := by
  induction p with
  | nil => rfl
  | cons n p ih => simp [Pattern.charsAmong, ih]

@[simp] theorem Pattern.chars_singleton (n : Node) : Pattern.chars [n] = n.chars false := by
  simp [Pattern.chars, Pattern.hasSiblings, Pattern.charsAmong]

end Guided
