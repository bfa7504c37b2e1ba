import Guided.Pattern.Derivative

/-!
# Simplification and residuals

Simplification rewrites a tree from the inside out, without changing what it matches:
groups around a single node go, repetitions that repeat nothing or once go, nested
alternations are joined, equal branches count once, and an alternative with nothing
becomes an optional part. A residual is what remains of a pattern after some text,
simplified after every character.

## Main definitions

* `Pattern.simplify`: the rewriting.
* `Pattern.step`, `Pattern.residual`: the residual after a character and after a text.
-/
namespace Guided

/-- The branches a simplified branch contributes: its own branches when it is nothing
but an alternation, bare or in a group, and otherwise itself. -/
def spreadBranch : Pattern → List Pattern
  | [.alternation branches] => branches
  | [.group [.alternation branches]] => branches
  | branch => [branch]

/-- A group around simplified nodes, kept only where it holds something together. -/
def groupOf (inner : Pattern) : Pattern :=
  match inner with
  | [] => []
  | [.alternation branches] => [.group [.alternation branches]]
  | [node] => [node]
  | inner => [.group inner]

/-- A repetition of a simplified body, kept only where it repeats something. -/
def repetitionOf (min : Nat) (max : Option Nat) (body : Pattern) : Pattern :=
  if body.isEmpty ∨ max = some 0 then []
  else if min = 1 ∧ max = some 1 then body
  else [.repetition min max body]

/-- A part that may be left out. -/
def optionalOf (body : Pattern) : Pattern :=
  [.repetition 0 (some 1) (if 1 < body.length then [.group body] else body)]

/-- An alternation of different simplified branches. Only where there are two of them
does an empty one become an optional part. -/
def alternationOf (branches : List Pattern) : Pattern :=
  match branches with
  | [] => []
  | [branch] => branch
  | [a, b] =>
      if a.isEmpty then optionalOf b
      else if b.isEmpty then optionalOf a
      else [.alternation [a, b]]
  | branches => [.alternation branches]

mutual

/-- The nodes that stand for a node after simplification: none, one or several. -/
def Node.simplify : Node → List Node
  | .literal c => [.literal c]
  | .oneOf items => [.oneOf items]
  | .endAnchor => [.endAnchor]
  | .group inner => groupOf (Pattern.simplify inner)
  | .repetition min max body => repetitionOf min max (Pattern.simplify body)
  | .alternation branches =>
      alternationOf (Pattern.distinct (Pattern.simplifyBranches branches))

/-- A sequence is simplified node by node. -/
def Pattern.simplify : List Node → List Node
  | [] => []
  | node :: rest => node.simplify ++ Pattern.simplify rest

/-- Simplified branches, nested alternations spread out. -/
def Pattern.simplifyBranches : List (List Node) → List (List Node)
  | [] => []
  | branch :: rest => spreadBranch (Pattern.simplify branch) ++ Pattern.simplifyBranches rest

end

theorem Pattern.simplify_eq_flatMap (p : Pattern) :
    Pattern.simplify p = p.flatMap Node.simplify := by
  induction p with
  | nil => rfl
  | cons n p ih => simp [Pattern.simplify, ih]

@[simp] theorem Pattern.simplify_append (p q : Pattern) :
    Pattern.simplify (p ++ q) = Pattern.simplify p ++ Pattern.simplify q := by
  simp [Pattern.simplify_eq_flatMap]

theorem Pattern.simplifyBranches_eq_flatMap (bs : List Pattern) :
    Pattern.simplifyBranches bs = bs.flatMap fun b => spreadBranch (Pattern.simplify b) := by
  induction bs with
  | nil => rfl
  | cons b bs ih => simp [Pattern.simplifyBranches, ih]

/-- The residual of a pattern after one character, if the character is not rejected. -/
def Pattern.step (p : Pattern) (c : Char) : Option Pattern :=
  (Pattern.derivative c p).map Pattern.simplify

/-- The residual of a pattern after a text; a pattern is its own residual after none. -/
def Pattern.residual (p : Pattern) (text : List Char) : Option Pattern :=
  text.foldlM Pattern.step p

@[simp] theorem Pattern.residual_nil (p : Pattern) : Pattern.residual p [] = some p := rfl

@[simp] theorem Pattern.residual_cons (p : Pattern) (c : Char) (s : List Char) :
    Pattern.residual p (c :: s) = (Pattern.step p c).bind (Pattern.residual · s) := rfl

/-- Following a text in two parts is following it as a whole. -/
theorem Pattern.residual_append (p : Pattern) (s t : List Char) :
    Pattern.residual p (s ++ t) = (Pattern.residual p s).bind (Pattern.residual · t) := by
  simp [Pattern.residual, List.foldlM_append, bind]

end Guided
