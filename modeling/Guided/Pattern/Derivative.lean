import Guided.Pattern.Basic

/-!
# Derivatives

The derivative of a pattern by a character is the pattern of what may follow that
character; there is none when the character is rejected. A sequence offers one path
for every node that the character may start at: its first node, and each further one
as long as all before it can be skipped. Several paths become an alternation.

## Main definitions

* `Node.derivative`, `Pattern.paths`, `Pattern.derivative`.
-/
namespace Guided

/-- Paths as one sequence. Equal paths count once, and the first of them keeps its place. -/
def joinPaths (paths : List Pattern) : Option Pattern :=
  match Pattern.distinct paths with
  | [] => none
  | [path] => some path
  | paths => some [.alternation paths]

/-- What is left of a repetition once one copy of its body has been entered. -/
def repetitionRest (min : Nat) (max : Option Nat) (body : Pattern) : Pattern :=
  let max := max.map fun m => Nat.max (m - 1) (min - 1)
  if max = some 0 then [] else [.repetition (min - 1) max body]

mutual

/-- The derivative of a single node; what follows the node is not part of it. -/
def Node.derivative (c : Char) : Node → Option (List Node)
  | .literal a => if a = c then some [] else none
  | .oneOf items => if classContains items c then some [] else none
  | .endAnchor => none
  | .group inner => (joinPaths (Pattern.paths c inner)).map fun p => [.group p]
  | .alternation branches =>
      match Pattern.survivors c branches with
      | [] => none
      | survivors => some [.alternation survivors]
  | .repetition min max body =>
      if max = some 0 then none
      else (joinPaths (Pattern.paths c body)).map (· ++ repetitionRest min max body)

/-- The paths that a character may take through a sequence. -/
def Pattern.paths (c : Char) : List Node → List (List Node)
  | [] => []
  | node :: rest =>
      ((node.derivative c).map (· ++ rest)).toList ++
        if node.skippable then Pattern.paths c rest else []

/-- The derivatives of the branches that do not reject the character. -/
def Pattern.survivors (c : Char) : List (List Node) → List (List Node)
  | [] => []
  | branch :: rest =>
      (joinPaths (Pattern.paths c branch)).toList ++ Pattern.survivors c rest

end

/-- The derivative of a sequence, as it comes. -/
def Pattern.derivative (c : Char) (p : Pattern) : Option Pattern :=
  joinPaths (Pattern.paths c p)

theorem Pattern.survivors_eq_filterMap (c : Char) (bs : List Pattern) :
    Pattern.survivors c bs = bs.filterMap (Pattern.derivative c) := by
  induction bs with
  | nil => rfl
  | cons b bs ih =>
      rw [Pattern.survivors, ih, List.filterMap_cons, Pattern.derivative]
      cases joinPaths (Pattern.paths c b) <;> simp

end Guided
