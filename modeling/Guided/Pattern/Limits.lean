import Guided.Pattern.AutomatonSize

/-!
# Limits of whole-text matching

A pattern is matched against a whole text only if its printed form, put between two
anchors, is not nested too deeply and its automata are not too large. Following a
pattern character by character has neither limit.

## Main definitions

* `Pattern.nesting`: levels of the printed form.
* `Pattern.checkLimits`: the limit that is exceeded, if any.
-/
namespace Guided

/-- A limit of whole-text matching. -/
inductive MatchLimit where
  | nesting
  | size
deriving DecidableEq, Repr

/-- The deepest nesting that is matched. -/
def maxNesting : Nat := 250

/-- The levels that the anchors around a pattern add: a concatenation and a group. -/
def anchorNesting : Nat := 2

/-- The largest automaton, in bytes. -/
def maxAutomatonBytes : Nat := 10 * 1024 * 1024

/-- A class is one level, and a union of several items another one. -/
def classNesting (items : List ClassItem) : Nat := if 1 < items.length then 2 else 1

mutual

/-- Levels of a printed node: one for each enclosing group, repetition, alternation of
several branches and class. Parentheses that printing adds count as groups. -/
def Node.nesting (siblings : Bool) : Node → Nat
  | .literal _ | .endAnchor => 0
  | .oneOf items => classNesting items
  | .group inner => 1 + Pattern.sequenceNesting (Pattern.hasSiblings inner) inner
  | .repetition min max body =>
      let inner := Pattern.sequenceNesting (Pattern.hasSiblings body) body
      let atom := if Pattern.isAtom body then inner else 1 + inner
      if (quantifierChars min max).isEmpty then atom else 1 + atom
  | .alternation branches =>
      let inner := Pattern.branchNesting branches
      let joined := if 1 < branches.length then 1 + inner else inner
      if siblings then 1 + joined else joined

/-- Levels of a printed sequence; several nodes make a concatenation, which is a level. -/
def Pattern.sequenceNesting (siblings : Bool) : List Node → Nat
  | [] => 0
  | node :: rest =>
      Nat.max ((if siblings then 1 else 0) + node.nesting siblings)
        (Pattern.sequenceNesting siblings rest)

/-- Levels of the deepest branch. -/
def Pattern.branchNesting : List (List Node) → Nat
  | [] => 0
  | branch :: rest =>
      Nat.max (Pattern.sequenceNesting (Pattern.hasSiblings branch) branch)
        (Pattern.branchNesting rest)

end

/-- Levels of a printed pattern. -/
def Pattern.nesting (p : Pattern) : Nat :=
  Pattern.sequenceNesting (Pattern.hasSiblings p) p

/-- The limit that a pattern exceeds; nesting is looked at first. -/
def Pattern.checkLimits (p : Pattern) : Except MatchLimit Unit :=
  if maxNesting < Pattern.nesting p + anchorNesting then .error .nesting
  else if maxAutomatonBytes < Pattern.automatonBytes p then .error .size
  else .ok ()

end Guided
