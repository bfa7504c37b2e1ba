import Guided.Pattern.Basic

/-!
# What a pattern means

The texts that a pattern matches, said without derivatives and without positions. The end
anchor looks at what follows, so that a match is a relation between the text that is
taken and the text that remains after it.

## Main definitions

* `Times`: a relation holding a number of times in a row.
* `Node.Matches`, `Pattern.Matches`: what a node or a sequence takes, before what remains.
* `Pattern.Accepts`: the whole texts that a pattern matches.

## Main statements

* `Pattern.matches_append`: a sequence is matched part by part.
* `Pattern.matchesAny_iff`: an alternation takes what one of its branches takes.
-/
namespace Guided

/-- The relation takes a text in `n` parts, each before the other parts and what
remains. -/
def Times (R : List Char → List Char → Prop) : Nat → List Char → List Char → Prop
  | 0, u, _ => u = []
  | n + 1, u, rest => ∃ v w, u = v ++ w ∧ R v (w ++ rest) ∧ Times R n w rest

mutual

/-- A node takes `u` when `rest` remains after it. -/
def Node.Matches : Node → List Char → List Char → Prop
  | .literal c, u, _ => u = [c]
  | .oneOf items, u, _ => ∃ c, u = [c] ∧ classContains items c = true
  | .repetition min max body, u, rest =>
      ∃ n, min ≤ n ∧ (∀ m, max = some m → n ≤ m) ∧ Times (Pattern.Matches body) n u rest
  | .alternation branches, u, rest => Pattern.MatchesAny branches u rest
  | .group inner, u, rest => Pattern.Matches inner u rest
  | .endAnchor, u, rest => u = [] ∧ rest = []

/-- A sequence takes `u` when `rest` remains after it. -/
def Pattern.Matches : List Node → List Char → List Char → Prop
  | [], u, _ => u = []
  | node :: nodes, u, rest =>
      ∃ v w, u = v ++ w ∧ node.Matches v (w ++ rest) ∧ Pattern.Matches nodes w rest

/-- One of several branches takes `u` when `rest` remains after it. -/
def Pattern.MatchesAny : List (List Node) → List Char → List Char → Prop
  | [], _, _ => False
  | branch :: branches, u, rest =>
      Pattern.Matches branch u rest ∨ Pattern.MatchesAny branches u rest

end

/-- The pattern matches a text from its first to its last character. -/
def Pattern.Accepts (p : Pattern) (text : List Char) : Prop := Pattern.Matches p text []

namespace Pattern

@[simp] theorem matches_nil (u rest : List Char) : Pattern.Matches [] u rest ↔ u = [] := by
  simp only [Pattern.Matches]

theorem matches_cons (node : Node) (nodes : Pattern) (u rest : List Char) :
    Pattern.Matches (node :: nodes) u rest ↔
      ∃ v w, u = v ++ w ∧ node.Matches v (w ++ rest) ∧ Pattern.Matches nodes w rest := by
  simp only [Pattern.Matches]

theorem matchesAny_iff {branches : List Pattern} {u rest : List Char} :
    Pattern.MatchesAny branches u rest ↔ ∃ p ∈ branches, Pattern.Matches p u rest := by
  induction branches with
  | nil => simp [Pattern.MatchesAny]
  | cons branch branches ih => simp [Pattern.MatchesAny, ih]

/-- The first part takes a beginning before everything that the second part and the rest
take. -/
theorem matches_append (p q : Pattern) (u rest : List Char) :
    Pattern.Matches (p ++ q) u rest ↔
      ∃ v w, u = v ++ w ∧ Pattern.Matches p v (w ++ rest) ∧ Pattern.Matches q w rest := by
  induction p generalizing u with
  | nil =>
      simp only [List.nil_append, matches_nil]
      constructor
      · intro h
        exact ⟨[], u, rfl, rfl, h⟩
      · rintro ⟨v, w, rfl, rfl, h⟩
        exact h
  | cons node p ih =>
      simp only [List.cons_append, matches_cons, ih]
      constructor
      · rintro ⟨v, w, rfl, hnode, x, y, rfl, hp, hq⟩
        exact ⟨v ++ x, y, by simp, ⟨v, x, rfl, by simpa using hnode, hp⟩, hq⟩
      · rintro ⟨v, w, rfl, ⟨x, y, rfl, hnode, hp⟩, hq⟩
        exact ⟨x, y ++ w, by simp, by simpa using hnode, y, w, rfl, hp, hq⟩

end Pattern

end Guided
