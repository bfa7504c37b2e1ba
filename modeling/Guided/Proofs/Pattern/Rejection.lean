import Guided.Proofs.Pattern.Simplify

/-!
# Simplification keeps what is rejected

Whether a character is rejected is decided on the tree, not on the texts that it takes: a
tree may let a character in and then take nothing that begins with it, as `a$b` does. So it
does not follow from the meaning that a simplified tree rejects the same characters, and is
proved along the tree, where skipping a node is what lets later nodes read.

## Main definitions

* `Node.Admits`, `Pattern.Admits`: a character is not rejected.
* `Pattern.Interchangeable`: two patterns that nothing tells apart.

## Main statements

* `Pattern.admits_simplify_iff`: simplification keeps what is rejected.
* `Pattern.interchangeable_simplify`: a well-formed tree and its simplified form.
-/
namespace Guided

open List

/-- The node has a derivative by the character. -/
def Node.Admits (c : Char) (n : Node) : Prop := n.derivative c ≠ none

/-- The sequence has a derivative by the character. -/
def Pattern.Admits (c : Char) (p : Pattern) : Prop := Pattern.derivative c p ≠ none

section Admits

variable {c : Char}

theorem joinPaths_eq_none_iff {paths : List Pattern} : joinPaths paths = none ↔ paths = [] := by
  have hdistinct : Pattern.distinct paths = [] ↔ paths = [] := by
    simp only [eq_nil_iff_forall_not_mem, Pattern.mem_distinct]
  rw [← hdistinct, joinPaths]
  split
  · rename_i h
    simp [h]
  · rename_i h
    simp [h]
  · rename_i hnil _
    simpa using hnil

theorem Pattern.admits_iff_paths {p : Pattern} :
    Pattern.Admits c p ↔ Pattern.paths c p ≠ [] := by
  rw [Pattern.Admits, Pattern.derivative, ne_eq, joinPaths_eq_none_iff]

@[simp] theorem Pattern.not_admits_nil : ¬ Pattern.Admits c [] := by
  simp [Pattern.admits_iff_paths, Pattern.paths]

@[simp] theorem Pattern.admits_cons {n : Node} {p : Pattern} :
    Pattern.Admits c (n :: p) ↔
      n.Admits c ∨ n.skippable = true ∧ Pattern.Admits c p := by
  simp only [Pattern.admits_iff_paths, Node.Admits, Pattern.paths]
  cases n.derivative c <;> cases n.skippable <;> simp

theorem Pattern.admits_append {p q : Pattern} :
    Pattern.Admits c (p ++ q) ↔
      Pattern.Admits c p ∨ Pattern.skippable p = true ∧ Pattern.Admits c q := by
  induction p with
  | nil => simp [Pattern.skippable]
  | cons n p ih =>
      simp only [cons_append, Pattern.admits_cons, ih, Pattern.skippable, Bool.and_eq_true,
        and_or_left, or_assoc, and_assoc]

@[simp] theorem Pattern.admits_singleton {n : Node} :
    Pattern.Admits c [n] ↔ n.Admits c := by
  simp

@[simp] theorem Node.admits_group {inner : Pattern} :
    (Node.group inner).Admits c ↔ Pattern.Admits c inner := by
  simp [Node.Admits, Pattern.Admits, Pattern.derivative, Node.derivative]

@[simp] theorem Node.admits_repetition {min : Nat} {max : Option Nat} {body : Pattern} :
    (Node.repetition min max body).Admits c ↔ max ≠ some 0 ∧ Pattern.Admits c body := by
  by_cases hmax : max = some 0
  · simp [Node.Admits, Node.derivative, hmax]
  · simp [Node.Admits, Pattern.Admits, Pattern.derivative, Node.derivative, hmax]

/-- A character is let in by an alternation through one of its branches. -/
@[simp] theorem Node.admits_alternation {branches : List Pattern} :
    (Node.alternation branches).Admits c ↔ ∃ p ∈ branches, Pattern.Admits c p := by
  have hsurvivors : (Node.alternation branches).Admits c ↔
      branches.filterMap (Pattern.derivative c) ≠ [] := by
    rw [Node.Admits, Node.derivative, Pattern.survivors_eq_filterMap]
    split
    · rename_i h
      simp [h]
    · rename_i h
      exact ⟨fun _ hnil => h hnil, fun _ => by simp⟩
  rw [hsurvivors, ne_eq, filterMap_eq_nil_iff, Classical.not_forall]
  simp only [Classical.not_imp, Pattern.Admits, ne_eq]

/-! ## The single rewritings -/

theorem admits_groupOf_iff {p : Pattern} :
    Pattern.Admits c (groupOf p) ↔ Pattern.Admits c p := by
  unfold groupOf
  split <;> simp

theorem admits_repetitionOf_iff {min : Nat} {max : Option Nat} {body : Pattern} :
    Pattern.Admits c (repetitionOf min max body) ↔
      (Node.repetition min max body).Admits c := by
  rw [repetitionOf, Node.admits_repetition]
  by_cases hnothing : body.isEmpty = true ∨ max = some 0
  · rw [if_pos hnothing]
    rcases hnothing with hbody | hmax
    · obtain rfl : body = [] := isEmpty_iff.1 hbody
      simp
    · simp [hmax]
  · have hmax : max ≠ some 0 := fun hmax => hnothing (.inr hmax)
    rw [if_neg hnothing]
    split <;> simp [hmax]

theorem admits_optionalOf_iff {body : Pattern} :
    Pattern.Admits c (optionalOf body) ↔ Pattern.Admits c body := by
  rw [optionalOf]
  split <;> simp

theorem admits_alternationOf_iff {branches : List Pattern} :
    Pattern.Admits c (alternationOf branches) ↔ ∃ p ∈ branches, Pattern.Admits c p := by
  unfold alternationOf
  split
  · simp
  · simp
  · rename_i a b
    split
    · rename_i ha
      obtain rfl : a = [] := isEmpty_iff.1 ha
      simp [admits_optionalOf_iff]
    · split
      · rename_i hb
        obtain rfl : b = [] := isEmpty_iff.1 hb
        simp [admits_optionalOf_iff]
      · simp
  · simp

theorem exists_admits_spreadBranch_iff {p : Pattern} :
    (∃ q ∈ spreadBranch p, Pattern.Admits c q) ↔ Pattern.Admits c p := by
  unfold spreadBranch
  split <;> simp

end Admits

/-! ## Simplified trees -/

/-- A pattern and its simplified form are passed alike, at the end of input and before a
further character. -/
theorem Pattern.passable_simplify {p : Pattern} (h : Pattern.WellFormed p) (atEnd : Bool) :
    Pattern.passable atEnd (Pattern.simplify p) = Pattern.passable atEnd p := by
  have hpass : ∀ rest : List Char,
      Pattern.passable rest.isEmpty (Pattern.simplify p) = Pattern.passable rest.isEmpty p := by
    intro rest
    rw [Bool.eq_iff_iff, ← Pattern.matches_nil_iff p h rest,
      ← Pattern.matches_nil_iff _ (Pattern.wellFormed_simplify p h) rest,
      Pattern.matches_simplify_iff p h]
  cases atEnd with
  | true => exact hpass []
  | false => exact hpass ['a']

theorem Pattern.acceptsEmpty_simplify {p : Pattern} (h : Pattern.WellFormed p) :
    Pattern.acceptsEmpty (Pattern.simplify p) = Pattern.acceptsEmpty p :=
  Pattern.passable_simplify h true

theorem Pattern.skippable_simplify {p : Pattern} (h : Pattern.WellFormed p) :
    Pattern.skippable (Pattern.simplify p) = Pattern.skippable p :=
  Pattern.passable_simplify h false

theorem Node.skippable_simplify {n : Node} (h : n.WellFormed) :
    Pattern.skippable n.simplify = n.skippable := by
  have halone := Pattern.skippable_simplify (p := [n]) (by simpa using h)
  simpa [Pattern.simplify, Pattern.skippable] using halone

section Law

variable (c : Char)

mutual

theorem Node.admits_simplify_iff :
    ∀ n : Node, n.WellFormed → (Pattern.Admits c n.simplify ↔ n.Admits c)
  | .literal a, _ => by rw [Node.simplify, Pattern.admits_singleton]
  | .oneOf items, _ => by rw [Node.simplify, Pattern.admits_singleton]
  | .endAnchor, _ => by rw [Node.simplify, Pattern.admits_singleton]
  | .group inner, h => by
      rw [Node.WellFormed] at h
      rw [Node.simplify, admits_groupOf_iff, Pattern.admits_simplify_iff inner h,
        Node.admits_group]
  | .repetition min max body, h => by
      rw [Node.WellFormed] at h
      rw [Node.simplify, admits_repetitionOf_iff, Node.admits_repetition,
        Pattern.admits_simplify_iff body h.2, Node.admits_repetition]
  | .alternation branches, h => by
      rw [Node.WellFormed] at h
      rw [Node.simplify, admits_alternationOf_iff, Node.admits_alternation]
      simp only [Pattern.mem_distinct]
      exact Pattern.exists_admits_simplifyBranches_iff branches h.2

/-- A character is rejected by the simplified form exactly if it is rejected by the
pattern. What may be skipped before the node that reads it is skipped in both. -/
theorem Pattern.admits_simplify_iff :
    ∀ p : List Node, Pattern.WellFormed p →
      (Pattern.Admits c (Pattern.simplify p) ↔ Pattern.Admits c p)
  | [], _ => by rw [Pattern.simplify]
  | n :: p, h => by
      rw [Pattern.wellFormed_cons] at h
      rw [Pattern.simplify, Pattern.admits_append, Node.admits_simplify_iff n h.1,
        Node.skippable_simplify h.1, Pattern.admits_simplify_iff p h.2, Pattern.admits_cons]

theorem Pattern.exists_admits_simplifyBranches_iff :
    ∀ bs : List (List Node), Pattern.WellFormedEach bs →
      ((∃ q ∈ Pattern.simplifyBranches bs, Pattern.Admits c q) ↔
        ∃ p ∈ bs, Pattern.Admits c p)
  | [], _ => by simp [Pattern.simplifyBranches]
  | branch :: bs, h => by
      rw [Pattern.WellFormedEach] at h
      have hbranch := exists_admits_spreadBranch_iff.trans
        (Pattern.admits_simplify_iff branch h.1)
      have hrest := Pattern.exists_admits_simplifyBranches_iff bs h.2
      simp only [Pattern.simplifyBranches, mem_append, mem_cons, or_and_right, exists_or,
        exists_eq_left, hbranch, hrest]

end

end Law

/-! ## What is seen of a pattern -/

/-- Two patterns that can stand for each other: they take the same texts before every rest,
at the end of input or with more to come, are passed without reading in the same places, and
reject the same characters. -/
structure Pattern.Interchangeable (p q : Pattern) : Prop where
  takes : ∀ u rest, Pattern.Matches p u rest ↔ Pattern.Matches q u rest
  acceptsEmpty : Pattern.acceptsEmpty p = Pattern.acceptsEmpty q
  skippable : Pattern.skippable p = Pattern.skippable q
  rejects : ∀ c, Pattern.derivative c p = none ↔ Pattern.derivative c q = none

/-- **Simplification keeps the meaning of every well-formed tree**, whether a text can spell
it or not, and with it everything else that is asked of a pattern. -/
theorem Pattern.interchangeable_simplify {p : Pattern} (h : Pattern.WellFormed p) :
    Pattern.Interchangeable (Pattern.simplify p) p where
  takes u rest := Pattern.matches_simplify_iff p h u rest
  acceptsEmpty := Pattern.acceptsEmpty_simplify h
  skippable := Pattern.skippable_simplify h
  rejects c := Decidable.not_iff_not.1 (Pattern.admits_simplify_iff c p h)

/-- An alternation beside a sibling, as no text spells it: the first branch is nothing but a
repetition of once, around an end anchor, and the second one holds an alternation with an
empty branch. -/
def mixedBranches : Pattern :=
  [.alternation [[.repetition 1 (some 1) [.endAnchor]],
    [.group [.alternation [[], [.literal 'a'], [.endAnchor]]]]], .literal 'b']

/-- All the rewritings at once: what remains of the alternation are the end anchor, nothing
and `a`. -/
theorem Pattern.interchangeable_mixedBranches :
    Pattern.WellFormed mixedBranches ∧
      Pattern.simplify mixedBranches =
        [.alternation [[.endAnchor], [], [.literal 'a']], .literal 'b'] ∧
      Pattern.Interchangeable [.alternation [[.endAnchor], [], [.literal 'a']], .literal 'b']
        mixedBranches := by
  have hwell : Pattern.WellFormed mixedBranches := by
    simp [mixedBranches, Node.WellFormed, Pattern.WellFormedEach]
  have hsimplified : Pattern.simplify mixedBranches =
      [.alternation [[.endAnchor], [], [.literal 'a']], .literal 'b'] := by rfl
  exact ⟨hwell, hsimplified, hsimplified ▸ Pattern.interchangeable_simplify hwell⟩

end Guided
