import Guided.Pattern.Simplify
import Guided.Proofs.Pattern.Derivative

/-!
# Simplification keeps the meaning

Every rewriting takes exactly the texts that its input takes, before every rest, so that a
simplified part can stand in for the part anywhere in a sequence. Well-formedness is kept
as well, and needed: an alternation without branches takes nothing at all, but would be
simplified to the empty sequence.

## Main statements

* `Pattern.matches_simplify_iff`: a pattern and its simplified form match the same texts.
* `Pattern.wellFormed_simplify`: simplified patterns are well-formed.
-/
namespace Guided

open List

variable {u rest : List Char}

/-! ## The single rewritings -/

theorem matches_groupOf_iff (p : Pattern) :
    Pattern.Matches (groupOf p) u rest ↔ Pattern.Matches p u rest := by
  unfold groupOf
  split <;> simp

theorem times_empty_iff {n : Nat} : Times (Pattern.Matches []) n u rest ↔ u = [] := by
  induction n generalizing u with
  | zero => simp
  | succ n ih =>
      rw [times_succ]
      constructor
      · rintro ⟨v, w, rfl, hv, hw⟩
        rw [Pattern.matches_nil] at hv
        rw [ih] at hw
        rw [hv, hw, nil_append]
      · rintro rfl
        exact ⟨[], [], rfl, by simp, ih.2 rfl⟩

theorem matches_repetitionOf_iff {min : Nat} {max : Option Nat} (body : Pattern)
    (hbounds : ∀ m, max = some m → min ≤ m) :
    Pattern.Matches (repetitionOf min max body) u rest ↔
      (Node.repetition min max body).Matches u rest := by
  rw [repetitionOf, Node.matches_repetition]
  by_cases hnothing : body.isEmpty = true ∨ max = some 0
  · rw [if_pos hnothing, Pattern.matches_nil]
    constructor
    · rintro rfl
      refine ⟨min, Nat.le_refl min, hbounds, times_nil_iff.2 ?_⟩
      rcases hnothing with hbody | hmax
      · obtain rfl : body = [] := isEmpty_iff.1 hbody
        exact Or.inr (by simp)
      · exact Or.inl (Nat.le_zero.1 (hbounds 0 hmax))
    · rintro ⟨n, -, hn, htimes⟩
      rcases hnothing with hbody | hmax
      · obtain rfl : body = [] := isEmpty_iff.1 hbody
        exact times_empty_iff.1 htimes
      · obtain rfl : n = 0 := Nat.le_zero.1 (hn 0 hmax)
        simpa using htimes
  · rw [if_neg hnothing]
    by_cases honce : min = 1 ∧ max = some 1
    · obtain ⟨rfl, rfl⟩ := honce
      rw [if_pos ⟨rfl, rfl⟩]
      constructor
      · intro h
        exact ⟨1, Nat.le_refl 1, by simp, times_one.2 h⟩
      · rintro ⟨n, hmin, hle, htimes⟩
        obtain rfl : n = 1 := Nat.le_antisymm (hle 1 rfl) hmin
        exact times_one.1 htimes
    · rw [if_neg honce, Pattern.matches_singleton, Node.matches_repetition]

theorem matches_optionalOf_iff (body : Pattern) :
    Pattern.Matches (optionalOf body) u rest ↔ u = [] ∨ Pattern.Matches body u rest := by
  have hgroup : Pattern.Matches (if 1 < body.length then [.group body] else body) =
      Pattern.Matches body := by
    funext v w
    split <;> simp
  rw [optionalOf, Pattern.matches_singleton, Node.matches_repetition, hgroup]
  constructor
  · rintro ⟨n, -, hn, htimes⟩
    have hle : n ≤ 1 := hn 1 rfl
    rcases Nat.le_one_iff_eq_zero_or_eq_one.1 hle with rfl | rfl
    · exact Or.inl (times_zero.1 htimes)
    · exact Or.inr (times_one.1 htimes)
  · rintro (rfl | h)
    · exact ⟨0, Nat.le_refl 0, by simp, times_zero.2 rfl⟩
    · exact ⟨1, Nat.zero_le 1, by simp, times_one.2 h⟩

/-- An alternation takes what one of its branches takes, provided that it has any. -/
theorem matches_alternationOf_iff {branches : List Pattern} (hbranches : branches ≠ []) :
    Pattern.Matches (alternationOf branches) u rest ↔
      ∃ p ∈ branches, Pattern.Matches p u rest := by
  unfold alternationOf
  split
  · exact absurd rfl hbranches
  · simp
  · rename_i a b
    split
    · rename_i ha
      obtain rfl : a = [] := isEmpty_iff.1 ha
      simp [matches_optionalOf_iff]
    · split
      · rename_i hb
        obtain rfl : b = [] := isEmpty_iff.1 hb
        simp [matches_optionalOf_iff, or_comm]
      · simp
  · simp

theorem exists_spreadBranch_iff (p : Pattern) :
    (∃ q ∈ spreadBranch p, Pattern.Matches q u rest) ↔ Pattern.Matches p u rest := by
  unfold spreadBranch
  split <;> simp

/-! ## Well-formedness -/

theorem wellFormed_groupOf {p : Pattern} (h : Pattern.WellFormed p) :
    Pattern.WellFormed (groupOf p) := by
  unfold groupOf
  split
  · exact h
  · simpa [Node.WellFormed] using h
  · exact h
  · simpa [Node.WellFormed] using h

theorem wellFormed_repetitionOf {min : Nat} {max : Option Nat} {body : Pattern}
    (hbounds : ∀ m, max = some m → min ≤ m) (h : Pattern.WellFormed body) :
    Pattern.WellFormed (repetitionOf min max body) := by
  unfold repetitionOf
  split
  · simp
  · split
    · exact h
    · simp only [Pattern.wellFormed_cons, Node.WellFormed, Pattern.wellFormed_nil, and_true]
      exact ⟨hbounds, h⟩

theorem wellFormed_optionalOf {body : Pattern} (h : Pattern.WellFormed body) :
    Pattern.WellFormed (optionalOf body) := by
  simp only [optionalOf, Pattern.wellFormed_cons, Node.WellFormed, Pattern.wellFormed_nil,
    and_true]
  refine ⟨fun m _ => Nat.zero_le m, ?_⟩
  split
  · simpa [Node.WellFormed] using h
  · exact h

theorem wellFormed_alternationOf {branches : List Pattern}
    (h : ∀ p ∈ branches, Pattern.WellFormed p) :
    Pattern.WellFormed (alternationOf branches) := by
  unfold alternationOf
  split
  · simp
  · exact h _ (by simp)
  · split
    · exact wellFormed_optionalOf (h _ (by simp))
    · split
      · exact wellFormed_optionalOf (h _ (by simp))
      · simpa [Node.WellFormed, Pattern.wellFormedEach_iff] using h
  · rename_i hnil _ _
    simp only [Pattern.wellFormed_cons, Node.WellFormed, Pattern.wellFormed_nil, and_true]
    exact ⟨hnil, Pattern.wellFormedEach_iff.2 h⟩

theorem wellFormed_of_spreadBranch {p q : Pattern} (h : Pattern.WellFormed p)
    (hq : q ∈ spreadBranch p) : Pattern.WellFormed q := by
  unfold spreadBranch at hq
  split at hq
  · simp only [Pattern.wellFormed_cons, Node.WellFormed, Pattern.wellFormedEach_iff] at h
    exact h.1.2 q hq
  · simp only [Pattern.wellFormed_cons, Node.WellFormed, Pattern.wellFormedEach_iff] at h
    exact h.1.1.2 q hq
  · obtain rfl : q = p := by simpa using hq
    exact h

/-- A well-formed branch contributes at least one branch. -/
theorem spreadBranch_ne_nil {p : Pattern} (h : Pattern.WellFormed p) : spreadBranch p ≠ [] := by
  unfold spreadBranch
  split
  · simp only [Pattern.wellFormed_cons, Node.WellFormed] at h
    exact h.1.1
  · simp only [Pattern.wellFormed_cons, Node.WellFormed] at h
    exact h.1.1.1
  · simp

mutual

theorem Node.wellFormed_simplify :
    ∀ node : Node, node.WellFormed → Pattern.WellFormed node.simplify
  | .literal c, _ => by simp [Node.simplify, Node.WellFormed]
  | .oneOf items, _ => by simp [Node.simplify, Node.WellFormed]
  | .endAnchor, _ => by simp [Node.simplify, Node.WellFormed]
  | .group inner, h => by
      rw [Node.WellFormed] at h
      rw [Node.simplify]
      exact wellFormed_groupOf (Pattern.wellFormed_simplify inner h)
  | .repetition min max body, h => by
      rw [Node.WellFormed] at h
      rw [Node.simplify]
      exact wellFormed_repetitionOf h.1 (Pattern.wellFormed_simplify body h.2)
  | .alternation branches, h => by
      rw [Node.WellFormed] at h
      rw [Node.simplify]
      refine wellFormed_alternationOf fun p hp => ?_
      exact Pattern.wellFormed_simplifyBranches branches h.2 p (Pattern.mem_distinct.1 hp)

theorem Pattern.wellFormed_simplify :
    ∀ p : List Node, Pattern.WellFormed p → Pattern.WellFormed (Pattern.simplify p)
  | [], _ => by simp [Pattern.simplify]
  | node :: p, h => by
      rw [Pattern.wellFormed_cons] at h
      rw [Pattern.simplify, Pattern.wellFormed_append]
      exact ⟨node.wellFormed_simplify h.1, Pattern.wellFormed_simplify p h.2⟩

theorem Pattern.wellFormed_simplifyBranches :
    ∀ bs : List (List Node), Pattern.WellFormedEach bs →
      ∀ q ∈ Pattern.simplifyBranches bs, Pattern.WellFormed q
  | [], _, q, hq => by simp [Pattern.simplifyBranches] at hq
  | branch :: bs, h, q, hq => by
      rw [Pattern.WellFormedEach] at h
      rw [Pattern.simplifyBranches] at hq
      rcases mem_append.1 hq with hq | hq
      · exact wellFormed_of_spreadBranch (Pattern.wellFormed_simplify branch h.1) hq
      · exact Pattern.wellFormed_simplifyBranches bs h.2 q hq

end

/-- Simplified branches of an alternation are again at least one. -/
theorem distinct_simplifyBranches_ne_nil {branches : List Pattern} (hne : branches ≠ [])
    (h : Pattern.WellFormedEach branches) :
    Pattern.distinct (Pattern.simplifyBranches branches) ≠ [] := by
  cases branches with
  | nil => exact absurd rfl hne
  | cons branch bs =>
      rw [Pattern.WellFormedEach] at h
      obtain ⟨q, hq⟩ := exists_mem_of_ne_nil _
        (spreadBranch_ne_nil (Pattern.wellFormed_simplify branch h.1))
      have hmem : q ∈ Pattern.simplifyBranches (branch :: bs) := by
        rw [Pattern.simplifyBranches]
        exact mem_append_left _ hq
      exact ne_nil_of_mem (Pattern.mem_distinct.2 hmem)

/-! ## The meaning -/

mutual

/-- The nodes that stand for a node take what it takes. -/
theorem Node.matches_simplify_iff :
    ∀ node : Node, node.WellFormed → ∀ u rest : List Char,
      Pattern.Matches node.simplify u rest ↔ node.Matches u rest
  | .literal c, _, u, rest => by rw [Node.simplify, Pattern.matches_singleton]
  | .oneOf items, _, u, rest => by rw [Node.simplify, Pattern.matches_singleton]
  | .endAnchor, _, u, rest => by rw [Node.simplify, Pattern.matches_singleton]
  | .group inner, h, u, rest => by
      rw [Node.WellFormed] at h
      rw [Node.simplify, matches_groupOf_iff, Node.matches_group,
        Pattern.matches_simplify_iff inner h]
  | .repetition min max body, h, u, rest => by
      rw [Node.WellFormed] at h
      have hbody : Pattern.Matches (Pattern.simplify body) = Pattern.Matches body := by
        funext v w
        exact propext (Pattern.matches_simplify_iff body h.2 v w)
      rw [Node.simplify, matches_repetitionOf_iff _ h.1, Node.matches_repetition,
        Node.matches_repetition, hbody]
  | .alternation branches, h, u, rest => by
      rw [Node.WellFormed] at h
      rw [Node.simplify, matches_alternationOf_iff (distinct_simplifyBranches_ne_nil h.1 h.2),
        Node.matches_alternation]
      simp only [Pattern.mem_distinct]
      rw [Pattern.exists_simplifyBranches_iff branches h.2, Pattern.matchesAny_iff]

/-- A pattern and its simplified form match the same texts before every rest. -/
theorem Pattern.matches_simplify_iff :
    ∀ p : List Node, Pattern.WellFormed p → ∀ u rest : List Char,
      Pattern.Matches (Pattern.simplify p) u rest ↔ Pattern.Matches p u rest
  | [], _, u, rest => by rw [Pattern.simplify]
  | node :: p, h, u, rest => by
      rw [Pattern.wellFormed_cons] at h
      rw [Pattern.simplify, Pattern.matches_append, Pattern.matches_cons]
      simp only [Node.matches_simplify_iff node h.1, Pattern.matches_simplify_iff p h.2]

theorem Pattern.exists_simplifyBranches_iff :
    ∀ bs : List (List Node), Pattern.WellFormedEach bs → ∀ u rest : List Char,
      (∃ q ∈ Pattern.simplifyBranches bs, Pattern.Matches q u rest) ↔
        Pattern.MatchesAny bs u rest
  | [], _, u, rest => by simp [Pattern.simplifyBranches, Pattern.MatchesAny]
  | branch :: bs, h, u, rest => by
      rw [Pattern.WellFormedEach] at h
      have hbranch := (exists_spreadBranch_iff (Pattern.simplify branch)).trans
        (Pattern.matches_simplify_iff branch h.1 u rest)
      rw [Pattern.MatchesAny, ← hbranch, ← Pattern.exists_simplifyBranches_iff bs h.2,
        Pattern.simplifyBranches]
      simp only [mem_append, or_and_right, exists_or]

end

end Guided
