import Guided.Pattern.Simplify
import Guided.Proofs.Pattern.Derivative

/-!
# Simplification reaches a normal form

A tree is in normal form if no rewriting applies anywhere in it. Simplification makes every
tree normal and leaves a normal one as it is, so that simplifying twice is simplifying once
and a tree is its own simplified form exactly if it is normal.

## Main statements

* `Pattern.normal_simplify`: simplified trees are normal.
* `Pattern.simplify_eq_self`: normal trees stay as they are.
* `Pattern.simplify_eq_self_iff`, `Pattern.simplify_simplify`.
-/
namespace Guided

open List

/-- A branch that is more than an alternation, bare or in a group. -/
def Spread (p : Pattern) : Prop := spreadBranch p = [p]

/-- Branches of an alternation that cannot be joined, dropped or made optional. -/
structure Settled (branches : List Pattern) : Prop where
  several : 1 < branches.length
  nodup : branches.Nodup
  spread : ∀ p ∈ branches, Spread p
  nonempty : branches.length = 2 → [] ∉ branches

mutual

/-- No rewriting applies to a node or below it. -/
def Node.Normal : Node → Prop
  | .literal _ | .oneOf _ | .endAnchor => True
  | .group inner => groupOf inner = [.group inner] ∧ Pattern.Normal inner
  | .repetition min max body =>
      (body ≠ [] ∧ max ≠ some 0 ∧ ¬ (min = 1 ∧ max = some 1)) ∧ Pattern.Normal body
  | .alternation branches => Settled branches ∧ Pattern.NormalEach branches

/-- All nodes of a sequence are normal. -/
def Pattern.Normal : List Node → Prop
  | [] => True
  | node :: rest => node.Normal ∧ Pattern.Normal rest

/-- All branches are normal. -/
def Pattern.NormalEach : List (List Node) → Prop
  | [] => True
  | branch :: rest => Pattern.Normal branch ∧ Pattern.NormalEach rest

end

section Sequences

variable {n : Node} {p q : Pattern} {bs : List Pattern}

@[simp] theorem Pattern.normal_nil : Pattern.Normal [] := by simp [Pattern.Normal]

@[simp] theorem Pattern.normal_cons : Pattern.Normal (n :: p) ↔ n.Normal ∧ Pattern.Normal p := by
  rw [Pattern.Normal]

theorem Pattern.normal_append :
    Pattern.Normal (p ++ q) ↔ Pattern.Normal p ∧ Pattern.Normal q := by
  induction p with
  | nil => simp
  | cons n p ih => simp [ih, and_assoc]

theorem Pattern.normalEach_iff : Pattern.NormalEach bs ↔ ∀ p ∈ bs, Pattern.Normal p := by
  induction bs with
  | nil => simp [Pattern.NormalEach]
  | cons p bs ih => simp [Pattern.NormalEach, ih]

end Sequences

/-! ## Simplified trees are normal -/

section Rewritings

variable {p q : Pattern} {branches : List Pattern}

/-- What the group rewriting keeps, it keeps as one group. -/
theorem groupOf_eq_group (hp : p ≠ []) (h : ∀ n, p = [n] → ∃ bs, n = .alternation bs) :
    groupOf p = [.group p] := by
  unfold groupOf
  split
  · exact absurd rfl hp
  · rfl
  · rename_i n hn
    obtain ⟨bs, rfl⟩ := h n rfl
    exact absurd rfl (hn bs)
  · rfl

theorem normal_groupOf (h : Pattern.Normal p) : Pattern.Normal (groupOf p) := by
  unfold groupOf
  split
  · exact h
  · simp only [Pattern.normal_cons, Node.Normal, Pattern.normal_nil, and_true] at h ⊢
    exact ⟨rfl, h⟩
  · exact h
  · rename_i hnil _ hsingle
    simp only [Pattern.normal_cons, Node.Normal, Pattern.normal_nil, and_true]
    refine ⟨groupOf_eq_group hnil ?_, h⟩
    intro n hn
    exact absurd hn (hsingle n)

theorem normal_repetitionOf {min : Nat} {max : Option Nat} (h : Pattern.Normal p) :
    Pattern.Normal (repetitionOf min max p) := by
  rw [repetitionOf]
  by_cases hnothing : p.isEmpty = true ∨ max = some 0
  · rw [if_pos hnothing]
    exact Pattern.normal_nil
  · rw [if_neg hnothing]
    by_cases honce : min = 1 ∧ max = some 1
    · rw [if_pos honce]
      exact h
    · rw [if_neg honce]
      simp only [Pattern.normal_cons, Node.Normal, Pattern.normal_nil, and_true]
      have hbody : p ≠ [] := fun hp => hnothing (.inl (isEmpty_iff.2 hp))
      have hmax : max ≠ some 0 := fun hm => hnothing (.inr hm)
      exact ⟨⟨hbody, hmax, honce⟩, h⟩

theorem normal_optionalOf (hp : p ≠ []) (h : Pattern.Normal p) :
    Pattern.Normal (optionalOf p) := by
  rw [optionalOf]
  by_cases hlong : 1 < p.length
  · rw [if_pos hlong]
    simp only [Pattern.normal_cons, Node.Normal, Pattern.normal_nil, and_true]
    refine ⟨⟨cons_ne_nil _ _, by simp⟩, groupOf_eq_group hp ?_, h⟩
    rintro n rfl
    simp at hlong
  · rw [if_neg hlong]
    simp only [Pattern.normal_cons, Node.Normal, Pattern.normal_nil, and_true]
    exact ⟨⟨hp, by simp⟩, h⟩

theorem normal_alternationOf (hnodup : branches.Nodup) (hspread : ∀ p ∈ branches, Spread p)
    (h : ∀ p ∈ branches, Pattern.Normal p) : Pattern.Normal (alternationOf branches) := by
  have hkept : 1 < branches.length → (branches.length = 2 → [] ∉ branches) →
      Pattern.Normal [.alternation branches] := by
    intro hseveral hnonempty
    simp only [Pattern.normal_cons, Node.Normal, Pattern.normal_nil, and_true]
    exact ⟨⟨hseveral, hnodup, hspread, hnonempty⟩, Pattern.normalEach_iff.2 h⟩
  unfold alternationOf
  split
  · exact Pattern.normal_nil
  · exact h _ (by simp)
  · rename_i a b
    have hne : a ≠ b := by simpa using hnodup
    by_cases ha : a.isEmpty
    · rw [if_pos ha]
      obtain rfl : a = [] := isEmpty_iff.1 ha
      exact normal_optionalOf (Ne.symm hne) (h b (by simp))
    · rw [if_neg ha]
      by_cases hb : b.isEmpty
      · rw [if_pos hb]
        obtain rfl : b = [] := isEmpty_iff.1 hb
        exact normal_optionalOf hne (h a (by simp))
      · rw [if_neg hb]
        apply hkept (by simp)
        intro _ hmem
        rcases mem_cons.1 hmem with rfl | hmem
        · exact ha rfl
        · obtain rfl : [] = b := by simpa using hmem
          exact hb rfl
  · rename_i hnil hone htwo
    have hlong : 2 < branches.length := by
      rcases branches with _ | ⟨a, _ | ⟨b, _ | ⟨c, bs⟩⟩⟩
      · exact absurd rfl hnil
      · exact absurd rfl (hone a)
      · exact absurd rfl (htwo a b)
      · simp
    exact hkept (by omega) (by omega)

/-- The branches that a normal branch contributes are normal and contribute nothing else. -/
theorem normal_of_spreadBranch (h : Pattern.Normal p) (hq : q ∈ spreadBranch p) :
    Spread q ∧ Pattern.Normal q := by
  have halternation : ∀ bs : List Pattern, (Node.alternation bs).Normal → q ∈ bs →
      Spread q ∧ Pattern.Normal q := by
    intro bs hbs hmem
    rw [Node.Normal] at hbs
    exact ⟨hbs.1.spread q hmem, Pattern.normalEach_iff.1 hbs.2 q hmem⟩
  unfold spreadBranch at hq
  split at hq
  · rename_i bs
    exact halternation bs (Pattern.normal_cons.1 h).1 hq
  · rename_i bs
    have hgroup := (Pattern.normal_cons.1 h).1
    rw [Node.Normal] at hgroup
    exact halternation bs (Pattern.normal_cons.1 hgroup.2).1 hq
  · rename_i hbare hgrouped
    obtain rfl : q = p := by simpa using hq
    refine ⟨?_, h⟩
    unfold Spread spreadBranch
    split
    · rename_i bs
      exact absurd rfl (hbare bs)
    · rename_i bs
      exact absurd rfl (hgrouped bs)
    · rfl

end Rewritings

/-- Keeping the first of equal elements leaves no two equal ones. -/
theorem nodup_eraseDups {α : Type} [BEq α] [LawfulBEq α] (xs : List α) : xs.eraseDups.Nodup := by
  match xs with
  | [] => simp
  | x :: xs =>
      rw [eraseDups_cons, nodup_cons]
      refine ⟨?_, nodup_eraseDups _⟩
      rw [mem_eraseDups]
      simp
termination_by xs.length
decreasing_by exact Nat.lt_succ_of_le (length_filter_le _ _)

theorem eraseDups_eq_self {ps : List Pattern} (h : ps.Nodup) : ps.eraseDups = ps := by
  induction ps with
  | nil => simp
  | cons p ps ih =>
      rw [nodup_cons] at h
      have hkept : ps.filter (fun q => !(q == p)) = ps := by
        refine filter_eq_self.2 fun q hq => ?_
        have hne : q ≠ p := fun hqp => h.1 (hqp ▸ hq)
        simpa using hne
      rw [eraseDups_cons, hkept, ih h.2]

mutual

theorem Node.normal_simplify : ∀ n : Node, Pattern.Normal n.simplify
  | .literal c => by simp [Node.simplify, Node.Normal]
  | .oneOf items => by simp [Node.simplify, Node.Normal]
  | .endAnchor => by simp [Node.simplify, Node.Normal]
  | .group inner => by
      rw [Node.simplify]
      exact normal_groupOf (Pattern.normal_simplify inner)
  | .repetition min max body => by
      rw [Node.simplify]
      exact normal_repetitionOf (Pattern.normal_simplify body)
  | .alternation branches => by
      rw [Node.simplify]
      have hbranches := Pattern.normal_simplifyBranches branches
      rw [Pattern.distinct_eq_eraseDups]
      apply normal_alternationOf (nodup_eraseDups _)
      · intro p hp
        exact (hbranches p (mem_eraseDups.1 hp)).1
      · intro p hp
        exact (hbranches p (mem_eraseDups.1 hp)).2

/-- Simplified trees are normal. -/
theorem Pattern.normal_simplify : ∀ p : List Node, Pattern.Normal (Pattern.simplify p)
  | [] => by simp [Pattern.simplify]
  | n :: p => by
      rw [Pattern.simplify, Pattern.normal_append]
      exact ⟨n.normal_simplify, Pattern.normal_simplify p⟩

theorem Pattern.normal_simplifyBranches : ∀ bs : List (List Node),
    ∀ q ∈ Pattern.simplifyBranches bs, Spread q ∧ Pattern.Normal q
  | [], q, hq => by simp [Pattern.simplifyBranches] at hq
  | p :: bs, q, hq => by
      rw [Pattern.simplifyBranches] at hq
      rcases mem_append.1 hq with hq | hq
      · exact normal_of_spreadBranch (Pattern.normal_simplify p) hq
      · exact Pattern.normal_simplifyBranches bs q hq

end

/-! ## Normal trees stay as they are -/

theorem alternationOf_eq_self {branches : List Pattern} (h : Settled branches) :
    alternationOf branches = [.alternation branches] := by
  have hseveral := h.several
  unfold alternationOf
  split
  · simp at hseveral
  · simp at hseveral
  · rename_i a b
    have hempty : [] ∉ [a, b] := h.nonempty rfl
    have ha : ¬ a.isEmpty := fun ha => hempty (by simp [isEmpty_iff.1 ha])
    have hb : ¬ b.isEmpty := fun hb => hempty (by simp [isEmpty_iff.1 hb])
    rw [if_neg ha, if_neg hb]
  · rfl

mutual

theorem Node.simplify_eq_self : ∀ n : Node, n.Normal → n.simplify = [n]
  | .literal c, _ => by rw [Node.simplify]
  | .oneOf items, _ => by rw [Node.simplify]
  | .endAnchor, _ => by rw [Node.simplify]
  | .group inner, h => by
      rw [Node.Normal] at h
      rw [Node.simplify, Pattern.simplify_eq_self inner h.2]
      exact h.1
  | .repetition min max body, h => by
      rw [Node.Normal] at h
      obtain ⟨⟨hbody, hmax, honce⟩, hnormal⟩ := h
      have hkept : ¬ (body.isEmpty = true ∨ max = some 0) := by
        rintro (hempty | hzero)
        · exact hbody (isEmpty_iff.1 hempty)
        · exact hmax hzero
      rw [Node.simplify, Pattern.simplify_eq_self body hnormal, repetitionOf, if_neg hkept,
        if_neg honce]
  | .alternation branches, h => by
      rw [Node.Normal] at h
      rw [Node.simplify, Pattern.simplifyBranches_eq_self branches h.2 h.1.spread,
        Pattern.distinct_eq_eraseDups, eraseDups_eq_self h.1.nodup]
      exact alternationOf_eq_self h.1

/-- Normal trees stay as they are. -/
theorem Pattern.simplify_eq_self : ∀ p : List Node, Pattern.Normal p → Pattern.simplify p = p
  | [], _ => by rw [Pattern.simplify]
  | n :: p, h => by
      rw [Pattern.normal_cons] at h
      rw [Pattern.simplify, Node.simplify_eq_self n h.1, Pattern.simplify_eq_self p h.2,
        singleton_append]

theorem Pattern.simplifyBranches_eq_self : ∀ bs : List (List Node), Pattern.NormalEach bs →
    (∀ p ∈ bs, Spread p) → Pattern.simplifyBranches bs = bs
  | [], _, _ => by rw [Pattern.simplifyBranches]
  | p :: bs, h, hspread => by
      rw [Pattern.NormalEach] at h
      rw [forall_mem_cons] at hspread
      have hp : spreadBranch p = [p] := hspread.1
      rw [Pattern.simplifyBranches, Pattern.simplify_eq_self p h.1, hp,
        Pattern.simplifyBranches_eq_self bs h.2 hspread.2, singleton_append]

end

/-- A tree is its own simplified form exactly if it is normal. -/
theorem Pattern.simplify_eq_self_iff {p : Pattern} :
    Pattern.simplify p = p ↔ Pattern.Normal p := by
  constructor
  · intro h
    rw [← h]
    exact Pattern.normal_simplify p
  · exact Pattern.simplify_eq_self p

/-- Simplifying again changes nothing. -/
@[simp] theorem Pattern.simplify_simplify (p : Pattern) :
    Pattern.simplify (Pattern.simplify p) = Pattern.simplify p :=
  Pattern.simplify_eq_self _ (Pattern.normal_simplify p)

end Guided
