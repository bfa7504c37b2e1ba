import Guided.Proofs.Pattern.NormalForm

/-!
# Trees without redexes

The normal form said from the outside: a node is a redex if it could be written in a simpler
way on the spot, whatever is above or below it. Simplification is one pass from the inside
out, so that it might leave a redex where two of its rewritings meet. It leaves none, at any
depth of any tree, and it changes nothing where there is none.

## Main definitions

* `Node.Redex`: what a tree in normal form does not hold.
* `Node.StandsIn`: being a node of a sequence, or one below it.
* `Pattern.NormalForm`: no redex at any depth.

## Main statements

* `Pattern.normal_iff_normalForm`: the trees that the rewritings leave alone.
* `Pattern.simplify_normalForm`: simplification computes the normal form.
-/
namespace Guided

open List

/-- A branch that is nothing but an alternation, bare or in a group. -/
inductive LoneAlternation : Pattern → Prop
  | bare (branches : List Pattern) : LoneAlternation [.alternation branches]
  | grouped (branches : List Pattern) : LoneAlternation [.group [.alternation branches]]

/-- A node that can be written in a simpler way. -/
inductive Node.Redex : Node → Prop
  | emptyGroup : Redex (.group [])
  | groupOfOne (n : Node) (h : ∀ branches, n ≠ .alternation branches) : Redex (.group [n])
  | emptyBody (min : Nat) (max : Option Nat) : Redex (.repetition min max [])
  | never (min : Nat) (body : Pattern) : Redex (.repetition min (some 0) body)
  | once (body : Pattern) : Redex (.repetition 1 (some 1) body)
  | fewBranches (branches : List Pattern) (h : branches.length < 2) :
      Redex (.alternation branches)
  | equalBranches (branches : List Pattern) (h : ¬ branches.Nodup) :
      Redex (.alternation branches)
  | nestedBranch (branches : List Pattern) (p : Pattern) (hp : p ∈ branches)
      (h : LoneAlternation p) : Redex (.alternation branches)
  | emptyBranch (p q : Pattern) (h : p = [] ∨ q = []) : Redex (.alternation [p, q])

/-- The node is one of a sequence, or stands at some depth below one of its nodes. -/
inductive Node.StandsIn (n : Node) : Pattern → Prop
  | here (p : Pattern) (h : n ∈ p) : StandsIn n p
  | inGroup (p inner : Pattern) (hp : .group inner ∈ p) (h : StandsIn n inner) : StandsIn n p
  | inBody (p : Pattern) (min : Nat) (max : Option Nat) (body : Pattern)
      (hp : .repetition min max body ∈ p) (h : StandsIn n body) : StandsIn n p
  | inBranch (p : Pattern) (branches : List Pattern) (b : Pattern)
      (hp : .alternation branches ∈ p) (hb : b ∈ branches) (h : StandsIn n b) : StandsIn n p

/-- No node at any depth is a redex. -/
def Pattern.NormalForm (p : Pattern) : Prop := ∀ n : Node, n.StandsIn p → ¬ n.Redex

/-! ## Single nodes -/

theorem spread_iff {p : Pattern} : Spread p ↔ ¬ LoneAlternation p := by
  unfold Spread spreadBranch
  constructor
  · intro h hlone
    cases hlone with
    | bare branches =>
        -- the branches would be the alternation itself
        have hsize := congrArg sizeOf (show branches = [[.alternation branches]] from h)
        simp at hsize
        omega
    | grouped branches =>
        have hsize := congrArg sizeOf (show branches = [[.group [.alternation branches]]] from h)
        simp at hsize
        omega
  · intro h
    split
    · exact absurd (.bare _) h
    · exact absurd (.grouped _) h
    · rfl

theorem groupOf_eq_group_iff {p : Pattern} :
    groupOf p = [.group p] ↔ p ≠ [] ∧ ∀ n, p = [n] → ∃ branches, n = .alternation branches := by
  constructor
  · intro h
    refine ⟨?_, ?_⟩
    · rintro rfl
      simp [groupOf] at h
    · rintro n rfl
      cases n with
      | alternation branches => exact ⟨branches, rfl⟩
      | group inner =>
          have hsize := congrArg sizeOf (show [Node.group inner] = [.group [.group inner]] from h)
          simp at hsize
          omega
      | literal | oneOf | repetition | endAnchor => simp [groupOf] at h
  · rintro ⟨hne, hone⟩
    exact groupOf_eq_group hne hone

theorem settled_iff {branches : List Pattern} :
    Settled branches ↔ ¬ (Node.alternation branches).Redex := by
  constructor
  · intro h hredex
    cases hredex with
    | fewBranches _ hfew => exact absurd h.several (by omega)
    | equalBranches _ hequal => exact hequal h.nodup
    | nestedBranch _ p hp hlone => exact spread_iff.1 (h.spread p hp) hlone
    | emptyBranch p q hempty =>
        refine h.nonempty rfl ?_
        rcases hempty with rfl | rfl <;> simp
  · intro h
    refine ⟨?_, ?_, ?_, ?_⟩
    · by_cases hseveral : 1 < branches.length
      · exact hseveral
      · exact absurd (.fewBranches branches (by omega)) h
    · by_cases hnodup : branches.Nodup
      · exact hnodup
      · exact absurd (.equalBranches branches hnodup) h
    · intro p hp
      exact spread_iff.2 fun hlone => h (.nestedBranch branches p hp hlone)
    · intro htwo hempty
      match branches, htwo with
      | [p, q], _ =>
          refine h (.emptyBranch p q ?_)
          simpa [eq_comm] using hempty

/-! ## Whole trees -/

/-- A normal node is no redex. -/
theorem Node.Normal.not_redex {n : Node} (h : n.Normal) : ¬ n.Redex := by
  cases n with
  | literal c => nofun
  | oneOf items => nofun
  | endAnchor => nofun
  | group inner =>
      rw [Node.Normal, groupOf_eq_group_iff] at h
      intro hredex
      cases hredex with
      | emptyGroup => exact h.1.1 rfl
      | groupOfOne n hn =>
          obtain ⟨branches, hbranches⟩ := h.1.2 n rfl
          exact hn branches hbranches
  | repetition min max body =>
      rw [Node.Normal] at h
      obtain ⟨⟨hbody, hmax, honce⟩, -⟩ := h
      intro hredex
      cases hredex with
      | emptyBody => exact hbody rfl
      | never => exact hmax rfl
      | once => exact honce ⟨rfl, rfl⟩
  | alternation branches =>
      rw [Node.Normal] at h
      exact settled_iff.1 h.1

/-- What stands in a sequence stands in every one that has its nodes. -/
theorem Node.StandsIn.mono {n : Node} {p q : Pattern} (h : n.StandsIn p) (hpq : p ⊆ q) :
    n.StandsIn q := by
  cases h with
  | here _ h => exact .here q (hpq h)
  | inGroup _ inner hp h => exact .inGroup q inner (hpq hp) h
  | inBody _ min max body hp h => exact .inBody q min max body (hpq hp) h
  | inBranch _ branches b hp hb h => exact .inBranch q branches b (hpq hp) hb h

/-- Whatever stands in a normal sequence is normal. -/
theorem Node.StandsIn.normal {n : Node} {p : Pattern} (h : n.StandsIn p)
    (hp : Pattern.Normal p) : n.Normal := by
  have hmem : ∀ {q : Pattern} {m : Node}, Pattern.Normal q → m ∈ q → m.Normal := by
    intro q m hq hm
    obtain ⟨before, after, rfl⟩ := append_of_mem hm
    exact (Pattern.normal_cons.1 (Pattern.normal_append.1 hq).2).1
  induction h with
  | here p h => exact hmem hp h
  | inGroup p inner hgroup _ ih =>
      have hgroup := hmem hp hgroup
      rw [Node.Normal] at hgroup
      exact ih hgroup.2
  | inBody p min max body hbody _ ih =>
      have hbody := hmem hp hbody
      rw [Node.Normal] at hbody
      exact ih hbody.2
  | inBranch p branches b halternation hb _ ih =>
      have halternation := hmem hp halternation
      rw [Node.Normal] at halternation
      exact ih (Pattern.normalEach_iff.1 halternation.2 b hb)

mutual

theorem Node.normal_of_normalForm : ∀ n : Node, Pattern.NormalForm [n] → n.Normal
  | .literal _, _ | .oneOf _, _ | .endAnchor, _ => by simp [Node.Normal]
  | .group inner, h => by
      have hself : ¬ (Node.group inner).Redex := h _ (.here _ (by simp))
      have hinner : Pattern.NormalForm inner :=
        fun n hn => h n (.inGroup _ inner (by simp) hn)
      rw [Node.Normal, groupOf_eq_group_iff]
      refine ⟨⟨?_, ?_⟩, Pattern.normal_of_normalForm inner hinner⟩
      · rintro rfl
        exact hself .emptyGroup
      · rintro n rfl
        cases n with
        | alternation branches => exact ⟨branches, rfl⟩
        | literal | oneOf | endAnchor | group | repetition =>
            exact absurd (.groupOfOne _ nofun) hself
  | .repetition min max body, h => by
      have hself : ¬ (Node.repetition min max body).Redex := h _ (.here _ (by simp))
      have hbody : Pattern.NormalForm body :=
        fun n hn => h n (.inBody _ min max body (by simp) hn)
      rw [Node.Normal]
      refine ⟨⟨?_, ?_, ?_⟩, Pattern.normal_of_normalForm body hbody⟩
      · rintro rfl
        exact hself (.emptyBody min max)
      · rintro rfl
        exact hself (.never min body)
      · rintro ⟨rfl, rfl⟩
        exact hself (.once body)
  | .alternation branches, h => by
      have hself : ¬ (Node.alternation branches).Redex := h _ (.here _ (by simp))
      rw [Node.Normal]
      refine ⟨settled_iff.2 hself, Pattern.normalEach_of_normalForm branches ?_⟩
      intro b hb n hn
      exact h n (.inBranch _ branches b (by simp) hb hn)

theorem Pattern.normal_of_normalForm : ∀ p : List Node, Pattern.NormalForm p → Pattern.Normal p
  | [], _ => Pattern.normal_nil
  | n :: p, h => by
      have hnode : Pattern.NormalForm [n] := fun m hm => h m (hm.mono (by simp))
      have hrest : Pattern.NormalForm p := fun m hm => h m (hm.mono (by simp))
      exact Pattern.normal_cons.2
        ⟨n.normal_of_normalForm hnode, Pattern.normal_of_normalForm p hrest⟩

theorem Pattern.normalEach_of_normalForm : ∀ bs : List (List Node),
    (∀ b ∈ bs, Pattern.NormalForm b) → Pattern.NormalEach bs
  | [], _ => by simp [Pattern.NormalEach]
  | b :: bs, h => by
      rw [forall_mem_cons] at h
      rw [Pattern.NormalEach]
      exact ⟨Pattern.normal_of_normalForm b h.1, Pattern.normalEach_of_normalForm bs h.2⟩

end

/-- The trees that no rewriting changes are those without a redex. -/
theorem Pattern.normal_iff_normalForm {p : Pattern} :
    Pattern.Normal p ↔ Pattern.NormalForm p :=
  ⟨fun h _ hn => (hn.normal h).not_redex, Pattern.normal_of_normalForm p⟩

/-- **Simplification computes the normal form.** No redex is left at any depth of a
simplified tree, whatever tree it comes from, and a tree without redexes is left as it is. -/
theorem Pattern.simplify_normalForm (p : Pattern) :
    Pattern.NormalForm (Pattern.simplify p) ∧
      (Pattern.simplify p = p ↔ Pattern.NormalForm p) ∧
      Pattern.simplify (Pattern.simplify p) = Pattern.simplify p :=
  ⟨Pattern.normal_iff_normalForm.1 (Pattern.normal_simplify p),
    Pattern.simplify_eq_self_iff.trans Pattern.normal_iff_normalForm,
    Pattern.simplify_simplify p⟩

/-- In `((a|b)|(b|))` the inner alternation with an empty branch becomes an optional part, and
only then are the branches of the other one joined with it. -/
example : Pattern.simplify [.group [.alternation [[.group [.alternation [[.literal 'a'],
    [.literal 'b']]]], [.group [.alternation [[.literal 'b'], []]]]]]] =
      [.group [.alternation [[.literal 'a'], [.literal 'b'],
        [.repetition 0 (some 1) [.literal 'b']]]]] := by
  rfl

end Guided
