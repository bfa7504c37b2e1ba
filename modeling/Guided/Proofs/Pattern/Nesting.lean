import Guided.Pattern.Limits
import Guided.Proofs.Pattern.Shape

/-!
# How deep printed patterns are nested

Reading counts the groups around a place; whole-text matching counts groups, repetitions,
alternatives, concatenations and classes. In a pattern that has been read at most four levels
come with each group: what is in it, its alternatives, the concatenation in one of them, and
the repetition of a group in that.

## Main definitions

* `Pattern.RepeatsAtoms`: repetitions are those of a character, a class or a group.

## Main statements

* `Pattern.nesting_le_of_ofChars`: levels of a pattern that has been read, from its groups.
-/
namespace Guided

mutual

/-- All repetitions in a node are those of a character, a class or a group. -/
def Node.RepeatsAtoms : Node → Prop
  | .literal _ | .oneOf _ | .endAnchor => True
  | .repetition _ _ body => Pattern.isAtom body = true ∧ Pattern.RepeatsAtoms body
  | .alternation branches => Pattern.EachRepeatsAtoms branches
  | .group inner => Pattern.RepeatsAtoms inner

/-- All repetitions in a sequence are those of a character, a class or a group. -/
def Pattern.RepeatsAtoms : List Node → Prop
  | [] => True
  | node :: rest => node.RepeatsAtoms ∧ Pattern.RepeatsAtoms rest

/-- All repetitions in branches are those of a character, a class or a group. -/
def Pattern.EachRepeatsAtoms : List (List Node) → Prop
  | [] => True
  | branch :: rest => Pattern.RepeatsAtoms branch ∧ Pattern.EachRepeatsAtoms rest

end

theorem Pattern.repeatsAtoms_ofBranches {branch : Pattern} {more : List Pattern} :
    Pattern.RepeatsAtoms (Pattern.ofBranches branch more) ↔
      Pattern.RepeatsAtoms branch ∧ Pattern.EachRepeatsAtoms more := by
  cases more with
  | nil => simp [Pattern.ofBranches, Pattern.EachRepeatsAtoms]
  | cons b bs =>
      simp [Pattern.ofBranches, Pattern.RepeatsAtoms, Node.RepeatsAtoms, Pattern.EachRepeatsAtoms]

/-! ## Patterns that have been read -/

theorem repeatsAtoms_of_readQuantified {atom node : Node} {s rest : List Char}
    (h : readQuantified atom s = .ok (node, rest)) (hatom : atom.RepeatsAtoms)
    (hkind : atom ≠ .endAnchor → Pattern.isAtom [atom] = true) : node.RepeatsAtoms := by
  rcases readQuantified_cases h with ⟨-, rfl, -⟩ | ⟨min, max, -, hanchor, -, rfl⟩
  · exact hatom
  · rw [Node.RepeatsAtoms]
    exact ⟨hkind hanchor, by simpa [Pattern.RepeatsAtoms] using hatom⟩

theorem keptByReading_repeatsAtoms : KeptByReading fun _ branch more _ =>
    Pattern.RepeatsAtoms branch ∧ Pattern.EachRepeatsAtoms more where
  closed s := by simp [Pattern.RepeatsAtoms, Pattern.EachRepeatsAtoms]
  bar s branch more rest ih := by
    rw [Pattern.EachRepeatsAtoms]
    exact ⟨by simp [Pattern.RepeatsAtoms], ih⟩
  atom c s atom t node t' p more rest hatom hquantified ih := by
    have hkind : atom.RepeatsAtoms ∧ (atom ≠ .endAnchor → Pattern.isAtom [atom] = true) := by
      rcases readAtom_cases hatom with
        ⟨items, -, -, -, rfl⟩ | ⟨d, -, -, rfl⟩ | ⟨-, rfl, -⟩ | ⟨-, rfl, -⟩
      all_goals simp [Node.RepeatsAtoms, Pattern.isAtom]
    rw [Pattern.RepeatsAtoms]
    exact ⟨⟨repeatsAtoms_of_readQuantified hquantified hkind.1 hkind.2, ih.1⟩, ih.2⟩
  group levels s inside b m t node t' p more rest hopen ihinside hquantified ih := by
    have hgroup : (Node.group (Pattern.ofBranches b m)).RepeatsAtoms := by
      rw [Node.RepeatsAtoms]
      exact Pattern.repeatsAtoms_ofBranches.2 ihinside
    rw [Pattern.RepeatsAtoms]
    exact ⟨⟨repeatsAtoms_of_readQuantified hquantified hgroup (fun _ => rfl), ih.1⟩, ih.2⟩

theorem Pattern.repeatsAtoms_of_ofChars {s : List Char} {p : Pattern}
    (h : Pattern.ofChars s = .ok p) : Pattern.RepeatsAtoms p := by
  obtain ⟨-, branch, more, hread, rfl⟩ := Pattern.ofChars_eq_ok_iff.1 h
  exact Pattern.repeatsAtoms_ofBranches.2 (keptByReading_repeatsAtoms.of_readBranches hread)

/-! ## Levels -/

/-- Levels that a node brings with it besides its groups, at most. -/
def Node.levels : Node → Nat
  | .literal _ | .oneOf _ | .group _ | .endAnchor => 2
  | .repetition _ _ _ => 3
  | .alternation _ => 5

/-- Levels that the nodes of a sequence bring with them, at most. -/
def Pattern.levels (p : Pattern) : Nat := p.foldr (fun node levels => max node.levels levels) 0

theorem Pattern.levels_cons (n : Node) (p : Pattern) :
    Pattern.levels (n :: p) = max n.levels (Pattern.levels p) := rfl

theorem Pattern.levels_le (p : Pattern) : Pattern.levels p ≤ 5 := by
  induction p with
  | nil => decide
  | cons n p ih =>
      rw [Pattern.levels_cons]
      cases n <;> simp only [Node.levels] <;> omega

/-- An alternation has no siblings. -/
theorem Pattern.Plain.levels_le {p : Pattern} (h : Pattern.Plain true p) :
    Pattern.levels p ≤ 3 := by
  induction p with
  | nil => decide
  | cons n p ih =>
      obtain ⟨hn, hp⟩ := Pattern.shapedAmong_cons.1 h
      have hrest := ih hp
      rw [Pattern.levels_cons]
      cases n with
      | alternation branches => simp [Node.Shaped] at hn
      | _ =>
          simp only [Node.levels]
          omega

theorem Pattern.levels_of_isAtom {p : Pattern} (h : Pattern.isAtom p = true) :
    Pattern.levels p = 2 := by
  unfold Pattern.isAtom at h
  split at h
  · rfl
  · rfl
  · rfl
  · simp at h

/-- A sequence of several nodes is a concatenation, which has no alternation in it. -/
theorem Pattern.Shaped.levels_le {p : Pattern} (h : Pattern.Shaped true p) :
    (if Pattern.hasSiblings p then 1 else 0) + Pattern.levels p ≤ 5 := by
  rw [Pattern.Shaped] at h
  split
  · rename_i hsiblings
    have hplain := Pattern.Plain.levels_le (hsiblings ▸ h)
    omega
  · rw [Nat.zero_add]
    exact Pattern.levels_le p

mutual

/-- A repetition has a level more than what it repeats, and an alternation, which stands
alone, has a level more than its branches. -/
theorem Node.nesting_le : ∀ (n : Node) {siblings : Bool}, n.Shaped true siblings →
    n.RepeatsAtoms → n.nesting siblings ≤ n.levels + 4 * n.groupDepth
  | .literal c, siblings, _, _ => by
      rw [Node.nesting]
      exact Nat.zero_le _
  | .endAnchor, siblings, _, _ => by
      rw [Node.nesting]
      exact Nat.zero_le _
  | .oneOf items, siblings, _, _ => by
      rw [Node.nesting, classNesting, Node.levels]
      split <;> omega
  | .repetition min max body, siblings, h, hr => by
      rw [Node.Shaped] at h
      rw [Node.RepeatsAtoms] at hr
      have halone : Pattern.hasSiblings body = false := by simp [Pattern.hasSiblings, h.1.2]
      have hbody := Pattern.sequenceNesting_le body (Pattern.Plain.shaped h.2) hr.2
      rw [halone, if_neg Bool.false_ne_true, Pattern.levels_of_isAtom hr.1] at hbody
      rw [Node.nesting, halone, if_pos hr.1, Node.groupDepth, Node.levels]
      split <;> omega
  | .alternation branches, siblings, h, hr => by
      rw [Node.Shaped] at h
      rw [Node.RepeatsAtoms] at hr
      obtain rfl : siblings = false := h.1.1
      have hbranches := Pattern.branchNesting_le branches h.2 hr
      rw [Node.nesting, if_neg Bool.false_ne_true, Node.groupDepth, Node.levels]
      split <;> omega
  | .group inner, siblings, h, hr => by
      rw [Node.Shaped] at h
      rw [Node.RepeatsAtoms] at hr
      have hinner := Pattern.sequenceNesting_le inner h hr
      have hlevels := Pattern.Shaped.levels_le h
      rw [Node.nesting, Node.groupDepth, Node.levels]
      omega

theorem Pattern.sequenceNesting_le : ∀ (p : List Node) {siblings : Bool},
    Pattern.ShapedAmong true siblings p → Pattern.RepeatsAtoms p →
      Pattern.sequenceNesting siblings p ≤
        (if siblings then 1 else 0) + Pattern.levels p + 4 * Pattern.groupDepth p
  | [], siblings, _, _ => by
      rw [Pattern.sequenceNesting]
      exact Nat.zero_le _
  | n :: p, siblings, h, hr => by
      rw [Pattern.shapedAmong_cons] at h
      rw [Pattern.RepeatsAtoms] at hr
      have hnode := n.nesting_le h.1 hr.1
      have hrest := Pattern.sequenceNesting_le p h.2 hr.2
      rw [Pattern.sequenceNesting, Pattern.levels_cons, Pattern.groupDepth]
      refine Nat.max_le.2 ⟨?_, ?_⟩ <;> omega

theorem Pattern.branchNesting_le : ∀ bs : List (List Node), Pattern.ShapedEach true bs →
    Pattern.EachRepeatsAtoms bs →
      Pattern.branchNesting bs ≤ 4 + 4 * Pattern.groupDepthOfAny bs
  | [], _, _ => by
      rw [Pattern.branchNesting]
      exact Nat.zero_le _
  | b :: bs, h, hr => by
      rw [Pattern.ShapedEach] at h
      rw [Pattern.EachRepeatsAtoms] at hr
      have hplain : Pattern.Plain true b := h.1
      have hbranch := Pattern.sequenceNesting_le b hplain.shaped hr.1
      have hlevels := hplain.levels_le
      have hrest := Pattern.branchNesting_le bs h.2 hr.2
      rw [Pattern.branchNesting, Pattern.groupDepthOfAny]
      refine Nat.max_le.2 ⟨?_, by omega⟩
      split at hbranch <;> omega

end

/-- At most four levels for a group, and five without any. -/
theorem Pattern.nesting_le_of_ofChars {s : List Char} {p : Pattern}
    (h : Pattern.ofChars s = .ok p) : Pattern.nesting p ≤ 5 + 4 * Pattern.groupDepth p := by
  have hshaped := Pattern.shaped_of_ofChars h
  have hlevels := Pattern.Shaped.levels_le hshaped
  have hnesting := Pattern.sequenceNesting_le p hshaped (Pattern.repeatsAtoms_of_ofChars h)
  rw [Pattern.nesting]
  omega

end Guided
