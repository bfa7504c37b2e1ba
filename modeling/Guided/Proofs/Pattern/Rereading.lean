import Guided.Proofs.Pattern.Printing

/-!
# Trees that printed texts spell

The tree that a printed text spells has groups that the printed tree has not, and lacks
repetitions of exactly once. Simplification drops both, and printing never tells them from
parentheses that it writes anyway.

## Main statements

* `Pattern.simplify_reread`: the reread tree simplifies like the printed one.
* `Pattern.chars_reread`: it prints like the printed one.
-/
namespace Guided

open List

/-! ## Simplifying -/

/-- A group around what is no more than one node, and no alternation, goes. -/
theorem groupOf_eq_self {tidy : Bool} {p : Pattern} (h : Pattern.Plain tidy p)
    (hp : p.length ≤ 1) : groupOf p = p := by
  unfold groupOf
  split
  · rfl
  · simp [Pattern.Plain, Node.Shaped] at h
  · rfl
  · rename_i hnil _ hsingle
    rcases p with _ | ⟨n, _ | ⟨m, p⟩⟩
    · exact absurd rfl hnil
    · exact absurd rfl (hsingle n)
    · simp at hp

theorem repetitionOf_once (p : Pattern) : repetitionOf 1 (some 1) p = p := by
  cases p with
  | nil => simp [repetitionOf]
  | cons n p => simp [repetitionOf]

mutual

theorem Node.simplify_reread : ∀ (n : Node) {siblings : Bool}, n.Shaped true siblings →
    Pattern.simplify n.reread = n.simplify
  | .literal c, _, _ => by simp [Node.reread, Pattern.simplify]
  | .oneOf items, _, _ => by simp [Node.reread, Pattern.simplify]
  | .endAnchor, _, _ => by simp [Node.reread, Pattern.simplify]
  | .group inner, _, h => by
      rw [Node.Shaped] at h
      simp [Node.reread, Pattern.simplify, Node.simplify, Pattern.simplify_rereadAmong inner h]
  | .repetition min max body, _, h => by
      rw [Node.Shaped] at h
      obtain ⟨⟨-, hone⟩, hbody⟩ := h
      have hsame := Pattern.simplify_rereadAmong body hbody
      have hloose := Pattern.loose_of_tidy body hbody
      obtain ⟨hplain, hlength⟩ := (Pattern.shaped_simplifyAmong body hloose (fun _ => rfl)).2 rfl
      have hatom : Pattern.simplify (if Pattern.isAtom body then Pattern.reread body
          else [.group (Pattern.reread body)]) = Pattern.simplify body := by
        split
        · exact hsame
        · rw [Pattern.simplify, Pattern.simplify, Node.simplify, append_nil, hsame]
          exact groupOf_eq_self hplain (by omega)
      rw [Node.reread]
      split
      · rename_i honce
        rw [hatom, Node.simplify, honce.1, honce.2, repetitionOf_once]
      · rw [Pattern.simplify, Pattern.simplify, append_nil, Node.simplify, Node.simplify, hatom]
  | .alternation branches, _, h => by
      rw [Node.Shaped] at h
      simp [Node.reread, Pattern.simplify, Node.simplify,
        Pattern.simplifyBranches_reread branches h.2]

theorem Pattern.simplify_rereadAmong : ∀ (p : List Node) {siblings : Bool},
    Pattern.ShapedAmong true siblings p →
    Pattern.simplify (Pattern.reread p) = Pattern.simplify p
  | [], _, _ => by rw [Pattern.reread]
  | n :: p, _, h => by
      rw [Pattern.shapedAmong_cons] at h
      rw [Pattern.reread, Pattern.simplify_append, Pattern.simplify, n.simplify_reread h.1,
        Pattern.simplify_rereadAmong p h.2]

theorem Pattern.simplifyBranches_reread : ∀ bs : List (List Node), Pattern.ShapedEach true bs →
    Pattern.simplifyBranches (Pattern.rereadEach bs) = Pattern.simplifyBranches bs
  | [], _ => by rw [Pattern.rereadEach]
  | b :: bs, h => by
      rw [Pattern.ShapedEach] at h
      rw [Pattern.rereadEach, Pattern.simplifyBranches, Pattern.simplifyBranches,
        Pattern.simplify_rereadAmong b h.1, Pattern.simplifyBranches_reread bs h.2]

end

/-- The reread tree is simplified like the printed one. -/
theorem Pattern.simplify_reread {p : Pattern} (h : Pattern.Shaped true p) :
    Pattern.simplify (Pattern.reread p) = Pattern.simplify p :=
  Pattern.simplify_rereadAmong p h

/-! ## Printing -/

mutual

theorem Node.length_reread : ∀ (n : Node) {siblings : Bool}, n.Shaped true siblings →
    n.reread.length = 1
  | .literal c, _, _ => by simp [Node.reread]
  | .oneOf items, _, _ => by simp [Node.reread]
  | .endAnchor, _, _ => by simp [Node.reread]
  | .group inner, _, _ => by simp [Node.reread]
  | .alternation branches, _, _ => by simp [Node.reread]
  | .repetition min max body, _, h => by
      rw [Node.Shaped] at h
      have hbody := Pattern.length_reread body h.2
      have hone := h.1.2
      rw [Node.reread]
      split
      · split
        · omega
        · rfl
      · rfl

/-- Every node of a tidy tree is read as one node. -/
theorem Pattern.length_reread : ∀ (p : List Node) {siblings : Bool},
    Pattern.ShapedAmong true siblings p → (Pattern.reread p).length = p.length
  | [], _, _ => by simp [Pattern.reread]
  | n :: p, _, h => by
      rw [Pattern.shapedAmong_cons] at h
      rw [Pattern.reread, length_append, n.length_reread h.1, Pattern.length_reread p h.2,
        length_cons, Nat.add_comm]

end

theorem Pattern.hasSiblings_reread {siblings : Bool} {p : Pattern}
    (h : Pattern.ShapedAmong true siblings p) :
    Pattern.hasSiblings (Pattern.reread p) = Pattern.hasSiblings p := by
  rw [Pattern.hasSiblings, Pattern.hasSiblings, Pattern.length_reread p h]

theorem Pattern.isAtom_reread {p : Pattern} (h : Pattern.isAtom p = true) :
    Pattern.isAtom (Pattern.reread p) = true := by
  unfold Pattern.isAtom at h
  split at h
  · simp [Pattern.reread, Node.reread, Pattern.isAtom]
  · simp [Pattern.reread, Node.reread, Pattern.isAtom]
  · simp [Pattern.reread, Node.reread, Pattern.isAtom]
  · simp at h

mutual

theorem Node.chars_reread : ∀ (n : Node) {siblings : Bool}, n.Shaped true siblings →
    Pattern.charsAmong siblings n.reread = n.chars siblings
  | .literal c, _, _ => by simp [Node.reread, Pattern.charsAmong]
  | .oneOf items, _, _ => by simp [Node.reread, Pattern.charsAmong]
  | .endAnchor, _, _ => by simp [Node.reread, Pattern.charsAmong]
  | .group inner, _, h => by
      rw [Node.Shaped] at h
      simp [Node.reread, Pattern.charsAmong, Node.chars, Pattern.hasSiblings_reread h,
        Pattern.charsAmong_reread inner h]
  | .repetition min max body, siblings, h => by
      rw [Node.Shaped] at h
      have hbody : Pattern.Plain true body := h.2
      have hsame : ∀ siblings, Pattern.charsAmong siblings (Pattern.reread body) =
          Pattern.charsAmong true body := by
        intro siblings
        rw [Pattern.charsAmong_reread body hbody.among, hbody.charsAmong_eq]
      rw [Node.chars, Node.reread]
      rw [hbody.charsAmong_eq]
      by_cases hatom : Pattern.isAtom body = true
      · rw [if_pos hatom, if_pos hatom]
        split
        · rename_i honce
          rw [honce.1, honce.2, quantifierChars_once, append_nil, hsame]
        · simp [Pattern.charsAmong, Node.chars, Pattern.isAtom_reread hatom, hsame]
      · have hgroup : ∀ siblings, Pattern.charsAmong siblings [.group (Pattern.reread body)] =
            '(' :: Pattern.charsAmong true body ++ [')'] := by
          intro siblings
          simp [Pattern.charsAmong, Node.chars, hsame]
        rw [if_neg hatom, if_neg hatom]
        split
        · rename_i honce
          rw [honce.1, honce.2, quantifierChars_once, append_nil, hgroup]
        · rw [Pattern.charsAmong, Pattern.charsAmong, append_nil, Node.chars, hgroup]
          simp [Pattern.isAtom]
  | .alternation branches, _, h => by
      rw [Node.Shaped] at h
      simp [Node.reread, Pattern.charsAmong, Node.chars, Pattern.branchChars_reread branches h.2]

theorem Pattern.charsAmong_reread : ∀ (p : List Node) {siblings : Bool},
    Pattern.ShapedAmong true siblings p →
    Pattern.charsAmong siblings (Pattern.reread p) = Pattern.charsAmong siblings p
  | [], _, _ => by rw [Pattern.reread]
  | n :: p, _, h => by
      rw [Pattern.shapedAmong_cons] at h
      rw [Pattern.reread, Pattern.charsAmong_append, Pattern.charsAmong, n.chars_reread h.1,
        Pattern.charsAmong_reread p h.2]

theorem Pattern.branchChars_reread : ∀ bs : List (List Node), Pattern.ShapedEach true bs →
    Pattern.branchChars (Pattern.rereadEach bs) = Pattern.branchChars bs
  | [], _ => by rw [Pattern.rereadEach]
  | [b], h => by
      rw [Pattern.ShapedEach] at h
      have hb : Pattern.Plain true b := h.1
      rw [Pattern.rereadEach, Pattern.rereadEach, Pattern.branchChars, Pattern.branchChars,
        Pattern.hasSiblings_reread hb, Pattern.charsAmong_reread b hb.among]
  | b :: b' :: bs, h => by
      rw [Pattern.ShapedEach] at h
      have hb : Pattern.Plain true b := h.1
      have hmore := Pattern.branchChars_reread (b' :: bs) h.2
      rw [Pattern.rereadEach] at hmore
      rw [Pattern.rereadEach, Pattern.rereadEach, Pattern.branchChars, Pattern.branchChars, hmore,
        Pattern.hasSiblings_reread hb, Pattern.charsAmong_reread b hb.among]

end

/-- The reread tree is printed like the tree that was printed. -/
theorem Pattern.chars_reread {p : Pattern} (h : Pattern.Shaped true p) :
    Pattern.chars (Pattern.reread p) = Pattern.chars p := by
  rw [Pattern.chars, Pattern.chars, Pattern.hasSiblings_reread h, Pattern.charsAmong_reread p h]

end Guided
