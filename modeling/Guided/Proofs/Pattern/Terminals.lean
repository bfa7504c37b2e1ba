import Guided.Proofs.Pattern.Shape

/-!
# The terminals of a tree

Literals, classes and end anchors are what a tree reads; all other nodes only arrange them.
Derivatives and simplified trees are made of terminals of the tree that they come from. So
what is known of these terminals is known for every residual: where each of them reads some
character, every tree takes some text, however it has been arranged.

## Main definitions

* `Pattern.terminals`: the terminals of a sequence.

## Main statements

* `Pattern.mem_terminals_of_residual`: a residual has no terminals of its own.
* `Pattern.exists_matches`: a tree whose terminals all read something takes some text.
-/
namespace Guided

open List

mutual

/-- The terminals of a node. -/
def Node.terminals : Node → List Node
  | .literal c => [.literal c]
  | .oneOf items => [.oneOf items]
  | .endAnchor => [.endAnchor]
  | .group inner => Pattern.terminals inner
  | .repetition _ _ body => Pattern.terminals body
  | .alternation branches => Pattern.terminalsOfEach branches

/-- The terminals of a sequence, from left to right. -/
def Pattern.terminals : List Node → List Node
  | [] => []
  | node :: rest => node.terminals ++ Pattern.terminals rest

/-- The terminals of branches. -/
def Pattern.terminalsOfEach : List (List Node) → List Node
  | [] => []
  | branch :: rest => Pattern.terminals branch ++ Pattern.terminalsOfEach rest

end

section Members

variable {t n : Node} {p q : Pattern} {bs : List Pattern}

@[simp] theorem Pattern.terminals_nil : Pattern.terminals [] = [] := by
  rw [Pattern.terminals]

@[simp] theorem Pattern.terminals_cons :
    Pattern.terminals (n :: p) = n.terminals ++ Pattern.terminals p := by
  rw [Pattern.terminals]

@[simp] theorem Pattern.terminals_append :
    Pattern.terminals (p ++ q) = Pattern.terminals p ++ Pattern.terminals q := by
  induction p with
  | nil => simp
  | cons n p ih => simp [ih]

@[simp] theorem Pattern.mem_terminalsOfEach :
    t ∈ Pattern.terminalsOfEach bs ↔ ∃ p ∈ bs, t ∈ Pattern.terminals p := by
  induction bs with
  | nil => simp [Pattern.terminalsOfEach]
  | cons b bs ih => simp [Pattern.terminalsOfEach, ih]

/-! ## Simplified trees -/

theorem mem_terminals_groupOf (h : t ∈ Pattern.terminals (groupOf p)) :
    t ∈ Pattern.terminals p := by
  unfold groupOf at h
  split at h
  · exact h
  · simpa [Node.terminals] using h
  · exact h
  · simpa [Node.terminals] using h

theorem mem_terminals_repetitionOf {min : Nat} {max : Option Nat}
    (h : t ∈ Pattern.terminals (repetitionOf min max p)) : t ∈ Pattern.terminals p := by
  rw [repetitionOf] at h
  split at h
  · simp at h
  · split at h
    · exact h
    · simpa [Node.terminals] using h

theorem mem_terminals_optionalOf (h : t ∈ Pattern.terminals (optionalOf p)) :
    t ∈ Pattern.terminals p := by
  rw [optionalOf] at h
  split at h
  all_goals simpa [Node.terminals] using h

theorem mem_terminals_alternationOf (h : t ∈ Pattern.terminals (alternationOf bs)) :
    ∃ p ∈ bs, t ∈ Pattern.terminals p := by
  unfold alternationOf at h
  split at h
  · simp at h
  · exact ⟨_, by simp, h⟩
  · rename_i a b
    split at h
    · exact ⟨b, by simp, mem_terminals_optionalOf h⟩
    · split at h
      · exact ⟨a, by simp, mem_terminals_optionalOf h⟩
      · simpa [Node.terminals] using h
  · simpa [Node.terminals] using h

theorem mem_terminals_spreadBranch (hq : q ∈ spreadBranch p) (h : t ∈ Pattern.terminals q) :
    t ∈ Pattern.terminals p := by
  unfold spreadBranch at hq
  split at hq
  · simpa [Node.terminals] using ⟨q, hq, h⟩
  · simpa [Node.terminals] using ⟨q, hq, h⟩
  · obtain rfl : q = p := by simpa using hq
    exact h

end Members

mutual

theorem Node.mem_terminals_of_simplify {t : Node} : ∀ n : Node,
    t ∈ Pattern.terminals n.simplify → t ∈ n.terminals
  | .literal _, h | .oneOf _, h | .endAnchor, h => by simpa [Node.simplify] using h
  | .group inner, h => by
      rw [Node.simplify] at h
      rw [Node.terminals]
      exact Pattern.mem_terminals_of_simplify inner (mem_terminals_groupOf h)
  | .repetition min max body, h => by
      rw [Node.simplify] at h
      rw [Node.terminals]
      exact Pattern.mem_terminals_of_simplify body (mem_terminals_repetitionOf h)
  | .alternation branches, h => by
      rw [Node.simplify] at h
      rw [Node.terminals, Pattern.mem_terminalsOfEach]
      obtain ⟨q, hq, ht⟩ := mem_terminals_alternationOf h
      exact Pattern.mem_terminals_of_simplifyBranches branches q (Pattern.mem_distinct.1 hq) ht

/-- Simplification makes no terminals. -/
theorem Pattern.mem_terminals_of_simplify {t : Node} : ∀ p : List Node,
    t ∈ Pattern.terminals (Pattern.simplify p) → t ∈ Pattern.terminals p
  | [], h => by rwa [Pattern.simplify] at h
  | n :: p, h => by
      rw [Pattern.simplify, Pattern.terminals_append] at h
      rw [Pattern.terminals_cons]
      rcases mem_append.1 h with h | h
      · exact mem_append_left _ (Node.mem_terminals_of_simplify n h)
      · exact mem_append_right _ (Pattern.mem_terminals_of_simplify p h)

theorem Pattern.mem_terminals_of_simplifyBranches {t : Node} : ∀ bs : List (List Node),
    ∀ q ∈ Pattern.simplifyBranches bs, t ∈ Pattern.terminals q →
      ∃ p ∈ bs, t ∈ Pattern.terminals p
  | [], q, hq, _ => by simp [Pattern.simplifyBranches] at hq
  | b :: bs, q, hq, h => by
      rw [Pattern.simplifyBranches] at hq
      rcases mem_append.1 hq with hq | hq
      · have hb := Pattern.mem_terminals_of_simplify b (mem_terminals_spreadBranch hq h)
        exact ⟨b, mem_cons_self, hb⟩
      · obtain ⟨p, hp, ht⟩ := Pattern.mem_terminals_of_simplifyBranches bs q hq h
        exact ⟨p, mem_cons_of_mem _ hp, ht⟩

end

/-! ## Derivatives -/

theorem mem_terminals_of_joinPaths {t : Node} {paths : List Pattern} {q : Pattern}
    (hq : q ∈ joinPaths paths) (h : t ∈ Pattern.terminals q) :
    ∃ path ∈ paths, t ∈ Pattern.terminals path := by
  rw [joinPaths] at hq
  split at hq
  · simp at hq
  · rename_i path hpaths
    obtain rfl : path = q := by simpa using hq
    exact ⟨path, Pattern.mem_distinct.1 (by simp [hpaths]), h⟩
  · obtain rfl : [Node.alternation (Pattern.distinct paths)] = q := by simpa using hq
    simpa [Node.terminals] using h

theorem mem_terminals_repetitionRest {t : Node} {min : Nat} {max : Option Nat} {body : Pattern}
    (h : t ∈ Pattern.terminals (repetitionRest min max body)) : t ∈ Pattern.terminals body := by
  rw [repetitionRest] at h
  split at h
  · simp at h
  · simpa [Node.terminals] using h

section Derivative

variable (c : Char) {t : Node}

mutual

theorem Node.mem_terminals_of_derivative : ∀ n : Node, ∀ q ∈ n.derivative c,
    t ∈ Pattern.terminals q → t ∈ n.terminals
  | .literal a, q, hq, h => by
      obtain ⟨-, rfl⟩ : a = c ∧ [] = q := by simpa [Node.derivative] using hq
      simp at h
  | .oneOf items, q, hq, h => by
      obtain ⟨-, rfl⟩ : classContains items c = true ∧ [] = q := by
        simpa [Node.derivative] using hq
      simp at h
  | .endAnchor, q, hq, _ => by simp [Node.derivative] at hq
  | .group inner, q, hq, h => by
      rw [Node.derivative] at hq
      obtain ⟨r, hr, rfl⟩ := Option.map_eq_some_iff.1 hq
      have hinner : t ∈ Pattern.terminals r := by simpa [Node.terminals] using h
      obtain ⟨path, hpath, ht⟩ := mem_terminals_of_joinPaths hr hinner
      rw [Node.terminals]
      exact Pattern.mem_terminals_of_paths inner path hpath ht
  | .repetition min max body, q, hq, h => by
      rw [Node.derivative] at hq
      rw [Node.terminals]
      split at hq
      · simp at hq
      · obtain ⟨r, hr, rfl⟩ := Option.map_eq_some_iff.1 hq
        rw [Pattern.terminals_append] at h
        rcases mem_append.1 h with h | h
        · obtain ⟨path, hpath, ht⟩ := mem_terminals_of_joinPaths hr h
          exact Pattern.mem_terminals_of_paths body path hpath ht
        · exact mem_terminals_repetitionRest h
  | .alternation branches, q, hq, h => by
      rw [Node.derivative] at hq
      split at hq
      · simp at hq
      · obtain rfl : [Node.alternation (Pattern.survivors c branches)] = q := by simpa using hq
        obtain ⟨r, hr, ht⟩ : ∃ r ∈ Pattern.survivors c branches, t ∈ Pattern.terminals r := by
          simpa [Node.terminals] using h
        rw [Node.terminals, Pattern.mem_terminalsOfEach]
        exact Pattern.mem_terminals_of_survivors branches r hr ht

theorem Pattern.mem_terminals_of_paths : ∀ p : List Node, ∀ path ∈ Pattern.paths c p,
    t ∈ Pattern.terminals path → t ∈ Pattern.terminals p
  | [], path, hpath, _ => by simp [Pattern.paths] at hpath
  | n :: p, path, hpath, h => by
      rw [Pattern.terminals_cons]
      rw [Pattern.paths] at hpath
      rcases mem_append.1 hpath with hpath | hpath
      · obtain ⟨q, hq, rfl⟩ := Option.map_eq_some_iff.1 (Option.mem_toList.1 hpath)
        rw [Pattern.terminals_append] at h
        rcases mem_append.1 h with h | h
        · exact mem_append_left _ (Node.mem_terminals_of_derivative n q hq h)
        · exact mem_append_right _ h
      · split at hpath
        · exact mem_append_right _ (Pattern.mem_terminals_of_paths p path hpath h)
        · simp at hpath

theorem Pattern.mem_terminals_of_survivors : ∀ bs : List (List Node),
    ∀ q ∈ Pattern.survivors c bs, t ∈ Pattern.terminals q → ∃ p ∈ bs, t ∈ Pattern.terminals p
  | [], q, hq, _ => by simp [Pattern.survivors] at hq
  | b :: bs, q, hq, h => by
      rw [Pattern.survivors] at hq
      rcases mem_append.1 hq with hq | hq
      · obtain ⟨path, hpath, ht⟩ := mem_terminals_of_joinPaths (Option.mem_toList.1 hq) h
        exact ⟨b, mem_cons_self, Pattern.mem_terminals_of_paths b path hpath ht⟩
      · obtain ⟨p, hp, ht⟩ := Pattern.mem_terminals_of_survivors bs q hq h
        exact ⟨p, mem_cons_of_mem _ hp, ht⟩

end

end Derivative

/-- A residual has no terminals but those of the pattern it comes from. -/
theorem Pattern.mem_terminals_of_residual {t : Node} {text : List Char} {p q : Pattern}
    (hq : q ∈ Pattern.residual p text) (h : t ∈ Pattern.terminals q) :
    t ∈ Pattern.terminals p := by
  induction text generalizing p with
  | nil =>
      obtain rfl : p = q := by simpa using hq
      exact h
  | cons c text ih =>
      rw [Pattern.residual_cons, Option.mem_def, Option.bind_eq_some_iff] at hq
      obtain ⟨r, hr, hrest⟩ := hq
      obtain ⟨d, hd, rfl⟩ := Option.map_eq_some_iff.1 hr
      have hderived := Pattern.mem_terminals_of_simplify d (ih hrest)
      obtain ⟨path, hpath, ht⟩ := mem_terminals_of_joinPaths hd hderived
      exact Pattern.mem_terminals_of_paths c p path hpath ht

/-! ## Taking some text -/

/-- The node reads some character, whatever comes after it. -/
def Node.Reads (n : Node) : Prop := ∃ c : Char, ∀ rest, n.Matches [c] rest

/-- A relation that holds of a text before every rest holds of it any number of times. -/
theorem times_flatten {R : List Char → List Char → Prop} {u : List Char}
    (h : ∀ rest, R u rest) (n : Nat) (rest : List Char) :
    Times R n (replicate n u).flatten rest := by
  induction n with
  | zero => simp
  | succ n ih => exact times_succ.2 ⟨u, _, by simp [replicate_succ], h _, ih⟩

mutual

theorem Node.exists_matches : ∀ n : Node, n.WellFormed → (∀ t ∈ n.terminals, t.Reads) →
    ∃ u, ∀ rest, n.Matches u rest
  | .literal c, _, _ => ⟨[c], by simp⟩
  | .oneOf items, _, h => by
      obtain ⟨c, hc⟩ := h (.oneOf items) (by simp [Node.terminals])
      exact ⟨[c], hc⟩
  | .endAnchor, _, h => by
      obtain ⟨c, hc⟩ := h .endAnchor (by simp [Node.terminals])
      exact ⟨[c], hc⟩
  | .group inner, hwell, h => by
      rw [Node.WellFormed] at hwell
      rw [Node.terminals] at h
      obtain ⟨u, hu⟩ := Pattern.exists_matches inner hwell h
      exact ⟨u, by simpa using hu⟩
  | .repetition min max body, hwell, h => by
      rw [Node.WellFormed] at hwell
      rw [Node.terminals] at h
      obtain ⟨u, hu⟩ := Pattern.exists_matches body hwell.2 h
      refine ⟨(replicate min u).flatten, ?_⟩
      intro rest
      exact Node.matches_repetition.2 ⟨min, Nat.le_refl min, hwell.1, times_flatten hu min rest⟩
  | .alternation branches, hwell, h => by
      rw [Node.WellFormed] at hwell
      match branches, hwell with
      | [], hwell => exact absurd rfl hwell.1
      | branch :: branches, hwell =>
          rw [Pattern.WellFormedEach] at hwell
          have hbranch : ∀ t ∈ Pattern.terminals branch, t.Reads := by
            intro t ht
            exact h t (by simp [Node.terminals, ht])
          obtain ⟨u, hu⟩ := Pattern.exists_matches branch hwell.2.1 hbranch
          exact ⟨u, fun rest => Node.matches_alternation.2 ⟨branch, mem_cons_self, hu rest⟩⟩

/-- A tree whose terminals all read something takes some text before every rest. -/
theorem Pattern.exists_matches : ∀ p : List Node, Pattern.WellFormed p →
    (∀ t ∈ Pattern.terminals p, t.Reads) → ∃ u, ∀ rest, Pattern.Matches p u rest
  | [], _, _ => ⟨[], by simp⟩
  | n :: p, hwell, h => by
      rw [Pattern.wellFormed_cons] at hwell
      rw [Pattern.terminals_cons, forall_mem_append] at h
      obtain ⟨v, hv⟩ := Node.exists_matches n hwell.1 h.1
      obtain ⟨w, hw⟩ := Pattern.exists_matches p hwell.2 h.2
      refine ⟨v ++ w, fun rest => ?_⟩
      exact (Pattern.matches_cons n p (v ++ w) rest).2 ⟨v, w, rfl, hv _, hw rest⟩

end

/-! ## Terminals of trees that can be written -/

theorem ClassItem.Ordered.exists_contains {item : ClassItem} (h : item.Ordered) :
    ∃ c, item.contains c = true := by
  cases item with
  | single a => exact ⟨a, by simp [ClassItem.contains]⟩
  | range low high =>
      have hle : low ≤ high := h
      exact ⟨low, by simp [ClassItem.contains, hle]⟩

mutual

theorem Node.reads_of_mem_terminals {tidy : Bool} {t : Node} : ∀ (n : Node) {siblings : Bool},
    n.Shaped tidy siblings → t ∈ n.terminals → t ≠ .endAnchor → t.Reads
  | .literal c, _, _, ht, _ => by
      obtain rfl : t = .literal c := by simpa [Node.terminals] using ht
      exact ⟨c, by simp⟩
  | .oneOf items, _, h, ht, _ => by
      obtain rfl : t = .oneOf items := by simpa [Node.terminals] using ht
      rw [Node.Shaped] at h
      obtain ⟨item, hitem⟩ := exists_mem_of_ne_nil items h.1
      obtain ⟨c, hc⟩ := (h.2 item hitem).exists_contains
      exact ⟨c, fun rest => Node.matches_oneOf.2 ⟨c, rfl, any_eq_true.2 ⟨item, hitem, hc⟩⟩⟩
  | .endAnchor, _, _, ht, hne => absurd (by simpa [Node.terminals] using ht) hne
  | .group inner, _, h, ht, hne => by
      rw [Node.Shaped] at h
      rw [Node.terminals] at ht
      exact Pattern.reads_of_mem_terminals inner h ht hne
  | .repetition min max body, _, h, ht, hne => by
      rw [Node.Shaped] at h
      rw [Node.terminals] at ht
      exact Pattern.reads_of_mem_terminals body h.2 ht hne
  | .alternation branches, _, h, ht, hne => by
      rw [Node.Shaped] at h
      rw [Node.terminals] at ht
      exact Pattern.reads_of_mem_terminalsOfEach branches h.2 ht hne

/-- Classes that can be written are not empty, so that the end anchor is the only terminal
of such a tree that reads nothing. -/
theorem Pattern.reads_of_mem_terminals {tidy : Bool} {t : Node} : ∀ (p : List Node)
    {siblings : Bool}, Pattern.ShapedAmong tidy siblings p → t ∈ Pattern.terminals p →
      t ≠ .endAnchor → t.Reads
  | [], _, _, ht, _ => by simp at ht
  | n :: p, _, h, ht, hne => by
      rw [Pattern.shapedAmong_cons] at h
      rw [Pattern.terminals_cons] at ht
      rcases mem_append.1 ht with ht | ht
      · exact Node.reads_of_mem_terminals n h.1 ht hne
      · exact Pattern.reads_of_mem_terminals p h.2 ht hne

theorem Pattern.reads_of_mem_terminalsOfEach {tidy : Bool} {t : Node} :
    ∀ bs : List (List Node), Pattern.ShapedEach tidy bs → t ∈ Pattern.terminalsOfEach bs →
      t ≠ .endAnchor → t.Reads
  | [], _, ht, _ => by simp at ht
  | b :: bs, h, ht, hne => by
      rw [Pattern.ShapedEach] at h
      rw [Pattern.terminalsOfEach] at ht
      rcases mem_append.1 ht with ht | ht
      · exact Pattern.reads_of_mem_terminals b h.1 ht hne
      · exact Pattern.reads_of_mem_terminalsOfEach bs h.2 ht hne

end

end Guided
