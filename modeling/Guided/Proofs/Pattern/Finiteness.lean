import Guided.Pattern.Regex
import Guided.Proofs.Pattern.Assembling
import Mathlib.Data.Finite.Prod
import Mathlib.Order.Interval.Finset.Nat

/-!
# A pattern has finitely many residuals

However long the text is that a pattern follows, what is left of it is one of finitely many
trees. A set that holds them is built along the pattern: behind a sequence stand ends of it,
behind a repetition a repetition with smaller bounds, and a group or an alternation leaves
what is assembled from finitely many branches.

## Main definitions

* `Pattern.Compact`: patterns that a finite closed set holds all paths of.
* `Regex.residuals`: the trees that a regex leaves behind texts.

## Main statements

* `Pattern.compact`: every pattern is compact.
* `Regex.finite_residuals`: a regex has finitely many residuals.
-/
namespace Guided

open List

namespace Pattern

/-- The simplified pattern is in the set, and so is what is left behind each of its paths. -/
structure Enters (p : Pattern) (T : Set Pattern) : Prop where
  self : Pattern.simplify p ∈ T
  paths : ∀ c, ∀ path ∈ Pattern.paths c p, Pattern.simplify path ∈ T

/-- Some finite set holds what the pattern ever leads to along single paths. -/
def Compact (p : Pattern) : Prop := ∃ T : Set Pattern, T.Finite ∧ Closed T ∧ Enters p T

section Sets

variable {T U S : Set Pattern} {p q : Pattern} {c : Char}

theorem Enters.mono (h : Enters p T) (hTU : T ⊆ U) : Enters p U where
  self := hTU h.self
  paths c path hpath := hTU (h.paths c path hpath)

theorem Closed.union (hT : Closed T) (hU : Closed U) : Closed (T ∪ U) where
  paths p hp c path hpath := hp.imp
    (fun hp => hT.paths p hp c path hpath) fun hp => hU.paths p hp c path hpath
  branches p hp b hb := hp.imp (fun hp => hT.branches p hp b hb) fun hp => hU.branches p hp b hb

theorem subset_assembled (T : Set Pattern) : T ⊆ {p | Assembled T p} :=
  fun p hp => assembled_of_branch (.plain p hp)

/-- What is left of a pattern, however many paths it takes, is assembled over a closed set
that holds what is left behind each of them. -/
theorem Closed.assembled_of_step (hT : Closed T) (h : Enters p T)
    (hq : Pattern.step p c = some q) : Assembled T q :=
  assembled_of_branches (Pattern.normal_of_step hq) (hT.branch_of_step (h.paths c) hq)

/-- A path through two parts goes through the first one, or through the second one if the
first can be skipped. -/
theorem paths_append (c : Char) (p q : Pattern) :
    Pattern.paths c (p ++ q) = (Pattern.paths c p).map (· ++ q) ++
      if Pattern.skippable p then Pattern.paths c q else [] := by
  induction p with
  | nil => simp [Pattern.paths, Pattern.skippable]
  | cons n p ih =>
      rw [cons_append, Pattern.paths, Pattern.paths, ih, Pattern.skippable]
      cases n.derivative c <;> cases n.skippable <;> simp

/-- The members of a closed set with ends behind them, beside another closed set. -/
theorem Closed.append (hT : Closed T) (hU : Closed U) (hTU : T ⊆ U)
    (hnormal : ∀ s ∈ S, Pattern.Normal s)
    (hpaths : ∀ s ∈ S, ∀ c, ∀ path ∈ Pattern.paths c s,
      Pattern.simplify path ∈ Set.image2 (· ++ ·) T S ∪ U)
    (hbranches : ∀ s ∈ S, ∀ b ∈ spreadBranch s, b ∈ Set.image2 (· ++ ·) T S ∪ U) :
    Closed (Set.image2 (· ++ ·) T S ∪ U) where
  paths p hp c path hpath := by
    rcases hp with ⟨x, hx, s, hs, rfl⟩ | hp
    · simp only [paths_append] at hpath
      rcases mem_append.1 hpath with hpath | hpath
      · obtain ⟨first, hfirst, rfl⟩ := mem_map.1 hpath
        rw [Pattern.simplify_append, Pattern.simplify_eq_self s (hnormal s hs)]
        exact .inl ⟨_, hT.paths x hx c first hfirst, s, hs, rfl⟩
      · split at hpath
        · exact hpaths s hs c path hpath
        · simp at hpath
    · exact .inr (hU.paths p hp c path hpath)
  branches p hp b hb := by
    rcases hp with ⟨x, hx, s, hs, rfl⟩ | hp
    · rcases mem_spreadBranch_append hb with rfl | ⟨-, hb⟩ | ⟨-, hb⟩
      · exact .inl ⟨x, hx, s, hs, rfl⟩
      · exact hbranches s hs b hb
      · exact .inr (hTU (hT.branches x hx b hb))
    · exact .inr (hU.branches p hp b hb)

end Sets

/-! ## Along the pattern -/

section Parts

variable {n : Node} {p q path : Pattern} {c : Char}

/-- A node that only reads leaves nothing behind a character. -/
theorem compact_terminal (hsimplify : n.simplify = [n]) (hspread : spreadBranch [n] = [[n]])
    (hderivative : ∀ c, ∀ q ∈ n.derivative c, q = []) : Compact [n] := by
  have hpaths : ∀ c, ∀ path ∈ Pattern.paths c [n],
      Pattern.simplify path ∈ ({[n], []} : Set Pattern) := by
    intro c path hpath
    rw [paths_singleton, Option.mem_toList] at hpath
    rw [hderivative c path hpath]
    exact .inr rfl
  refine ⟨{[n], []}, (Set.finite_singleton _).insert _, ⟨?_, ?_⟩, ⟨?_, hpaths⟩⟩
  · rintro p (rfl | rfl) c path hpath
    · exact hpaths c path hpath
    · simp [Pattern.paths] at hpath
  · rintro p (rfl | rfl) b hb
    · rw [hspread, mem_singleton] at hb
      exact .inl hb
    · exact .inr (by simpa [spreadBranch] using hb)
  · rw [simplify_singleton, hsimplify]
    exact .inl rfl

theorem Compact.cons (hn : Compact [n]) (hp : Compact p) : Compact (n :: p) := by
  obtain ⟨T, hfinite, hT, hn⟩ := hn
  obtain ⟨U, hfiniteU, hU, hp⟩ := hp
  -- What is left of the node, with the rest behind it or not, and what is left of the rest.
  have hclosed : Closed (Set.image2 (· ++ ·) T {Pattern.simplify p} ∪ (T ∪ U)) := by
    refine hT.append (hT.union hU) Set.subset_union_left ?_ ?_ ?_
    · rintro s rfl
      exact Pattern.normal_simplify p
    · rintro s rfl c path hpath
      exact .inr (.inr (hU.paths _ hp.self c path hpath))
    · rintro s rfl b hb
      exact .inr (.inr (hU.branches _ hp.self b hb))
  refine ⟨_, (hfinite.image2 _ (Set.finite_singleton _)).union (hfinite.union hfiniteU), hclosed,
    ?_, ?_⟩
  · exact .inl ⟨_, hn.self, _, rfl, (simplify_append [n] p).symm⟩
  · intro c path hpath
    rw [← singleton_append, paths_append] at hpath
    rcases mem_append.1 hpath with hpath | hpath
    · obtain ⟨first, hfirst, rfl⟩ := mem_map.1 hpath
      exact .inl ⟨_, hn.paths c first hfirst, _, rfl, (simplify_append _ _).symm⟩
    · split at hpath
      · exact .inr (.inr (hp.paths c path hpath))
      · simp at hpath

theorem Compact.group (hp : Compact p) : Compact [.group p] := by
  obtain ⟨T, hfinite, hT, hp⟩ := hp
  have hstable := hT.stable_assembled
  refine ⟨{q | Assembled T q}, finite_assembled hfinite, hstable.toClosed, ?_, ?_⟩
  · rw [simplify_singleton, Node.simplify]
    exact hstable.group _ (subset_assembled T hp.self)
  · intro c path hpath
    have hstep : Pattern.step [.group p] c = some (Pattern.simplify path) :=
      mem_step_of_paths (by simp) hpath
    rw [step_group] at hstep
    obtain ⟨q, hq, heq⟩ := Option.map_eq_some_iff.1 hstep
    rw [← heq]
    exact hstable.group q (hT.assembled_of_step hp hq)

/-- What is left of a repetition behind a round that has been entered, simplified. -/
theorem simplify_repetitionRest (min : Nat) (max : Option Nat) (body : Pattern) :
    Pattern.simplify (repetitionRest min max body) =
      repetitionOf (min - 1) (max.map fun m => Nat.max (m - 1) (min - 1))
        (Pattern.simplify body) := by
  rw [repetitionRest]
  split
  · rename_i hmax
    simp [hmax, repetitionOf, Pattern.simplify]
  · rw [simplify_singleton, Node.simplify]

/-- A repetition takes a path into its body, with what is left of it behind. -/
theorem exists_step_of_paths_repetition {min : Nat} {max : Option Nat}
    (h : path ∈ Pattern.paths c [.repetition min max p]) :
    ∃ q, Pattern.step p c = some q ∧ Pattern.simplify path = q ++
      repetitionOf (min - 1) (max.map fun m => Nat.max (m - 1) (min - 1))
        (Pattern.simplify p) := by
  rw [paths_singleton, Option.mem_toList, Node.derivative, ← Pattern.derivative] at h
  split at h
  · simp at h
  · obtain ⟨d, hd, rfl⟩ := Option.map_eq_some_iff.1 h
    refine ⟨Pattern.simplify d, ?_, ?_⟩
    · rw [Pattern.step, hd, Option.map_some]
    · rw [simplify_append, simplify_repetitionRest]

/-- The repetitions of a body with bounds of at most `limit`. -/
def repetitions (limit : Nat) (body : Pattern) : Set Pattern :=
  {s | ∃ min max, min ≤ limit ∧ (∀ m ∈ max, m ≤ limit) ∧ s = repetitionOf min max body}

theorem finite_repetitions (limit : Nat) (body : Pattern) : (repetitions limit body).Finite := by
  have hbounds := ((Set.finite_Iic limit).image some).insert none
  refine ((Set.finite_Iic limit).image2 (fun min max => repetitionOf min max body) hbounds).subset
    ?_
  rintro s ⟨min, max, hmin, hmax, rfl⟩
  refine ⟨min, hmin, max, ?_, rfl⟩
  cases max with
  | none => exact .inl rfl
  | some m => exact .inr ⟨m, hmax m rfl, rfl⟩

/-- A repetition that is kept is one of its body; else it is the body, or nothing. -/
theorem repetitionOf_cases (min : Nat) (max : Option Nat) (body : Pattern) :
    repetitionOf min max body = [] ∨ repetitionOf min max body = body ∨
      repetitionOf min max body = [.repetition min max body] := by
  unfold repetitionOf
  split
  · exact .inl rfl
  · split
    · exact .inr (.inl rfl)
    · exact .inr (.inr rfl)

theorem Compact.repetition (min : Nat) (max : Option Nat) (hp : Compact p) :
    Compact [.repetition min max p] := by
  obtain ⟨T, hfinite, hT, hp⟩ := hp
  have hstable := hT.stable_assembled
  -- No bound of what is left is larger than the larger one of the two bounds.
  let limit := Nat.max min (max.getD 0)
  let R : Set Pattern := {q | Assembled T q}
  let S := repetitions limit (Pattern.simplify p)
  have hbody : Pattern.simplify p ∈ R := subset_assembled T hp.self
  have hnil : [] ∈ R := assembled_of_branch .nothing
  have hrest : ∀ i ≤ limit, ∀ j : Option Nat, (∀ m ∈ j, m ≤ limit) →
      repetitionOf (i - 1) (j.map fun m => Nat.max (m - 1) (i - 1)) (Pattern.simplify p) ∈ S := by
    intro i hi j hj
    refine ⟨_, _, by omega, ?_, rfl⟩
    intro m hm
    obtain ⟨k, hk, rfl⟩ := Option.map_eq_some_iff.1 hm
    have hklimit := hj k hk
    exact Nat.max_le.2 ⟨by omega, by omega⟩
  have hclosed : Closed (Set.image2 (· ++ ·) R S ∪ R) := by
    refine hstable.toClosed.append hstable.toClosed Set.Subset.rfl ?_ ?_ ?_
    · rintro s ⟨i, j, -, -, rfl⟩
      exact normal_repetitionOf (Pattern.normal_simplify p)
    · rintro s ⟨i, j, hi, hj, rfl⟩ c path hpath
      rcases repetitionOf_cases i j (Pattern.simplify p) with heq | heq | heq
      · simp [heq, Pattern.paths] at hpath
      · rw [heq] at hpath
        exact .inr (hstable.paths _ hbody c path hpath)
      · rw [heq] at hpath
        obtain ⟨q, hq, hrepeated⟩ := exists_step_of_paths_repetition hpath
        rw [Pattern.simplify_simplify] at hrepeated
        rw [hrepeated]
        exact .inl ⟨q, hstable.step _ hbody c q hq, _, hrest i hi j hj, rfl⟩
    · rintro s ⟨i, j, hi, hj, rfl⟩ b hb
      rcases repetitionOf_cases i j (Pattern.simplify p) with heq | heq | heq
      · rw [heq] at hb
        exact .inr (hstable.branches _ hnil b hb)
      · rw [heq] at hb
        exact .inr (hstable.branches _ hbody b hb)
      · rw [heq, spreadBranch, mem_singleton, ← heq] at hb
        · exact .inl ⟨[], hnil, _, ⟨i, j, hi, hj, rfl⟩, by simp [hb]⟩
        · simp
        · simp
  refine ⟨_, ((finite_assembled hfinite).image2 _ (finite_repetitions limit _)).union
    (finite_assembled hfinite), hclosed, ?_, ?_⟩
  · rw [simplify_singleton, Node.simplify]
    refine .inl ⟨[], hnil, _, ⟨min, max, Nat.le_max_left _ _, ?_, rfl⟩, nil_append _⟩
    rintro m rfl
    exact Nat.le_max_right _ _
  · intro c path hpath
    obtain ⟨q, hq, hrepeated⟩ := exists_step_of_paths_repetition hpath
    rw [hrepeated]
    refine .inl ⟨q, hT.assembled_of_step hp hq, _, ?_, rfl⟩
    refine hrest min (Nat.le_max_left _ _) max ?_
    rintro m rfl
    exact Nat.le_max_right _ _

theorem compact_alternation {branches : List Pattern} {T : Set Pattern} (hfinite : T.Finite)
    (hT : Closed T) (h : ∀ b ∈ branches, Enters b T) : Compact [.alternation branches] := by
  have hstable := hT.stable_assembled
  refine ⟨{q | Assembled T q}, finite_assembled hfinite, hstable.toClosed, ?_, ?_⟩
  · rw [simplify_singleton, Node.simplify]
    refine assembled_distinct fun b hb => .plain b ?_
    exact hT.mem_simplifyBranches (fun a ha => (h a ha).self) b hb
  · intro c path hpath
    refine assembled_step_alternation ?_ (mem_step_of_paths (by simp) hpath)
    exact fun b hb r hr => hT.branch_of_step ((h b hb).paths c) hr

end Parts

mutual

/-- By recursion on the tree; the sets are put together along it. -/
theorem compact_node : ∀ n : Node, Compact [n]
  | .literal a => by
      refine compact_terminal (by simp [Node.simplify]) rfl ?_
      intro c q hq
      simp only [Node.derivative, Option.mem_def, Option.ite_none_right_eq_some] at hq
      exact (Option.some.inj hq.2).symm
  | .oneOf items => by
      refine compact_terminal (by simp [Node.simplify]) rfl ?_
      intro c q hq
      simp only [Node.derivative, Option.mem_def, Option.ite_none_right_eq_some] at hq
      exact (Option.some.inj hq.2).symm
  | .endAnchor => by
      refine compact_terminal (by simp [Node.simplify]) rfl ?_
      intro c q hq
      simp [Node.derivative] at hq
  | .group inner => (compact inner).group
  | .repetition min max body => (compact body).repetition min max
  | .alternation branches => by
      obtain ⟨T, hfinite, hT, hbranches⟩ := compact_branches branches
      exact compact_alternation hfinite hT hbranches

/-- **Every pattern is compact.** -/
theorem compact : ∀ p : List Node, Compact p
  | [] => by
      refine ⟨{[]}, Set.finite_singleton _, ⟨?_, ?_⟩, ⟨by simp [Pattern.simplify], ?_⟩⟩
      · rintro p rfl c path hpath
        simp [Pattern.paths] at hpath
      · rintro p rfl b hb
        simpa [spreadBranch] using hb
      · intro c path hpath
        simp [Pattern.paths] at hpath
  | n :: p => (compact_node n).cons (compact p)

/-- One finite closed set serves all branches. -/
theorem compact_branches :
    ∀ bs : List (List Node), ∃ T : Set Pattern, T.Finite ∧ Closed T ∧ ∀ b ∈ bs, Enters b T
  | [] => ⟨∅, Set.finite_empty, ⟨by simp, by simp⟩, by simp⟩
  | b :: bs => by
      obtain ⟨T, hfinite, hT, hb⟩ := compact b
      obtain ⟨U, hfiniteU, hU, hbs⟩ := compact_branches bs
      refine ⟨T ∪ U, hfinite.union hfiniteU, hT.union hU, ?_⟩
      intro a ha
      rcases mem_cons.1 ha with rfl | ha
      · exact hb.mono Set.subset_union_left
      · exact (hbs a ha).mono Set.subset_union_right

end

/-! ## Behind texts -/

variable {p q : Pattern} {R : Set Pattern} {text : List Char}

/-- A text leads out of a stable set as little as a character does. -/
theorem Stable.residual (h : Stable R) (hp : p ∈ R) (hq : Pattern.residual p text = some q) :
    q ∈ R := by
  induction text generalizing p with
  | nil =>
      obtain rfl : p = q := by simpa using hq
      exact hp
  | cons c text ih =>
      rw [Pattern.residual_cons, Option.bind_eq_some_iff] at hq
      obtain ⟨next, hnext, hq⟩ := hq
      exact ih (h.step p hp c next hnext) hq

/-- All that is left of a compact pattern behind any text is in one finite set. -/
theorem Compact.finite_residual (h : Compact p) :
    {q | ∃ text, Pattern.residual p text = some q}.Finite := by
  obtain ⟨T, hfinite, hT, hp⟩ := h
  refine ((finite_assembled hfinite).insert p).subset ?_
  rintro q ⟨text, hq⟩
  cases text with
  | nil => exact .inl (by simpa using hq.symm)
  | cons c text =>
      -- The pattern itself need not be simplified; behind a character it is.
      rw [Pattern.residual_cons, Option.bind_eq_some_iff] at hq
      obtain ⟨next, hnext, hq⟩ := hq
      exact .inr (hT.stable_assembled.residual (hT.assembled_of_step hp hnext) hq)

end Pattern

namespace Regex

/-- The trees that a regex leaves behind the texts it does not reject. -/
def residuals (r : Regex) : Set Pattern := {q | ∃ text, r.residual text = some q}

/-- **A regex has finitely many residuals, and no text leads out of them.** So a residual
that is kept while the text grows is never printed longer than some fixed length. -/
theorem finite_residuals (r : Regex) :
    r.residuals.Finite ∧ r.pattern ∈ r.residuals ∧
      (∀ q ∈ r.residuals, ∀ (text : String) (left : Pattern),
        Pattern.residual q text.toList = some left → left ∈ r.residuals) ∧
      ∃ bound, ∀ q ∈ r.residuals, (Pattern.text q).length ≤ bound := by
  have hfinite : r.residuals.Finite := by
    refine (Pattern.compact r.pattern).finite_residual.subset ?_
    rintro q ⟨text, hq⟩
    exact ⟨text.toList, hq⟩
  refine ⟨hfinite, ⟨"", rfl⟩, ?_, ?_⟩
  · rintro q ⟨before, hq⟩ text left hleft
    refine ⟨before ++ text, ?_⟩
    rw [residual, String.toList_append, Pattern.residual_append, ← residual, hq, Option.bind_some,
      hleft]
  · obtain ⟨bound, hbound⟩ := (hfinite.image fun q => (Pattern.text q).length).bddAbove
    exact ⟨bound, fun q hq => hbound ⟨q, hq, rfl⟩⟩

end Regex

end Guided
