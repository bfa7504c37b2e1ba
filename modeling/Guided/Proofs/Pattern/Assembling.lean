import Guided.Proofs.Pattern.Shape
import Mathlib.Data.List.Permutation
import Mathlib.Data.Set.Finite.Lattice

/-!
# Patterns assembled from branches

Following a character, a sequence takes several paths at once, which become the branches of
an alternation and are followed side by side from then on. So the residuals of a sequence
are assembled from what single paths lead to: alternations of different branches, bare or in
a group, where an empty branch beside one other makes that one optional. Over finitely many
branches there are finitely many of them, and no character leads out of them again.

## Main definitions

* `Pattern.Closed`: sets of patterns that no single path leads out of.
* `Pattern.Assembled`: the patterns assembled from the branches over a set.
* `Pattern.Stable`: sets of patterns that no character leads out of.

## Main statements

* `Pattern.Closed.stable_assembled`: what is assembled over a closed set is stable.
* `Pattern.finite_assembled`: over a finite set, finitely many patterns are assembled.
-/
namespace Guided

open List

/-! ## Single steps -/

section Steps

variable {c : Char} {n : Node} {p q : Pattern}

theorem Pattern.simplify_singleton (n : Node) : Pattern.simplify [n] = n.simplify := by
  simp [Pattern.simplify]

theorem Pattern.normal_of_step (h : Pattern.step p c = some q) : Pattern.Normal q := by
  obtain ⟨r, -, rfl⟩ := Option.map_eq_some_iff.1 h
  exact Pattern.normal_simplify r

@[simp] theorem Pattern.step_nil (c : Char) : Pattern.step [] c = none := by
  simp [Pattern.step, Pattern.derivative, Pattern.paths, joinPaths, Pattern.distinct]

/-- A single node takes a single path. -/
theorem Pattern.paths_singleton (c : Char) (n : Node) :
    Pattern.paths c [n] = (n.derivative c).toList := by
  cases h : n.derivative c <;> simp [Pattern.paths, h]

theorem Pattern.derivative_singleton (c : Char) (n : Node) :
    Pattern.derivative c [n] = n.derivative c := by
  rw [Pattern.derivative, Pattern.paths_singleton]
  cases n.derivative c <;> simp [joinPaths, Pattern.distinct_eq_eraseDups, eraseDups_cons]

theorem Pattern.step_group (c : Char) (p : Pattern) :
    Pattern.step [.group p] c = (Pattern.step p c).map groupOf := by
  rw [Pattern.step, Pattern.derivative_singleton, Node.derivative, ← Pattern.derivative,
    Pattern.step, Option.map_map, Option.map_map]
  simp [Function.comp_def, Pattern.simplify_singleton, Node.simplify]

/-- A part that may be left out is entered like the part itself. -/
theorem Pattern.step_optional (c : Char) (p : Pattern) :
    Pattern.step [.repetition 0 (some 1) p] c = Pattern.step p c := by
  rw [Pattern.step, Pattern.derivative_singleton, Node.derivative, ← Pattern.derivative,
    Pattern.step]
  simp [repetitionRest]

theorem step_groupOf (h : Pattern.step (groupOf p) c = some q) :
    ∃ r, Pattern.step p c = some r ∧ (q = r ∨ q = groupOf r) := by
  have hgroup : Pattern.step [.group p] c = some q →
      ∃ r, Pattern.step p c = some r ∧ (q = r ∨ q = groupOf r) := by
    intro hq
    rw [Pattern.step_group] at hq
    obtain ⟨r, hr, rfl⟩ := Option.map_eq_some_iff.1 hq
    exact ⟨r, hr, .inr rfl⟩
  unfold groupOf at h
  split at h
  · simp at h
  · exact hgroup h
  · exact ⟨q, h, .inl rfl⟩
  · exact hgroup h

theorem step_optionalOf (h : Pattern.step (optionalOf p) c = some q) :
    ∃ r, Pattern.step p c = some r ∧ (q = r ∨ q = groupOf r) := by
  rw [optionalOf, Pattern.step_optional] at h
  split at h
  · rw [Pattern.step_group] at h
    obtain ⟨r, hr, rfl⟩ := Option.map_eq_some_iff.1 h
    exact ⟨r, hr, .inr rfl⟩
  · exact ⟨q, h, .inl rfl⟩

end Steps

/-! ## Groups and branches -/

section Branches

variable {p q b : Pattern} {m n : Node}

theorem groupOf_cons_cons (n m : Node) (p : Pattern) :
    groupOf (n :: m :: p) = [.group (n :: m :: p)] := by
  simp [groupOf]

theorem spreadBranch_cons_cons (n m : Node) (p : Pattern) :
    spreadBranch (n :: m :: p) = [n :: m :: p] := by
  simp [spreadBranch]

theorem groupOf_groupOf (p : Pattern) : groupOf (groupOf p) = groupOf p := by
  rcases p with _ | ⟨n, _ | ⟨m, p⟩⟩
  · rfl
  · cases n <;> rfl
  · rw [groupOf_cons_cons]
    rfl

theorem groupOf_optionalOf (p : Pattern) : groupOf (optionalOf p) = optionalOf p := rfl

theorem spreadBranch_optionalOf (p : Pattern) : spreadBranch (optionalOf p) = [optionalOf p] :=
  rfl

theorem length_optionalOf (p : Pattern) : (optionalOf p).length = 1 := rfl

/-- The branches of a group are those of what is in it, grouped or not. -/
theorem mem_spreadBranch_groupOf (h : b ∈ spreadBranch (groupOf p)) :
    ∃ a ∈ spreadBranch p, b = a ∨ b = groupOf a := by
  rcases p with _ | ⟨n, _ | ⟨m, p⟩⟩
  · exact ⟨b, h, .inl rfl⟩
  · cases n with
    | alternation branches => exact ⟨b, h, .inl rfl⟩
    | _ => exact ⟨b, h, .inl rfl⟩
  · rw [groupOf_cons_cons] at h
    refine ⟨n :: m :: p, by simp [spreadBranch_cons_cons], .inr ?_⟩
    simpa [spreadBranch, groupOf_cons_cons] using h

/-- Joined branches are nothing, one of them, one of them made optional, or an alternation of
them all. -/
theorem alternationOf_cases (branches : List Pattern) :
    alternationOf branches = [] ∨ alternationOf branches ∈ branches ∨
      (∃ b ∈ branches, alternationOf branches = optionalOf b) ∨
        alternationOf branches = [.alternation branches] := by
  unfold alternationOf
  split
  · exact .inl rfl
  · exact .inr (.inl mem_cons_self)
  · rename_i first second
    split
    · exact .inr (.inr (.inl ⟨second, by simp, rfl⟩))
    · split
      · exact .inr (.inr (.inl ⟨first, by simp, rfl⟩))
      · exact .inr (.inr (.inr rfl))
  · exact .inr (.inr (.inr rfl))

/-- Where two parts stand behind each other, they are branches only if one of them is
empty. -/
theorem mem_spreadBranch_append (h : b ∈ spreadBranch (p ++ q)) :
    b = p ++ q ∨ p = [] ∧ b ∈ spreadBranch q ∨ q = [] ∧ b ∈ spreadBranch p := by
  rcases p with _ | ⟨n, p⟩
  · exact .inr (.inl ⟨rfl, h⟩)
  · by_cases hq : q = []
    · rw [hq, append_nil] at h
      exact .inr (.inr ⟨hq, h⟩)
    · obtain ⟨m, rest, hrest⟩ : ∃ m rest, p ++ q = m :: rest :=
        exists_cons_of_ne_nil (by simp [hq])
      rw [cons_append, hrest, spreadBranch_cons_cons, mem_singleton] at h
      exact .inl (by rw [h, cons_append, hrest])

end Branches

/-! ## What is assembled -/

/-- What is left behind a path of a member is a member, and so are the branches of a member. -/
structure Pattern.Closed (T : Set Pattern) : Prop where
  paths : ∀ p ∈ T, ∀ c, ∀ path ∈ Pattern.paths c p, Pattern.simplify path ∈ T
  branches : ∀ p ∈ T, ∀ b ∈ spreadBranch p, b ∈ T

/-- What is left of a member behind a character is a member, however many paths there are. -/
structure Pattern.Stable (R : Set Pattern) : Prop extends Pattern.Closed R where
  step : ∀ p ∈ R, ∀ c, ∀ q ∈ Pattern.step p c, q ∈ R
  group : ∀ p ∈ R, groupOf p ∈ R

/-- Branches of alternations over a set: its members, in groups or not, and its members made
optional. -/
inductive Pattern.Branch (T : Set Pattern) : Pattern → Prop
  | nothing : Branch T []
  | plain (p : Pattern) (mem : p ∈ T) : Branch T p
  | grouped (p : Pattern) (mem : p ∈ T) : Branch T (groupOf p)
  | optional (p : Pattern) (mem : p ∈ T) : Branch T (optionalOf p)

/-- Alternations of different branches over a set, in groups or not. -/
inductive Pattern.Assembled (T : Set Pattern) : Pattern → Prop
  | plain (bs : List Pattern) (nodup : bs.Nodup) (mem : ∀ b ∈ bs, Pattern.Branch T b) :
      Assembled T (alternationOf bs)
  | grouped (bs : List Pattern) (nodup : bs.Nodup) (mem : ∀ b ∈ bs, Pattern.Branch T b) :
      Assembled T (groupOf (alternationOf bs))

namespace Pattern

variable {T : Set Pattern} {p q b : Pattern} {bs : List Pattern} {c : Char}

theorem Branch.group (h : Branch T b) : Branch T (groupOf b) := by
  cases h with
  | nothing => exact .nothing
  | plain _ mem => exact .grouped b mem
  | grouped p mem =>
      rw [groupOf_groupOf]
      exact .grouped p mem
  | optional p mem =>
      rw [groupOf_optionalOf]
      exact .optional p mem

/-- A branch of two or more nodes is a member of the set. -/
theorem Branch.mem_of_length (h : Branch T b) (hb : 1 < b.length) : b ∈ T := by
  cases h with
  | nothing => simp at hb
  | plain _ mem => exact mem
  | grouped p mem =>
      have hlength := length_groupOf_le p
      omega
  | optional p mem =>
      rw [length_optionalOf] at hb
      omega

theorem branch_groupOf (h : ∀ a ∈ spreadBranch p, Branch T a) :
    ∀ a ∈ spreadBranch (groupOf p), Branch T a := by
  intro a ha
  obtain ⟨b, hb, rfl | rfl⟩ := mem_spreadBranch_groupOf ha
  · exact h a hb
  · exact (h b hb).group

/-- Branches that are joined stay branches; one of two may become optional. -/
theorem branch_alternationOf (h : ∀ b ∈ bs, b ∈ T ∧ Spread b) :
    ∀ a ∈ spreadBranch (alternationOf bs), Branch T a := by
  intro a ha
  rcases alternationOf_cases bs with heq | hmem | ⟨b, hb, heq⟩ | heq
  · obtain rfl : a = [] := by simpa [heq, spreadBranch] using ha
    exact .nothing
  · obtain ⟨hT, hspread⟩ := h _ hmem
    rw [hspread, mem_singleton] at ha
    rw [ha]
    exact .plain _ hT
  · rw [heq, spreadBranch_optionalOf, mem_singleton] at ha
    rw [ha]
    exact .optional b (h b hb).1
  · rw [heq] at ha
    exact .plain a (h a ha).1

/-- What simplified branches contribute are members of a closed set. -/
theorem Closed.mem_simplifyBranches (h : Closed T) (hbs : ∀ b ∈ bs, Pattern.simplify b ∈ T) :
    ∀ b ∈ Pattern.simplifyBranches bs, b ∈ T := by
  intro b hb
  rw [Pattern.simplifyBranches_eq_flatMap] at hb
  obtain ⟨a, ha, hb⟩ := mem_flatMap.1 hb
  exact h.branches _ (hbs a ha) b hb

/-- Paths that are joined contribute branches over the set they lead into. -/
theorem Closed.branch_joinPaths (h : Closed T) {paths : List Pattern}
    (hpaths : ∀ path ∈ paths, Pattern.simplify path ∈ T) (hq : q ∈ joinPaths paths) :
    ∀ b ∈ spreadBranch (Pattern.simplify q), Branch T b := by
  have hdistinct : ∀ path ∈ Pattern.distinct paths, Pattern.simplify path ∈ T :=
    fun path hpath => hpaths path (Pattern.mem_distinct.1 hpath)
  rw [joinPaths] at hq
  split at hq
  · simp at hq
  · rename_i path hpath
    obtain rfl : path = q := by simpa using hq
    intro b hb
    exact .plain b (h.branches _ (hdistinct path (by simp [hpath])) b hb)
  · obtain rfl : [Node.alternation (Pattern.distinct paths)] = q := by simpa using hq
    rw [Pattern.simplify_singleton, Node.simplify]
    apply branch_alternationOf
    intro b hb
    rw [Pattern.mem_distinct] at hb
    exact ⟨h.mem_simplifyBranches hdistinct b hb, (Pattern.normal_simplifyBranches _ b hb).1⟩

/-- So does what is left of a pattern all of whose paths lead into the set. -/
theorem Closed.branch_of_step (h : Closed T)
    (hpaths : ∀ path ∈ Pattern.paths c p, Pattern.simplify path ∈ T)
    (hq : Pattern.step p c = some q) : ∀ b ∈ spreadBranch q, Branch T b := by
  obtain ⟨d, hd, rfl⟩ := Option.map_eq_some_iff.1 hq
  exact h.branch_joinPaths hpaths hd

/-- What is left of a branch contributes branches again. -/
theorem Closed.branch_step (h : Closed T) (hb : Branch T b) (hq : Pattern.step b c = some q) :
    ∀ a ∈ spreadBranch q, Branch T a := by
  have hwrapped : ∀ p ∈ T, (∃ r, Pattern.step p c = some r ∧ (q = r ∨ q = groupOf r)) →
      ∀ a ∈ spreadBranch q, Branch T a := by
    rintro p hp ⟨r, hr, rfl | rfl⟩
    · exact h.branch_of_step (h.paths p hp c) hr
    · exact branch_groupOf (h.branch_of_step (h.paths p hp c) hr)
  cases hb with
  | nothing => simp at hq
  | plain _ mem => exact h.branch_of_step (h.paths b mem c) hq
  | grouped p mem => exact hwrapped p mem (step_groupOf hq)
  | optional p mem => exact hwrapped p mem (step_optionalOf hq)

/-! ## Stability -/

/-- A normal pattern is assembled from its branches. -/
theorem assembled_of_branches (hp : Pattern.Normal p) (h : ∀ b ∈ spreadBranch p, Branch T b) :
    Assembled T p := by
  have halternation : ∀ bs : List Pattern, (Node.alternation bs).Normal →
      bs.Nodup ∧ alternationOf bs = [.alternation bs] := by
    intro bs hbs
    rw [Node.Normal] at hbs
    exact ⟨hbs.1.nodup, alternationOf_eq_self hbs.1⟩
  unfold spreadBranch at h
  split at h
  · rename_i bs
    obtain ⟨hnodup, heq⟩ := halternation bs (Pattern.normal_cons.1 hp).1
    rw [← heq]
    exact .plain bs hnodup h
  · rename_i bs
    have hgroup := (Pattern.normal_cons.1 hp).1
    rw [Node.Normal] at hgroup
    obtain ⟨hnodup, heq⟩ := halternation bs (Pattern.normal_cons.1 hgroup.2).1
    have hassembled : Assembled T (groupOf (alternationOf bs)) := .grouped bs hnodup h
    rw [heq] at hassembled
    exact hassembled
  · exact .plain [p] (nodup_singleton p) (by simpa using h)

theorem assembled_of_branch (h : Branch T b) : Assembled T b :=
  .plain [b] (nodup_singleton b) (by simpa using h)

theorem Assembled.group (h : Assembled T p) : Assembled T (groupOf p) := by
  cases h with
  | plain bs nodup mem => exact .grouped bs nodup mem
  | grouped bs nodup mem =>
      rw [groupOf_groupOf]
      exact .grouped bs nodup mem

/-- Joined branches are assembled, whatever their order and however often they come. -/
theorem assembled_distinct (h : ∀ b ∈ bs, Branch T b) :
    Assembled T (alternationOf (Pattern.distinct bs)) := by
  refine .plain _ ?_ fun b hb => h b (Pattern.mem_distinct.1 hb)
  rw [Pattern.distinct_eq_eraseDups]
  exact nodup_eraseDups bs

/-- Branches are followed side by side. -/
theorem assembled_step_alternation
    (h : ∀ b ∈ bs, ∀ r, Pattern.step b c = some r → ∀ a ∈ spreadBranch r, Branch T a)
    (hq : Pattern.step [.alternation bs] c = some q) : Assembled T q := by
  rw [Pattern.step, Pattern.derivative_singleton, Node.derivative,
    Pattern.survivors_eq_filterMap] at hq
  split at hq
  · simp at hq
  · rw [Option.map_some, Option.some.injEq, Pattern.simplify_singleton, Node.simplify] at hq
    rw [← hq]
    apply assembled_distinct
    intro a ha
    rw [Pattern.simplifyBranches_eq_flatMap] at ha
    obtain ⟨d, hd, ha⟩ := mem_flatMap.1 ha
    obtain ⟨b, hb, hderived⟩ := mem_filterMap.1 hd
    have hstep : Pattern.step b c = some (Pattern.simplify d) := by
      rw [Pattern.step, hderived, Option.map_some]
    exact h b hb _ hstep a ha

/-- What is left of joined branches is assembled. -/
theorem Closed.assembled_step_alternationOf (h : Closed T) (hbs : ∀ b ∈ bs, Branch T b)
    (hq : Pattern.step (alternationOf bs) c = some q) : Assembled T q := by
  have hbranch : ∀ b ∈ bs, ∀ r, Pattern.step b c = some r → ∀ a ∈ spreadBranch r, Branch T a :=
    fun b hb r hr => h.branch_step (hbs b hb) hr
  have hone : ∀ b ∈ bs, ∀ r, Pattern.step b c = some r → Assembled T r := fun b hb r hr =>
    assembled_of_branches (Pattern.normal_of_step hr) (hbranch b hb r hr)
  rcases alternationOf_cases bs with heq | hmem | ⟨b, hb, heq⟩ | heq
  · simp [heq] at hq
  · exact hone _ hmem q hq
  · rw [heq] at hq
    obtain ⟨r, hr, rfl | rfl⟩ := step_optionalOf hq
    · exact hone b hb q hr
    · exact (hone b hb r hr).group
  · rw [heq] at hq
    exact assembled_step_alternation hbranch hq

theorem Closed.assembled_step (h : Closed T) (hp : Assembled T p)
    (hq : Pattern.step p c = some q) : Assembled T q := by
  cases hp with
  | plain bs _ mem => exact h.assembled_step_alternationOf mem hq
  | grouped bs _ mem =>
      obtain ⟨r, hr, rfl | rfl⟩ := step_groupOf hq
      · exact h.assembled_step_alternationOf mem hr
      · exact (h.assembled_step_alternationOf mem hr).group

/-- An assembled pattern of two or more nodes is a member of the set. -/
theorem Assembled.mem_of_length (h : Assembled T p) (hp : 1 < p.length) : p ∈ T := by
  cases h with
  | plain bs _ mem =>
      rcases alternationOf_cases bs with heq | hmem | ⟨b, -, heq⟩ | heq
      · simp [heq] at hp
      · exact (mem _ hmem).mem_of_length hp
      · rw [heq, length_optionalOf] at hp
        omega
      · simp [heq] at hp
  | grouped bs _ _ =>
      have hlength := length_groupOf_le (alternationOf bs)
      omega

/-- A single node takes what is left of it along one path. -/
theorem mem_step_of_paths {path : Pattern} (hp : p.length ≤ 1)
    (hpath : path ∈ Pattern.paths c p) : Pattern.step p c = some (Pattern.simplify path) := by
  rcases p with _ | ⟨n, _ | ⟨m, p⟩⟩
  · simp [Pattern.paths] at hpath
  · rw [Pattern.paths_singleton, Option.mem_toList] at hpath
    rw [Pattern.step, Pattern.derivative_singleton, hpath, Option.map_some]
  · simp at hp

theorem Closed.branch_spreadBranch (h : Closed T) (hb : Branch T b) :
    ∀ a ∈ spreadBranch b, Branch T a := by
  have hplain : ∀ p ∈ T, ∀ a ∈ spreadBranch p, Branch T a :=
    fun p hp a ha => .plain a (h.branches p hp a ha)
  cases hb with
  | nothing => simpa [spreadBranch] using Branch.nothing
  | plain _ mem => exact hplain b mem
  | grouped p mem => exact branch_groupOf (hplain p mem)
  | optional p mem => simpa [spreadBranch_optionalOf] using Branch.optional p mem

theorem Closed.assembled_spreadBranch (h : Closed T) (hp : Assembled T p) :
    ∀ a ∈ spreadBranch p, Assembled T a := by
  have hplain : ∀ bs : List Pattern, (∀ b ∈ bs, Branch T b) → bs.Nodup →
      ∀ a ∈ spreadBranch (alternationOf bs), Assembled T a := by
    intro bs hbs hnodup a ha
    rcases alternationOf_cases bs with heq | hmem | ⟨b, -, heq⟩ | heq
    · rw [heq] at ha
      obtain rfl : a = [] := by simpa [spreadBranch] using ha
      exact assembled_of_branch .nothing
    · exact assembled_of_branch (h.branch_spreadBranch (hbs _ hmem) a ha)
    · rw [heq, spreadBranch_optionalOf, mem_singleton, ← heq] at ha
      rw [ha]
      exact .plain bs hnodup hbs
    · rw [heq] at ha
      exact assembled_of_branch (hbs a ha)
  cases hp with
  | plain bs nodup mem => exact hplain bs mem nodup
  | grouped bs nodup mem =>
      intro a ha
      obtain ⟨b, hb, rfl | rfl⟩ := mem_spreadBranch_groupOf ha
      · exact hplain bs mem nodup a hb
      · exact (hplain bs mem nodup b hb).group

/-- **No character leads out of what is assembled over a closed set.** -/
theorem Closed.stable_assembled (h : Closed T) : Stable {p | Assembled T p} where
  paths p hp c path hpath := by
    by_cases hlength : p.length ≤ 1
    · exact h.assembled_step hp (mem_step_of_paths hlength hpath)
    · have hmem : p ∈ T := hp.mem_of_length (by omega)
      exact assembled_of_branch (.plain _ (h.paths p hmem c path hpath))
  branches p hp := h.assembled_spreadBranch hp
  step p hp c q hq := h.assembled_step hp hq
  group p hp := Assembled.group hp

/-! ## How many there are -/

theorem finite_branch (hT : T.Finite) : {b | Branch T b}.Finite := by
  have hcover : ({[]} ∪ T ∪ groupOf '' T ∪ optionalOf '' T).Finite :=
    (((Set.finite_singleton _).union hT).union (hT.image _)).union (hT.image _)
  refine hcover.subset ?_
  intro b hb
  cases hb with
  | nothing => simp
  | plain _ mem => exact .inl (.inl (.inr mem))
  | grouped p mem => exact .inl (.inr ⟨p, mem, rfl⟩)
  | optional p mem => exact .inr ⟨p, mem, rfl⟩

/-- There are finitely many lists without repeats over a finite set. -/
theorem finite_nodup {α : Type} {s : Set α} (hs : s.Finite) :
    {xs : List α | xs.Nodup ∧ ∀ x ∈ xs, x ∈ s}.Finite := by
  -- Each is a permutation of a part of the members in some order.
  refine (finite_toSet (hs.toFinset.toList.sublists.flatMap permutations)).subset ?_
  intro xs hxs
  have hsubset : xs ⊆ hs.toFinset.toList := fun x hx => by simpa using hxs.2 x hx
  obtain ⟨part, hperm, hpart⟩ := subperm_of_subset hxs.1 hsubset
  exact mem_flatMap.2 ⟨part, mem_sublists.2 hpart, mem_permutations.2 hperm.symm⟩

/-- **Over a finite set finitely many patterns are assembled.** -/
theorem finite_assembled (hT : T.Finite) : {p | Assembled T p}.Finite := by
  have hlists := finite_nodup (finite_branch hT)
  refine ((hlists.image alternationOf).union
    (hlists.image fun bs => groupOf (alternationOf bs))).subset ?_
  intro p hp
  cases hp with
  | plain bs nodup mem => exact .inl ⟨bs, ⟨nodup, mem⟩, rfl⟩
  | grouped bs nodup mem => exact .inr ⟨bs, ⟨nodup, mem⟩, rfl⟩

end Pattern

end Guided
