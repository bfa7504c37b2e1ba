import Guided.Pattern.Derivative
import Guided.Proofs.Pattern.Meaning

/-!
# What a derivative matches

The derivative by a character takes a text exactly when the pattern takes the character
followed by that text. A rejected character has no derivative, so that both outcomes are
said at once: some derivative takes the text, if and only if the pattern does.

## Main statements

* `Pattern.matches_derivative_iff`: the law for one character.
* `Pattern.wellFormed_of_derivative`: derivatives are well-formed.
-/
namespace Guided

open List

@[simp] theorem Pattern.mem_distinct {p : Pattern} {ps : List Pattern} :
    p ∈ Pattern.distinct ps ↔ p ∈ ps := by
  rw [Pattern.distinct_eq_eraseDups, mem_eraseDups]

/-! ## Paths joined and rounds left -/

/-- Joined paths take what one of the paths takes. -/
theorem matches_joinPaths_iff {paths : List Pattern} {u rest : List Char} :
    (∃ q ∈ joinPaths paths, Pattern.Matches q u rest) ↔
      ∃ path ∈ paths, Pattern.Matches path u rest := by
  have hdistinct : (∃ path ∈ paths, Pattern.Matches path u rest) ↔
      ∃ path ∈ Pattern.distinct paths, Pattern.Matches path u rest := by
    simp only [Pattern.mem_distinct]
  rw [hdistinct]
  rw [joinPaths]
  split
  · rename_i h
    simp [h]
  · rename_i path h
    simp [h]
  · simp only [Option.mem_def, Option.some.injEq, exists_eq_left', Pattern.matches_singleton,
      Node.matches_alternation]

theorem wellFormed_of_joinPaths {paths : List Pattern} {q : Pattern}
    (hq : q ∈ joinPaths paths) (h : ∀ path ∈ paths, Pattern.WellFormed path) :
    Pattern.WellFormed q := by
  have hdistinct : ∀ path ∈ Pattern.distinct paths, Pattern.WellFormed path :=
    fun path hpath => h path (Pattern.mem_distinct.1 hpath)
  rw [joinPaths] at hq
  split at hq
  · simp at hq
  · rename_i path hpaths
    obtain rfl : path = q := by simpa using hq
    exact hdistinct path (by simp [hpaths])
  · rename_i hnil _
    obtain rfl : [Node.alternation (Pattern.distinct paths)] = q := by simpa using hq
    simp only [Pattern.wellFormed_cons, Node.WellFormed, Pattern.wellFormed_nil, and_true]
    exact ⟨fun hempty => hnil hempty, Pattern.wellFormedEach_iff.2 hdistinct⟩

section Repetition

variable {min : Nat} {max : Option Nat} {body : Pattern}

/-- What is left of a repetition takes any number of rounds that makes, with the round
already entered, an allowed one. -/
theorem matches_repetitionRest_iff (hbounds : ∀ m, max = some m → min ≤ m)
    (hmax : max ≠ some 0) {u rest : List Char} :
    Pattern.Matches (repetitionRest min max body) u rest ↔
      ∃ n, min ≤ n + 1 ∧ (∀ m, max = some m → n + 1 ≤ m) ∧
        Times (Pattern.Matches body) n u rest := by
  cases max with
  | none =>
      simp only [repetitionRest, Option.map_none, reduceCtorEq, if_false,
        Pattern.matches_singleton, Node.matches_repetition, false_implies, implies_true,
        true_and, Nat.sub_le_iff_le_add]
  | some m =>
      have hmin : min ≤ m := hbounds m rfl
      have hpos : m ≠ 0 := fun h => hmax (by rw [h])
      have hlast : Nat.max (m - 1) (min - 1) = m - 1 := Nat.max_eq_left (by omega)
      simp only [repetitionRest, Option.map_some, hlast, Option.some.injEq]
      by_cases hone : m - 1 = 0
      · rw [if_pos hone, Pattern.matches_nil]
        simp only [forall_eq']
        constructor
        · intro hempty
          exact ⟨0, by omega, by omega, by simpa using hempty⟩
        · intro hrounds
          obtain ⟨n, -, hn, htimes⟩ := hrounds
          obtain rfl : n = 0 := by omega
          simpa using htimes
      · rw [if_neg hone, Pattern.matches_singleton, Node.matches_repetition]
        simp only [Option.some.injEq, forall_eq']
        constructor
        · intro hrounds
          obtain ⟨n, hn, hle, htimes⟩ := hrounds
          exact ⟨n, by omega, by omega, htimes⟩
        · intro hrounds
          obtain ⟨n, hn, hle, htimes⟩ := hrounds
          exact ⟨n, by omega, by omega, htimes⟩

theorem wellFormed_repetitionRest (hbounds : ∀ m, max = some m → min ≤ m)
    (hbody : Pattern.WellFormed body) : Pattern.WellFormed (repetitionRest min max body) := by
  rw [repetitionRest]
  split
  · simp
  · simp only [Pattern.wellFormed_cons, Node.WellFormed, Pattern.wellFormed_nil, and_true]
    refine ⟨?_, hbody⟩
    intro m hm
    cases max with
    | none => simp at hm
    | some k =>
        obtain rfl : Nat.max (k - 1) (min - 1) = m := by simpa using hm
        exact Nat.le_max_right _ _

end Repetition

/-! ## The law for one character -/

section Law

variable (c : Char)

theorem matches_oneOf_derivative_iff (items : List ClassItem) (u rest : List Char) :
    (∃ q ∈ (Node.oneOf items).derivative c, Pattern.Matches q u rest) ↔
      (Node.oneOf items).Matches (c :: u) rest := by
  rw [Node.derivative]
  by_cases h : classContains items c = true
  · rw [if_pos h]
    constructor
    · intro hderived
      obtain ⟨q, hq, hmatch⟩ := hderived
      obtain rfl : [] = q := by simpa using hq
      obtain rfl : u = [] := by simpa using hmatch
      simpa using h
    · intro hread
      obtain ⟨d, hd, -⟩ := Node.matches_oneOf.1 hread
      obtain ⟨-, rfl⟩ : c = d ∧ u = [] := by simpa using hd
      exact ⟨[], rfl, by simp⟩
  · rw [if_neg h]
    constructor
    · simp
    · intro hread
      obtain ⟨d, hd, hcontains⟩ := Node.matches_oneOf.1 hread
      obtain ⟨rfl, -⟩ : c = d ∧ u = [] := by simpa using hd
      exact absurd hcontains h

/-- The derivative of a repetition enters a round, where the law for the body reads the
character, and leaves the rounds that remain. -/
theorem matches_repetition_derivative_iff {min : Nat} {max : Option Nat} {body : Pattern}
    (hbounds : ∀ m, max = some m → min ≤ m) (hbody : Pattern.WellFormed body)
    (hpaths : ∀ v w, (∃ path ∈ Pattern.paths c body, Pattern.Matches path v w) ↔
      Pattern.Matches body (c :: v) w) (u rest : List Char) :
    (∃ q ∈ (Node.repetition min max body).derivative c, Pattern.Matches q u rest) ↔
      (Node.repetition min max body).Matches (c :: u) rest := by
  rw [Node.derivative, Node.matches_repetition]
  by_cases hmax : max = some 0
  · rw [if_pos hmax]
    constructor
    · simp
    · intro hread
      obtain ⟨n, -, hn, htimes⟩ := hread
      obtain rfl : n = 0 := Nat.le_zero.1 (hn 0 hmax)
      simp at htimes
  · rw [if_neg hmax]
    have hround : ∀ v w, (∃ q ∈ joinPaths (Pattern.paths c body),
        Pattern.Matches q v w) ↔ Pattern.Matches body (c :: v) w := by
      intro v w
      rw [matches_joinPaths_iff]
      exact hpaths v w
    have hread : (∃ n, (min ≤ n ∧ ∀ m, max = some m → n ≤ m) ∧
        Times (Pattern.Matches body) n (c :: u) rest) ↔ _ :=
      exists_times_cons_iff (Pattern.matches_nil_of_cons hbody)
    simp only [← and_assoc] at hread ⊢
    rw [hread]
    constructor
    · intro hderived
      obtain ⟨_, hq, hmatch⟩ := hderived
      obtain ⟨q, hjoined, rfl⟩ := Option.map_eq_some_iff.1 hq
      obtain ⟨v, w, rfl, hv, hw⟩ := (Pattern.matches_append _ _ _ _).1 hmatch
      obtain ⟨n, hmin, hle, htimes⟩ := (matches_repetitionRest_iff hbounds hmax).1 hw
      exact ⟨v, w, ⟨rfl, (hround v _).1 ⟨q, hjoined, hv⟩⟩, n, ⟨hmin, hle⟩, htimes⟩
    · intro hfirst
      obtain ⟨v, w, ⟨rfl, hv⟩, n, ⟨hmin, hle⟩, htimes⟩ := hfirst
      obtain ⟨q, hq, hmatch⟩ := (hround v _).2 hv
      refine ⟨q ++ repetitionRest min max body, ?_, (Pattern.matches_append _ _ _ _).2
        ⟨v, w, rfl, hmatch, (matches_repetitionRest_iff hbounds hmax).2
          ⟨n, hmin, hle, htimes⟩⟩⟩
      exact Option.map_eq_some_iff.2 ⟨q, hq, rfl⟩

mutual

/-- Some derivative of a node takes a text if and only if the node takes the character
and then the text. -/
theorem Node.matches_derivative_iff :
    ∀ node : Node, node.WellFormed → ∀ u rest : List Char,
      (∃ q ∈ node.derivative c, Pattern.Matches q u rest) ↔ node.Matches (c :: u) rest
  | .literal a, _, u, rest => by
      rw [Node.derivative]
      split
      · subst c; simp
      · rename_i h
        simp [Ne.symm h]
  | .oneOf items, _, u, rest => matches_oneOf_derivative_iff c items u rest
  | .endAnchor, _, u, rest => by simp [Node.derivative]
  | .group inner, h, u, rest => by
      rw [Node.WellFormed] at h
      rw [Node.matches_group, ← Pattern.exists_paths_iff inner h u rest, ← matches_joinPaths_iff,
        Node.derivative]
      simp only [Option.mem_def, Option.map_eq_some_iff]
      constructor
      · intro hderived
        obtain ⟨q, ⟨r, hr, rfl⟩, hmatch⟩ := hderived
        exact ⟨r, hr, by simpa using hmatch⟩
      · intro hjoined
        obtain ⟨r, hr, hmatch⟩ := hjoined
        exact ⟨[.group r], ⟨r, hr, rfl⟩, by simpa using hmatch⟩
  | .alternation branches, h, u, rest => by
      rw [Node.WellFormed] at h
      have ih := Pattern.exists_survivors_iff branches h.2 u rest
      rw [Pattern.matchesAny_iff] at ih
      rw [Node.matches_alternation, ← ih, Node.derivative]
      split
      · rename_i hsurvivors
        simp [hsurvivors]
      · simp
  | .repetition min max body, h, u, rest => by
      obtain ⟨hbounds, hbody⟩ : (∀ m, max = some m → min ≤ m) ∧ Pattern.WellFormed body := by
        simpa only [Node.WellFormed] using h
      exact matches_repetition_derivative_iff c hbounds hbody
        (fun v w => Pattern.exists_paths_iff body hbody v w) u rest

/-- Some path of a sequence takes a text if and only if the sequence takes the character
and then the text. The node that reads the character is the first that takes anything. -/
theorem Pattern.exists_paths_iff :
    ∀ p : List Node, Pattern.WellFormed p → ∀ u rest : List Char,
      (∃ path ∈ Pattern.paths c p, Pattern.Matches path u rest) ↔
        Pattern.Matches p (c :: u) rest
  | [], _, u, rest => by simp [Pattern.paths]
  | node :: p, h, u, rest => by
      rw [Pattern.wellFormed_cons] at h
      have ihnode := node.matches_derivative_iff h.1
      have ihp := Pattern.exists_paths_iff p h.2 u rest
      have hskip : node.Matches [] (c :: u ++ rest) ↔ node.skippable = true := by
        simpa [Node.passable] using node.matches_nil_iff h.1 (c :: u ++ rest)
      rw [Pattern.matches_cons, exists_split_cons_iff, hskip, ← ihp, Pattern.paths]
      simp only [mem_append, or_and_right, exists_or, Option.mem_toList]
      rw [or_comm]
      refine or_congr ?_ ?_
      · by_cases hnode : node.skippable = true
        · simp [hnode]
        · simp [hnode]
      · simp only [Option.map_eq_some_iff]
        constructor
        · intro hpath
          obtain ⟨_, ⟨q, hq, rfl⟩, hmatch⟩ := hpath
          obtain ⟨v, w, rfl, hv, hw⟩ := (Pattern.matches_append _ _ _ _).1 hmatch
          exact ⟨v, w, rfl, (ihnode v _).1 ⟨q, hq, hv⟩, hw⟩
        · intro hread
          obtain ⟨v, w, rfl, hv, hw⟩ := hread
          obtain ⟨q, hq, hmatch⟩ := (ihnode v _).2 hv
          exact ⟨q ++ p, ⟨q, hq, rfl⟩,
            (Pattern.matches_append _ _ _ _).2 ⟨v, w, rfl, hmatch, hw⟩⟩

theorem Pattern.exists_survivors_iff :
    ∀ bs : List (List Node), Pattern.WellFormedEach bs → ∀ u rest : List Char,
      (∃ q ∈ Pattern.survivors c bs, Pattern.Matches q u rest) ↔
        Pattern.MatchesAny bs (c :: u) rest
  | [], _, u, rest => by simp [Pattern.survivors, Pattern.MatchesAny]
  | branch :: bs, h, u, rest => by
      rw [Pattern.WellFormedEach] at h
      have hbranch := matches_joinPaths_iff.trans (Pattern.exists_paths_iff branch h.1 u rest)
      rw [Pattern.MatchesAny, ← hbranch, ← Pattern.exists_survivors_iff bs h.2 u rest,
        Pattern.survivors]
      simp only [mem_append, Option.mem_toList, Option.mem_def, or_and_right, exists_or]

end

/-- Some derivative of a pattern takes a text if and only if the pattern takes the
character and then the text. -/
theorem Pattern.matches_derivative_iff {p : Pattern} (h : Pattern.WellFormed p)
    (u rest : List Char) :
    (∃ q ∈ Pattern.derivative c p, Pattern.Matches q u rest) ↔
      Pattern.Matches p (c :: u) rest :=
  matches_joinPaths_iff.trans (Pattern.exists_paths_iff c p h u rest)

end Law

/-! ## Derivatives are well-formed -/

section WellFormed

variable (c : Char)

mutual

theorem Node.wellFormed_of_derivative :
    ∀ node : Node, node.WellFormed → ∀ q ∈ node.derivative c, Pattern.WellFormed q
  | .literal a, _, q, hq => by
      obtain ⟨-, rfl⟩ : a = c ∧ [] = q := by simpa [Node.derivative] using hq
      simp
  | .oneOf items, _, q, hq => by
      obtain ⟨-, rfl⟩ : classContains items c = true ∧ [] = q := by
        simpa [Node.derivative] using hq
      simp
  | .endAnchor, _, q, hq => by simp [Node.derivative] at hq
  | .group inner, h, q, hq => by
      rw [Node.WellFormed] at h
      rw [Node.derivative] at hq
      obtain ⟨r, hr, rfl⟩ := Option.map_eq_some_iff.1 hq
      have hinner := wellFormed_of_joinPaths hr (Pattern.wellFormed_of_paths inner h)
      simpa [Node.WellFormed] using hinner
  | .alternation branches, h, q, hq => by
      rw [Node.WellFormed] at h
      rw [Node.derivative] at hq
      split at hq
      · simp at hq
      · rename_i hsome
        obtain rfl : [Node.alternation (Pattern.survivors c branches)] = q := by simpa using hq
        simp only [Pattern.wellFormed_cons, Node.WellFormed, Pattern.wellFormed_nil, and_true]
        exact ⟨fun hnil => hsome hnil,
          Pattern.wellFormedEach_iff.2 (Pattern.wellFormed_of_survivors branches h.2)⟩
  | .repetition min max body, h, q, hq => by
      rw [Node.WellFormed] at h
      rw [Node.derivative] at hq
      split at hq
      · simp at hq
      · obtain ⟨r, hr, rfl⟩ := Option.map_eq_some_iff.1 hq
        rw [Pattern.wellFormed_append]
        exact ⟨wellFormed_of_joinPaths hr (Pattern.wellFormed_of_paths body h.2),
          wellFormed_repetitionRest h.1 h.2⟩

theorem Pattern.wellFormed_of_paths :
    ∀ p : List Node, Pattern.WellFormed p → ∀ path ∈ Pattern.paths c p, Pattern.WellFormed path
  | [], _, path, hpath => by simp [Pattern.paths] at hpath
  | node :: p, h, path, hpath => by
      rw [Pattern.wellFormed_cons] at h
      rw [Pattern.paths] at hpath
      rcases mem_append.1 hpath with hpath | hpath
      · obtain ⟨q, hq, rfl⟩ := Option.map_eq_some_iff.1 (Option.mem_toList.1 hpath)
        rw [Pattern.wellFormed_append]
        exact ⟨node.wellFormed_of_derivative h.1 q hq, h.2⟩
      · split at hpath
        · exact Pattern.wellFormed_of_paths p h.2 path hpath
        · simp at hpath

theorem Pattern.wellFormed_of_survivors :
    ∀ bs : List (List Node), Pattern.WellFormedEach bs →
      ∀ q ∈ Pattern.survivors c bs, Pattern.WellFormed q
  | [], _, q, hq => by simp [Pattern.survivors] at hq
  | branch :: bs, h, q, hq => by
      rw [Pattern.WellFormedEach] at h
      rw [Pattern.survivors] at hq
      rcases mem_append.1 hq with hq | hq
      · exact wellFormed_of_joinPaths (Option.mem_toList.1 hq)
          (Pattern.wellFormed_of_paths branch h.1)
      · exact Pattern.wellFormed_of_survivors bs h.2 q hq

end

theorem Pattern.wellFormed_of_derivative {p q : Pattern} (h : Pattern.WellFormed p)
    (hq : q ∈ Pattern.derivative c p) : Pattern.WellFormed q :=
  wellFormed_of_joinPaths hq (Pattern.wellFormed_of_paths c p h)

end WellFormed

end Guided
