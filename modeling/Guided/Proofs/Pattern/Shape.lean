import Guided.Pattern.Printer
import Guided.Proofs.Pattern.NormalForm
import Guided.Proofs.Pattern.Quantifiers
import Guided.Proofs.Pattern.Residual

/-!
# The shape of trees that come up

Printing drops parentheses where the tree cannot need them, which is safe only because
trees that are read, derived or simplified keep to a shape: an alternation stands alone in
its sequence, a repetition has one node under it, and classes and bounds are such as can be
written. A derivative is looser than that for a moment, since single alternatives and
alternatives in alternatives come up in it, and simplifying makes it tidy again.

## Main definitions

* `Pattern.Shaped`: the shape, tidy or loose.
* `Pattern.Plain`: sequences that may also stand as an alternative.

## Main statements

* `Regex.shaped_of_parse`: trees that have been read are tidy.
* `Pattern.shaped_of_derivative`, `Pattern.shaped_simplify`: derivatives of tidy trees are
  loose, and simplified loose trees are tidy.
* `Pattern.shaped_of_residual`: residuals of tidy trees are tidy.
-/
namespace Guided

open List

/-- The ends of a range are in order. -/
def ClassItem.Ordered : ClassItem → Prop
  | .single _ => True
  | .range low high => low ≤ high

mutual

/-- The shape of a node, beside siblings or alone. Where trees are tidy, an alternation has
at least two branches and none of them is itself nothing but an alternation. -/
def Node.Shaped (tidy siblings : Bool) : Node → Prop
  | .literal _ | .endAnchor => True
  | .oneOf items => items ≠ [] ∧ ∀ item ∈ items, item.Ordered
  | .repetition min max body =>
      (Bounds.Allowed (min, max) ∧ body.length = 1) ∧ Pattern.ShapedAmong tidy true body
  | .alternation branches =>
      (siblings = false ∧ (tidy = true → 1 < branches.length)) ∧ Pattern.ShapedEach tidy branches
  | .group inner => Pattern.ShapedAmong tidy (Pattern.hasSiblings inner) inner

/-- The shape of the nodes of a sequence. -/
def Pattern.ShapedAmong (tidy siblings : Bool) : List Node → Prop
  | [] => True
  | node :: rest => node.Shaped tidy siblings ∧ Pattern.ShapedAmong tidy siblings rest

/-- The shape of branches. -/
def Pattern.ShapedEach (tidy : Bool) : List (List Node) → Prop
  | [] => True
  | branch :: rest =>
      Pattern.ShapedAmong tidy (tidy || Pattern.hasSiblings branch) branch ∧
        Pattern.ShapedEach tidy rest

end

/-- The shape of a sequence that stands by itself. -/
def Pattern.Shaped (tidy : Bool) (p : Pattern) : Prop :=
  Pattern.ShapedAmong tidy (Pattern.hasSiblings p) p

/-- The shape of a sequence without an alternation among its nodes. -/
def Pattern.Plain (tidy : Bool) (p : Pattern) : Prop := Pattern.ShapedAmong tidy true p

section Sequences

variable {tidy siblings : Bool} {n : Node} {p q : Pattern} {bs : List Pattern}

@[simp] theorem Pattern.shapedAmong_nil : Pattern.ShapedAmong tidy siblings [] := by
  simp [Pattern.ShapedAmong]

@[simp] theorem Pattern.shapedAmong_cons : Pattern.ShapedAmong tidy siblings (n :: p) ↔
    n.Shaped tidy siblings ∧ Pattern.ShapedAmong tidy siblings p := by
  rw [Pattern.ShapedAmong]

theorem Pattern.shapedAmong_iff :
    Pattern.ShapedAmong tidy siblings p ↔ ∀ n ∈ p, n.Shaped tidy siblings := by
  induction p with
  | nil => simp
  | cons n p ih => simp [ih]

theorem Pattern.shapedEach_iff : Pattern.ShapedEach tidy bs ↔
    ∀ b ∈ bs, Pattern.ShapedAmong tidy (tidy || Pattern.hasSiblings b) b := by
  induction bs with
  | nil => simp [Pattern.ShapedEach]
  | cons b bs ih => simp [Pattern.ShapedEach, ih]

theorem Pattern.plain_append :
    Pattern.Plain tidy (p ++ q) ↔ Pattern.Plain tidy p ∧ Pattern.Plain tidy q := by
  simp only [Pattern.Plain, Pattern.shapedAmong_iff, forall_mem_append]

@[simp] theorem Pattern.plain_nil : Pattern.Plain tidy [] := Pattern.shapedAmong_nil

theorem Pattern.plain_singleton : Pattern.Plain tidy [n] ↔ n.Shaped tidy true := by
  simp [Pattern.Plain]

theorem Pattern.shaped_singleton : Pattern.Shaped tidy [n] ↔ n.Shaped tidy false := by
  simp [Pattern.Shaped, Pattern.hasSiblings]

/-- Among siblings or not makes a difference to alternations only. -/
theorem Node.Shaped.alone (h : n.Shaped tidy true) : n.Shaped tidy siblings := by
  cases n with
  | alternation bs => simp [Node.Shaped] at h
  | literal c => simp [Node.Shaped]
  | endAnchor => simp [Node.Shaped]
  | oneOf items => simpa only [Node.Shaped] using h
  | repetition min max body => simpa only [Node.Shaped] using h
  | group inner => simpa only [Node.Shaped] using h

theorem Node.Shaped.among (h : n.Shaped tidy siblings) (hn : ∀ bs, n ≠ .alternation bs) :
    n.Shaped tidy true := by
  cases n with
  | alternation bs => exact absurd rfl (hn bs)
  | literal c => simp [Node.Shaped]
  | endAnchor => simp [Node.Shaped]
  | oneOf items => simpa only [Node.Shaped] using h
  | repetition min max body => simpa only [Node.Shaped] using h
  | group inner => simpa only [Node.Shaped] using h

theorem Pattern.Plain.among (h : Pattern.Plain tidy p) :
    Pattern.ShapedAmong tidy siblings p :=
  Pattern.shapedAmong_iff.2 fun n hn => (Pattern.shapedAmong_iff.1 h n hn).alone

theorem Pattern.Plain.shaped (h : Pattern.Plain tidy p) : Pattern.Shaped tidy p := h.among

/-- A sequence is plain unless it is nothing but an alternation. -/
theorem Pattern.Shaped.plain (h : Pattern.Shaped tidy p) (hp : ∀ bs, p ≠ [.alternation bs]) :
    Pattern.Plain tidy p := by
  rcases p with _ | ⟨n, _ | ⟨m, p⟩⟩
  · exact Pattern.plain_nil
  · rw [Pattern.shaped_singleton] at h
    have hn : ∀ bs, n ≠ .alternation bs := by
      rintro bs rfl
      exact hp bs rfl
    exact Pattern.plain_singleton.2 (h.among hn)
  · have hsiblings : Pattern.hasSiblings (n :: m :: p) = true := by simp [Pattern.hasSiblings]
    rw [Pattern.Shaped, hsiblings] at h
    exact h

theorem Pattern.shaped_alternation (h : ∀ b ∈ bs, Pattern.Plain true b) (hbs : 1 < bs.length) :
    Pattern.Shaped true [.alternation bs] := by
  rw [Pattern.shaped_singleton, Node.Shaped]
  exact ⟨⟨rfl, fun _ => hbs⟩, Pattern.shapedEach_iff.2 h⟩

/-- The branches of a tidy alternation are plain. -/
theorem Pattern.plain_of_mem_alternation (h : (Node.alternation bs).Shaped true siblings) {b : Pattern}
    (hb : b ∈ bs) : Pattern.Plain true b := by
  rw [Node.Shaped] at h
  exact Pattern.shapedEach_iff.1 h.2 b hb

end Sequences

mutual

theorem Node.loose_of_tidy : ∀ (n : Node) {siblings : Bool},
    n.Shaped true siblings → n.Shaped false siblings
  | .literal c, _, _ => by simp [Node.Shaped]
  | .endAnchor, _, _ => by simp [Node.Shaped]
  | .oneOf items, _, h => by simpa only [Node.Shaped] using h
  | .repetition min max body, _, h => by
      rw [Node.Shaped] at h ⊢
      exact ⟨h.1, Pattern.loose_of_tidy body h.2⟩
  | .alternation branches, _, h => by
      rw [Node.Shaped] at h ⊢
      exact ⟨⟨h.1.1, by simp⟩, Pattern.looseEach_of_tidy branches h.2⟩
  | .group inner, _, h => by
      rw [Node.Shaped] at h ⊢
      exact Pattern.loose_of_tidy inner h

/-- Tidy trees are loose. -/
theorem Pattern.loose_of_tidy : ∀ (p : List Node) {siblings : Bool},
    Pattern.ShapedAmong true siblings p → Pattern.ShapedAmong false siblings p
  | [], _, _ => Pattern.shapedAmong_nil
  | n :: p, _, h => by
      rw [Pattern.shapedAmong_cons] at h ⊢
      exact ⟨n.loose_of_tidy h.1, Pattern.loose_of_tidy p h.2⟩

theorem Pattern.looseEach_of_tidy : ∀ bs : List (List Node),
    Pattern.ShapedEach true bs → Pattern.ShapedEach false bs
  | [], _ => by simp [Pattern.ShapedEach]
  | b :: bs, h => by
      rw [Pattern.ShapedEach] at h ⊢
      have hb : Pattern.Plain false b := Pattern.loose_of_tidy b h.1
      exact ⟨hb.among, Pattern.looseEach_of_tidy bs h.2⟩

end

/-! ## Simplified trees are tidy -/

section Rewritings

variable {p q : Pattern} {branches : List Pattern}

theorem plain_groupOf (h : Pattern.Shaped true p) : Pattern.Plain true (groupOf p) := by
  have hgroup : Pattern.Plain true [.group p] := by
    rw [Pattern.plain_singleton, Node.Shaped]
    exact h
  unfold groupOf
  split
  · exact Pattern.plain_nil
  · exact hgroup
  · rename_i n hn
    apply h.plain
    intro bs hbs
    exact hn bs (by simpa using hbs)
  · exact hgroup

theorem length_groupOf_le (p : Pattern) : (groupOf p).length ≤ 1 := by
  unfold groupOf
  split <;> simp

theorem plain_repetitionOf {min : Nat} {max : Option Nat} (hbounds : Bounds.Allowed (min, max))
    (h : Pattern.Plain true p) (hp : p.length ≤ 1) :
    Pattern.Plain true (repetitionOf min max p) ∧ (repetitionOf min max p).length ≤ 1 := by
  rw [repetitionOf]
  split
  · exact ⟨Pattern.plain_nil, by simp⟩
  · rename_i hkept
    split
    · exact ⟨h, hp⟩
    · have hne : p ≠ [] := fun hp => hkept (.inl (isEmpty_iff.2 hp))
      have hpos : 0 < p.length := length_pos_iff.2 hne
      refine ⟨?_, by simp⟩
      rw [Pattern.plain_singleton, Node.Shaped]
      exact ⟨⟨hbounds, by omega⟩, h⟩

theorem plain_optionalOf (hne : p ≠ []) (h : Pattern.Plain true p) :
    Pattern.Plain true (optionalOf p) := by
  have hbounds : Bounds.Allowed (0, some 1) := by
    simp [Bounds.Allowed, word32Bound]
  have hpos : 0 < p.length := length_pos_iff.2 hne
  rw [optionalOf, Pattern.plain_singleton, Node.Shaped]
  refine ⟨⟨hbounds, ?_⟩, ?_⟩
  · split
    · simp
    · omega
  · split
    · rw [Pattern.shapedAmong_cons, Node.Shaped]
      exact ⟨h.shaped, Pattern.shapedAmong_nil⟩
    · exact h

theorem shaped_alternationOf (hnodup : branches.Nodup)
    (h : ∀ p ∈ branches, Pattern.Plain true p) : Pattern.Shaped true (alternationOf branches) := by
  unfold alternationOf
  split
  · exact Pattern.plain_nil.shaped
  · exact (h _ (by simp)).shaped
  · rename_i a b
    have hne : a ≠ b := by simpa using hnodup
    by_cases ha : a.isEmpty
    · rw [if_pos ha]
      obtain rfl : a = [] := isEmpty_iff.1 ha
      exact (plain_optionalOf (Ne.symm hne) (h b (by simp))).shaped
    · rw [if_neg ha]
      by_cases hb : b.isEmpty
      · rw [if_pos hb]
        obtain rfl : b = [] := isEmpty_iff.1 hb
        exact (plain_optionalOf hne (h a (by simp))).shaped
      · rw [if_neg hb]
        exact Pattern.shaped_alternation h (by simp)
  · rename_i hnil hone htwo
    apply Pattern.shaped_alternation h
    rcases branches with _ | ⟨a, _ | ⟨b, bs⟩⟩
    · exact absurd rfl hnil
    · exact absurd rfl (hone a)
    · simp

theorem plain_of_spreadBranch (h : Pattern.Shaped true p) (hq : q ∈ spreadBranch p) :
    Pattern.Plain true q := by
  unfold spreadBranch at hq
  split at hq
  · exact Pattern.plain_of_mem_alternation (Pattern.shaped_singleton.1 h) hq
  · rw [Pattern.shaped_singleton, Node.Shaped, Pattern.shapedAmong_cons] at h
    exact Pattern.plain_of_mem_alternation h.1 hq
  · rename_i hbare _
    obtain rfl : q = p := by simpa using hq
    exact h.plain hbare

end Rewritings

mutual

/-- A node among siblings leaves at most one node, and no alternation. -/
theorem Node.shaped_simplify : ∀ (n : Node) {siblings : Bool}, n.Shaped false siblings →
    Pattern.Shaped true n.simplify ∧
      (siblings = true → Pattern.Plain true n.simplify ∧ n.simplify.length ≤ 1)
  | .literal c, _, _ => by
      simp [Node.simplify, Pattern.Shaped, Pattern.Plain, Node.Shaped]
  | .endAnchor, _, _ => by
      simp [Node.simplify, Pattern.Shaped, Pattern.Plain, Node.Shaped]
  | .oneOf items, _, h => by
      rw [Node.Shaped] at h
      have hplain : Pattern.Plain true [.oneOf items] := by
        rw [Pattern.plain_singleton, Node.Shaped]
        exact h
      rw [Node.simplify]
      exact ⟨hplain.shaped, fun _ => ⟨hplain, by simp⟩⟩
  | .group inner, _, h => by
      rw [Node.Shaped] at h
      have hplain := plain_groupOf (Pattern.shaped_simplifyAmong inner h (fun hs => hs)).1
      rw [Node.simplify]
      exact ⟨hplain.shaped, fun _ => ⟨hplain, length_groupOf_le _⟩⟩
  | .repetition min max body, _, h => by
      rw [Node.Shaped] at h
      obtain ⟨⟨hbounds, hone⟩, hbody⟩ := h
      obtain ⟨-, hplain⟩ := Pattern.shaped_simplifyAmong body hbody (fun _ => rfl)
      obtain ⟨hplain, hlength⟩ := hplain rfl
      have hrepeated := plain_repetitionOf hbounds hplain (by omega)
      rw [Node.simplify]
      exact ⟨hrepeated.1.shaped, fun _ => hrepeated⟩
  | .alternation branches, siblings, h => by
      rw [Node.Shaped] at h
      have hbranches := Pattern.plain_simplifyBranches branches h.2
      rw [Node.simplify, Pattern.distinct_eq_eraseDups]
      refine ⟨shaped_alternationOf (nodup_eraseDups _) ?_, ?_⟩
      · intro p hp
        exact hbranches p (mem_eraseDups.1 hp)
      · intro hs
        rw [hs] at h
        exact absurd h.1.1 (by simp)

theorem Pattern.shaped_simplifyAmong : ∀ (p : List Node) {siblings : Bool},
    Pattern.ShapedAmong false siblings p → (Pattern.hasSiblings p = true → siblings = true) →
    Pattern.Shaped true (Pattern.simplify p) ∧
      (siblings = true → Pattern.Plain true (Pattern.simplify p) ∧
        (Pattern.simplify p).length ≤ p.length)
  | [], _, _, _ => by simp [Pattern.simplify, Pattern.plain_nil.shaped]
  | [n], _, h, _ => by
      rw [Pattern.shapedAmong_cons] at h
      simpa [Pattern.simplify] using n.shaped_simplify h.1
  | n :: m :: p, siblings, h, hs => by
      obtain rfl : siblings = true := hs (by simp [Pattern.hasSiblings])
      rw [Pattern.shapedAmong_cons] at h
      obtain ⟨hn, hlength⟩ := (n.shaped_simplify h.1).2 rfl
      obtain ⟨hp, hrest⟩ := (Pattern.shaped_simplifyAmong (m :: p) h.2 (fun _ => rfl)).2 rfl
      have hplain : Pattern.Plain true (Pattern.simplify (n :: m :: p)) := by
        rw [Pattern.simplify, Pattern.plain_append]
        exact ⟨hn, hp⟩
      refine ⟨hplain.shaped, fun _ => ⟨hplain, ?_⟩⟩
      rw [Pattern.simplify, length_append, length_cons]
      omega

theorem Pattern.plain_simplifyBranches : ∀ bs : List (List Node), Pattern.ShapedEach false bs →
    ∀ q ∈ Pattern.simplifyBranches bs, Pattern.Plain true q
  | [], _, q, hq => by simp [Pattern.simplifyBranches] at hq
  | b :: bs, h, q, hq => by
      rw [Pattern.ShapedEach, Bool.false_or] at h
      rw [Pattern.simplifyBranches] at hq
      rcases mem_append.1 hq with hq | hq
      · exact plain_of_spreadBranch (Pattern.shaped_simplifyAmong b h.1 (fun hs => hs)).1 hq
      · exact Pattern.plain_simplifyBranches bs h.2 q hq

end

/-- Simplified loose trees are tidy. -/
theorem Pattern.shaped_simplify {p : Pattern} (h : Pattern.Shaped false p) :
    Pattern.Shaped true (Pattern.simplify p) :=
  (Pattern.shaped_simplifyAmong p h (fun hs => hs)).1

/-! ## Derivatives of tidy trees are loose -/

@[simp] theorem joinPaths_nil : joinPaths [] = none := by simp [joinPaths, Pattern.distinct]

@[simp] theorem joinPaths_singleton (path : Pattern) : joinPaths [path] = some path := by
  simp [joinPaths, Pattern.distinct_eq_eraseDups, eraseDups_cons]

theorem shaped_joinPaths {paths : List Pattern} {q : Pattern} (hq : q ∈ joinPaths paths)
    (h : ∀ path ∈ paths, Pattern.Plain false path) :
    Pattern.Shaped false q ∧ (paths.length ≤ 1 → Pattern.Plain false q) := by
  have hdistinct : ∀ path ∈ Pattern.distinct paths, Pattern.Plain false path :=
    fun path hpath => h path (Pattern.mem_distinct.1 hpath)
  rw [joinPaths] at hq
  split at hq
  · simp at hq
  · rename_i path hpaths
    obtain rfl : path = q := by simpa using hq
    have hplain := hdistinct path (by simp [hpaths])
    exact ⟨hplain.shaped, fun _ => hplain⟩
  · rename_i hnil hone
    obtain rfl : [Node.alternation (Pattern.distinct paths)] = q := by simpa using hq
    constructor
    · rw [Pattern.shaped_singleton, Node.Shaped]
      refine ⟨⟨rfl, by simp⟩, Pattern.shapedEach_iff.2 ?_⟩
      intro b hb
      exact (hdistinct b hb).among
    · intro hlength
      rcases paths with _ | ⟨path, _ | ⟨more, paths⟩⟩
      · exact absurd rfl hnil
      · exact absurd rfl (hone path)
      · simp at hlength

theorem plain_repetitionRest {min : Nat} {max : Option Nat} {body : Pattern}
    (hbounds : Bounds.Allowed (min, max)) (hone : body.length = 1) (h : Pattern.Plain false body) :
    Pattern.Plain false (repetitionRest min max body) := by
  rw [repetitionRest]
  split
  · exact Pattern.plain_nil
  · rw [Pattern.plain_singleton, Node.Shaped]
    refine ⟨⟨?_, hone⟩, h⟩
    obtain ⟨hmin, hmax⟩ := hbounds
    dsimp only at hmin hmax
    refine ⟨by dsimp only; omega, ?_⟩
    intro m hm
    cases max with
    | none => simp at hm
    | some k =>
        obtain ⟨hk, hle⟩ := hmax k rfl
        have hlast : Nat.max (k - 1) (min - 1) = k - 1 := Nat.max_eq_left (by omega)
        simp only [Option.map_some, hlast, Option.some.injEq] at hm
        dsimp only
        omega

/-- A character has at most one path for every node. -/
theorem Pattern.length_paths_le (c : Char) (p : Pattern) : (Pattern.paths c p).length ≤ p.length := by
  induction p with
  | nil => simp [Pattern.paths]
  | cons n p ih =>
      have hfirst : ((n.derivative c).map (· ++ p)).toList.length ≤ 1 := by
        cases n.derivative c <;> simp
      rw [Pattern.paths, length_append, length_cons]
      split
      · omega
      · rw [length_nil]
        omega

mutual

/-- The derivative of a node among siblings is plain. -/
theorem Node.shaped_of_derivative (c : Char) : ∀ (n : Node) {siblings : Bool},
    n.Shaped true siblings → ∀ q ∈ n.derivative c,
      Pattern.Shaped false q ∧ (siblings = true → Pattern.Plain false q)
  | .literal a, _, _, q, hq => by
      rw [Node.derivative] at hq
      split at hq
      · obtain rfl : [] = q := by simpa using hq
        exact ⟨Pattern.plain_nil.shaped, fun _ => Pattern.plain_nil⟩
      · simp at hq
  | .oneOf items, _, _, q, hq => by
      rw [Node.derivative] at hq
      split at hq
      · obtain rfl : [] = q := by simpa using hq
        exact ⟨Pattern.plain_nil.shaped, fun _ => Pattern.plain_nil⟩
      · simp at hq
  | .endAnchor, _, _, q, hq => by simp [Node.derivative] at hq
  | .group inner, _, h, q, hq => by
      rw [Node.Shaped] at h
      rw [Node.derivative] at hq
      obtain ⟨r, hr, rfl⟩ := Option.map_eq_some_iff.1 hq
      have hshaped := (Pattern.shaped_of_paths c inner h (fun hs => hs)).2 r hr
      have hplain : Pattern.Plain false [.group r] := by
        rw [Pattern.plain_singleton, Node.Shaped]
        exact hshaped
      exact ⟨hplain.shaped, fun _ => hplain⟩
  | .repetition min max body, _, h, q, hq => by
      rw [Node.Shaped] at h
      obtain ⟨⟨hbounds, hone⟩, hbody⟩ := h
      rw [Node.derivative] at hq
      split at hq
      · simp at hq
      · obtain ⟨r, hr, rfl⟩ := Option.map_eq_some_iff.1 hq
        have hpaths := (Pattern.shaped_of_paths c body hbody (fun _ => rfl)).1 rfl
        have hlength := Pattern.length_paths_le c body
        have hround := (shaped_joinPaths hr hpaths).2 (by omega)
        have hrest := plain_repetitionRest hbounds hone (Pattern.loose_of_tidy body hbody)
        have hplain := Pattern.plain_append.2 ⟨hround, hrest⟩
        exact ⟨hplain.shaped, fun _ => hplain⟩
  | .alternation branches, _, h, q, hq => by
      rw [Node.Shaped] at h
      obtain ⟨⟨rfl, -⟩, hbranches⟩ := h
      rw [Node.derivative] at hq
      split at hq
      · simp at hq
      · obtain rfl : [Node.alternation (Pattern.survivors c branches)] = q := by simpa using hq
        refine ⟨?_, by simp⟩
        rw [Pattern.shaped_singleton, Node.Shaped]
        refine ⟨⟨rfl, by simp⟩, Pattern.shapedEach_iff.2 ?_⟩
        intro b hb
        rw [Bool.false_or]
        exact Pattern.shaped_of_survivors c branches hbranches b hb

theorem Pattern.shaped_of_paths (c : Char) : ∀ (p : List Node) {siblings : Bool},
    Pattern.ShapedAmong true siblings p → (Pattern.hasSiblings p = true → siblings = true) →
    (siblings = true → ∀ path ∈ Pattern.paths c p, Pattern.Plain false path) ∧
      ∀ q ∈ joinPaths (Pattern.paths c p), Pattern.Shaped false q
  | [], _, _, _ => by simp [Pattern.paths]
  | n :: p, siblings, h, hs => by
      rw [Pattern.shapedAmong_cons] at h
      have hpaths : siblings = true →
          ∀ path ∈ Pattern.paths c (n :: p), Pattern.Plain false path := by
        rintro rfl path hpath
        rw [Pattern.paths] at hpath
        rcases mem_append.1 hpath with hpath | hpath
        · obtain ⟨r, hr, rfl⟩ := Option.map_eq_some_iff.1 (Option.mem_toList.1 hpath)
          have hfirst := (n.shaped_of_derivative c h.1 r hr).2 rfl
          exact Pattern.plain_append.2 ⟨hfirst, Pattern.loose_of_tidy p h.2⟩
        · split at hpath
          · exact (Pattern.shaped_of_paths c p h.2 (fun _ => rfl)).1 rfl path hpath
          · simp at hpath
      refine ⟨hpaths, fun q hq => ?_⟩
      cases siblings with
      | true => exact (shaped_joinPaths hq (hpaths rfl)).1
      | false =>
          obtain rfl : p = [] := by
            cases p with
            | nil => rfl
            | cons m p => simp [Pattern.hasSiblings] at hs
          have hderived : q ∈ n.derivative c := by
            cases hn : n.derivative c with
            | none => simp [Pattern.paths, hn] at hq
            | some r => simpa [Pattern.paths, hn] using hq
          exact (n.shaped_of_derivative c h.1 q hderived).1

theorem Pattern.shaped_of_survivors (c : Char) : ∀ bs : List (List Node),
    Pattern.ShapedEach true bs → ∀ q ∈ Pattern.survivors c bs, Pattern.Shaped false q
  | [], _, q, hq => by simp [Pattern.survivors] at hq
  | b :: bs, h, q, hq => by
      rw [Pattern.ShapedEach, Bool.true_or] at h
      rw [Pattern.survivors] at hq
      rcases mem_append.1 hq with hq | hq
      · exact (Pattern.shaped_of_paths c b h.1 (fun _ => rfl)).2 q (Option.mem_toList.1 hq)
      · exact Pattern.shaped_of_survivors c bs h.2 q hq

end

/-- Derivatives of tidy trees are loose. -/
theorem Pattern.shaped_of_derivative {p q : Pattern} {c : Char} (h : Pattern.Shaped true p)
    (hq : q ∈ Pattern.derivative c p) : Pattern.Shaped false q :=
  (Pattern.shaped_of_paths c p h (fun hs => hs)).2 q hq

/-- Residuals of tidy trees are tidy. -/
theorem Pattern.shaped_of_residual {p q : Pattern} {text : List Char} (h : Pattern.Shaped true p)
    (hq : q ∈ Pattern.residual p text) : Pattern.Shaped true q := by
  induction text generalizing p with
  | nil =>
      obtain rfl : p = q := by simpa using hq
      exact h
  | cons c text ih =>
      rw [Pattern.residual_cons, Option.mem_def, Option.bind_eq_some_iff] at hq
      obtain ⟨r, hr, hrest⟩ := hq
      obtain ⟨d, hd, rfl⟩ := Option.map_eq_some_iff.1 hr
      exact ih (Pattern.shaped_simplify (Pattern.shaped_of_derivative h hd)) hrest

/-! ## Trees that have been read are tidy -/

theorem ordered_of_readClassItem {item : ClassItem} {s rest : List Char}
    (h : readClassItem s = .ok (item, rest)) : item.Ordered := by
  rw [readClassItem] at h
  obtain ⟨⟨low, tail⟩, -, h⟩ := bind_eq_ok_iff.1 h
  dsimp only at h
  split at h
  · obtain ⟨⟨high, tail⟩, -, h⟩ := bind_eq_ok_iff.1 h
    dsimp only at h
    split at h
    · simp [refuse] at h
    · rename_i hle
      obtain ⟨rfl, -⟩ : ClassItem.range low high = item ∧ tail = rest := by simpa using h
      exact Char.not_lt.1 hle
  · obtain ⟨rfl, -⟩ : ClassItem.single low = item ∧ tail = rest := by simpa using h
    trivial

/-- The items of a class are ordered, and there is one unless the class may be closed at
once. -/
theorem ordered_of_readClassItems {fuel : Nat} {first : Bool} {s rest : List Char}
    {items : List ClassItem} (h : readClassItems fuel first s = .ok (items, rest)) :
    (first = true → items ≠ []) ∧ ∀ item ∈ items, item.Ordered := by
  induction fuel generalizing first s items rest with
  | zero => cases s <;> simp [readClassItems, refuse] at h
  | succ fuel ih =>
      cases s with
      | nil => simp [readClassItems, refuse] at h
      | cons c s =>
          rw [readClassItems] at h
          split at h
          · rename_i hclose
            obtain ⟨rfl, -⟩ : [] = items ∧ s = rest := by simpa using h
            simp [hclose.2]
          · split at h
            · simp [leaveOut] at h
            · obtain ⟨⟨item, t⟩, hitem, h⟩ := bind_eq_ok_iff.1 h
              obtain ⟨⟨more, t'⟩, hmore, h⟩ := bind_eq_ok_iff.1 h
              obtain ⟨rfl, -⟩ : item :: more = items ∧ t' = rest := by
                simpa [pure, Except.pure] using h
              refine ⟨fun _ => cons_ne_nil _ _, ?_⟩
              exact forall_mem_cons.2 ⟨ordered_of_readClassItem hitem, (ih hmore).2⟩

theorem shaped_of_readAtom {c : Char} {atom : Node} {s rest : List Char}
    (h : readAtom c s = .ok (atom, rest)) : atom.Shaped true true := by
  rcases readAtom_cases h with
    ⟨items, -, -, hitems, rfl⟩ | ⟨d, -, -, rfl⟩ | ⟨-, rfl, -⟩ | ⟨-, rfl, -⟩
  · obtain ⟨hne, hordered⟩ := ordered_of_readClassItems hitems
    rw [Node.Shaped]
    exact ⟨hne rfl, hordered⟩
  all_goals simp [Node.Shaped]

theorem shaped_of_readQuantified {atom node : Node} {s rest : List Char}
    (hatom : atom.Shaped true true) (h : readQuantified atom s = .ok (node, rest)) :
    node.Shaped true true := by
  rcases readQuantified_cases h with ⟨-, rfl, -⟩ | ⟨min, max, hbounds, -, -, rfl⟩
  · exact hatom
  · obtain ⟨q, -, -, hallowed⟩ := form_of_readBounds hbounds
    rw [Node.Shaped]
    exact ⟨⟨hallowed, rfl⟩, Pattern.plain_singleton.2 hatom⟩

theorem shaped_ofBranches {branch : Pattern} {more : List Pattern}
    (h : ∀ p ∈ branch :: more, Pattern.Plain true p) :
    Pattern.Shaped true (Pattern.ofBranches branch more) := by
  rw [forall_mem_cons] at h
  cases more with
  | nil => exact h.1.shaped
  | cons p more => exact Pattern.shaped_alternation (forall_mem_cons.2 h) (by simp)

theorem broughtAbout_shaped : BroughtAbout (·.Shaped true true) where
  atom _ _ _ _ h := shaped_of_readAtom h
  group branch more h := by
    rw [Node.Shaped]
    exact shaped_ofBranches fun p hp => Pattern.shapedAmong_iff.2 (h p hp)
  quantified _ _ _ _ hatom h := shaped_of_readQuantified hatom h

theorem Pattern.shaped_of_ofChars {s : List Char} {p : Pattern}
    (h : Pattern.ofChars s = .ok p) : Pattern.Shaped true p := by
  obtain ⟨-, branch, more, hread, rfl⟩ := Pattern.ofChars_eq_ok_iff.1 h
  apply shaped_ofBranches
  intro q hq
  exact Pattern.shapedAmong_iff.2 (broughtAbout_shaped.forall_mem hread q hq)

/-- A pattern that has been read from a text is tidy. -/
theorem Regex.shaped_of_parse {source : String} {r : Regex} (h : Regex.parse source = .ok r) :
    Pattern.Shaped true r.pattern :=
  Pattern.shaped_of_ofChars (Regex.parse_eq_ok_iff.1 h).2

end Guided
