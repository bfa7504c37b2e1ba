import Guided.Pattern.Language
import Guided.Pattern.Marks

/-!
# What is matched without reading

A well-formed tree has bounds in order and no alternation without branches. On such a tree
the two ways of passing over a node are what they say: a node accepts the empty text at
the end of input if it matches nothing there, and it is skippable if it matches nothing
before a further character.

## Main definitions

* `Pattern.WellFormed`: the trees that a pattern text can spell.

## Main statements

* `Pattern.matches_nil_iff`: a sequence is passed without reading if it takes the empty text.
* `times_cons_iff`: a repetition that reads something reads it in its first round.
-/
namespace Guided

mutual

/-- The bounds of repetitions are in order and alternations have branches. -/
def Node.WellFormed : Node → Prop
  | .literal _ | .oneOf _ | .endAnchor => True
  | .repetition min max body => (∀ m, max = some m → min ≤ m) ∧ Pattern.WellFormed body
  | .alternation branches => branches ≠ [] ∧ Pattern.WellFormedEach branches
  | .group inner => Pattern.WellFormed inner

/-- Every node of the sequence is well-formed. -/
def Pattern.WellFormed : List Node → Prop
  | [] => True
  | node :: rest => node.WellFormed ∧ Pattern.WellFormed rest

/-- Every branch is well-formed. -/
def Pattern.WellFormedEach : List (List Node) → Prop
  | [] => True
  | branch :: rest => Pattern.WellFormed branch ∧ Pattern.WellFormedEach rest

end

namespace Pattern

@[simp] theorem wellFormed_nil : Pattern.WellFormed [] := by simp only [Pattern.WellFormed]

@[simp] theorem wellFormed_cons (node : Node) (p : Pattern) :
    Pattern.WellFormed (node :: p) ↔ node.WellFormed ∧ Pattern.WellFormed p := by
  simp only [Pattern.WellFormed]

@[simp] theorem wellFormed_append (p q : Pattern) :
    Pattern.WellFormed (p ++ q) ↔ Pattern.WellFormed p ∧ Pattern.WellFormed q := by
  induction p with
  | nil => simp
  | cons node p ih => simp [ih, and_assoc]

theorem wellFormed_iff {p : Pattern} : Pattern.WellFormed p ↔ ∀ node ∈ p, node.WellFormed := by
  induction p with
  | nil => simp
  | cons node p ih => simp [ih]

theorem wellFormedEach_iff {branches : List Pattern} :
    Pattern.WellFormedEach branches ↔ ∀ p ∈ branches, Pattern.WellFormed p := by
  induction branches with
  | nil => simp [Pattern.WellFormedEach]
  | cons branch branches ih => simp [Pattern.WellFormedEach, ih]

end Pattern

namespace Node

variable {u rest : List Char}

@[simp] theorem matches_literal {c : Char} : (literal c).Matches u rest ↔ u = [c] := by
  simp only [Node.Matches]

@[simp] theorem matches_oneOf {items : List ClassItem} :
    (oneOf items).Matches u rest ↔ ∃ c, u = [c] ∧ classContains items c = true := by
  simp only [Node.Matches]

@[simp] theorem matches_endAnchor : endAnchor.Matches u rest ↔ u = [] ∧ rest = [] := by
  simp only [Node.Matches]

@[simp] theorem matches_group {inner : Pattern} :
    (group inner).Matches u rest ↔ Pattern.Matches inner u rest := by
  simp only [Node.Matches]

@[simp] theorem matches_alternation {branches : List Pattern} :
    (alternation branches).Matches u rest ↔ ∃ p ∈ branches, Pattern.Matches p u rest := by
  simp only [Node.Matches, Pattern.matchesAny_iff]

theorem matches_repetition {min : Nat} {max : Option Nat} {body : Pattern} :
    (repetition min max body).Matches u rest ↔
      ∃ n, min ≤ n ∧ (∀ m, max = some m → n ≤ m) ∧ Times (Pattern.Matches body) n u rest := by
  simp only [Node.Matches]

end Node

@[simp] theorem Pattern.matches_singleton (node : Node) (u rest : List Char) :
    Pattern.Matches [node] u rest ↔ node.Matches u rest := by
  rw [Pattern.matches_cons]
  constructor
  · rintro ⟨v, w, rfl, hnode, hw⟩
    rw [Pattern.matches_nil] at hw
    subst hw
    simpa using hnode
  · intro h
    exact ⟨u, [], by simp, by simpa using h, by simp⟩

/-- A text that begins with a character is split before the character or behind it. -/
theorem exists_split_cons_iff {F : List Char → List Char → Prop} {c : Char} {u : List Char} :
    (∃ v w, c :: u = v ++ w ∧ F v w) ↔
      F [] (c :: u) ∨ ∃ v w, u = v ++ w ∧ F (c :: v) w := by
  constructor
  · intro h
    obtain ⟨v, w, hvw, hF⟩ := h
    cases v with
    | nil =>
        obtain rfl : c :: u = w := by simpa using hvw
        exact Or.inl hF
    | cons d v =>
        obtain ⟨rfl, rfl⟩ : c = d ∧ u = v ++ w := by simpa using hvw
        exact Or.inr ⟨v, w, rfl, hF⟩
  · intro h
    rcases h with hF | ⟨v, w, rfl, hF⟩
    · exact ⟨[], c :: u, rfl, hF⟩
    · exact ⟨c :: v, w, rfl, hF⟩

/-! ## Rounds of a repetition -/

section Times

variable {R : List Char → List Char → Prop} {u rest : List Char}

@[simp] theorem times_zero : Times R 0 u rest ↔ u = [] := by simp only [Times]

theorem times_succ {n : Nat} :
    Times R (n + 1) u rest ↔ ∃ v w, u = v ++ w ∧ R v (w ++ rest) ∧ Times R n w rest := by
  simp only [Times]

theorem times_one : Times R 1 u rest ↔ R u rest := by
  rw [times_succ]
  constructor
  · rintro ⟨v, w, rfl, hR, hw⟩
    rw [times_zero] at hw
    subst hw
    simpa using hR
  · intro h
    exact ⟨u, [], by simp, by simpa using h, by simp⟩

/-- A further round may be put first, if it takes nothing. -/
theorem times_succ_of_nil {n : Nat} (hnil : R [] (u ++ rest)) (h : Times R n u rest) :
    Times R (n + 1) u rest :=
  times_succ.2 ⟨[], u, rfl, hnil, h⟩

theorem times_nil_iff {n : Nat} : Times R n [] rest ↔ n = 0 ∨ R [] rest := by
  induction n with
  | zero => simp
  | succ n ih =>
      rw [times_succ]
      constructor
      · rintro ⟨v, w, hvw, hR, -⟩
        obtain ⟨rfl, rfl⟩ := List.append_eq_nil_iff.1 hvw.symm
        exact Or.inr (by simpa using hR)
      · rintro (hn | hR)
        · omega
        · exact ⟨[], [], rfl, by simpa using hR, ih.2 (Or.inr hR)⟩

/-- Rounds that read something can be ordered so that the first one does: what takes
nothing before a character takes nothing anywhere, and can come later. -/
theorem times_cons_iff {n : Nat} {c : Char}
    (hskip : ∀ c x y, R [] (c :: x) → R [] y) :
    Times R n (c :: u) rest ↔
      ∃ m v w, n = m + 1 ∧ u = v ++ w ∧ R (c :: v) (w ++ rest) ∧ Times R m w rest := by
  constructor
  · intro h
    induction n with
    | zero => simp at h
    | succ n ih =>
        obtain ⟨v, w, hvw, hR, htimes⟩ := times_succ.1 h
        cases v with
        | nil =>
            obtain rfl : c :: u = w := by simpa using hvw
            obtain ⟨m, v, w, rfl, rfl, hfirst, hlater⟩ := ih htimes
            exact ⟨m + 1, v, w, rfl, rfl, hfirst,
              times_succ_of_nil (hskip c (v ++ w ++ rest) _ (by simpa using hR)) hlater⟩
        | cons d v =>
            obtain ⟨rfl, rfl⟩ : c = d ∧ u = v ++ w := by simpa using hvw
            exact ⟨n, v, w, rfl, rfl, hR, htimes⟩
  · rintro ⟨m, v, w, rfl, rfl, hfirst, hlater⟩
    exact times_succ.2 ⟨c :: v, w, rfl, hfirst, hlater⟩

/-- The same where the number of rounds is restricted: after the first round, one less of
the number is left. -/
theorem exists_times_cons_iff {A : Nat → Prop} {c : Char}
    (hskip : ∀ c x y, R [] (c :: x) → R [] y) :
    (∃ n, A n ∧ Times R n (c :: u) rest) ↔
      ∃ v w, u = v ++ w ∧ R (c :: v) (w ++ rest) ∧ ∃ n, A (n + 1) ∧ Times R n w rest := by
  constructor
  · intro h
    obtain ⟨n, hn, htimes⟩ := h
    obtain ⟨m, v, w, rfl, rfl, hfirst, hlater⟩ := (times_cons_iff hskip).1 htimes
    exact ⟨v, w, rfl, hfirst, m, hn, hlater⟩
  · intro h
    obtain ⟨v, w, rfl, hfirst, m, hm, hlater⟩ := h
    exact ⟨m + 1, hm, (times_cons_iff hskip).2 ⟨m, v, w, rfl, rfl, hfirst, hlater⟩⟩

end Times

/-! ## Passing without reading -/

mutual

/-- What can be skipped matches nothing at the end of input too. -/
theorem Node.acceptsEmpty_of_skippable :
    ∀ node : Node, node.skippable = true → node.acceptsEmpty = true
  | .literal _, h | .oneOf _, h | .endAnchor, h => by simp [Node.skippable] at h
  | .group inner, h => by
      rw [Node.skippable] at h
      rw [Node.acceptsEmpty]
      exact Pattern.acceptsEmpty_of_skippable inner h
  | .alternation branches, h => by
      rw [Node.skippable] at h
      rw [Node.acceptsEmpty]
      exact Pattern.anyAcceptsEmpty_of_anySkippable branches h
  | .repetition min max body, h => by
      simp only [Node.skippable, Node.acceptsEmpty, Bool.or_eq_true] at h ⊢
      exact h.imp_right (Pattern.acceptsEmpty_of_skippable body)

theorem Pattern.acceptsEmpty_of_skippable :
    ∀ p : List Node, Pattern.skippable p = true → Pattern.acceptsEmpty p = true
  | [], _ => rfl
  | node :: rest, h => by
      simp only [Pattern.skippable, Pattern.acceptsEmpty, Bool.and_eq_true] at h ⊢
      exact ⟨node.acceptsEmpty_of_skippable h.1, Pattern.acceptsEmpty_of_skippable rest h.2⟩

theorem Pattern.anyAcceptsEmpty_of_anySkippable :
    ∀ bs : List (List Node), Pattern.anySkippable bs = true → Pattern.anyAcceptsEmpty bs = true
  | [], h => by simp [Pattern.anySkippable] at h
  | branch :: rest, h => by
      simp only [Pattern.anySkippable, Pattern.anyAcceptsEmpty, Bool.or_eq_true] at h ⊢
      exact h.imp (Pattern.acceptsEmpty_of_skippable branch)
        (Pattern.anyAcceptsEmpty_of_anySkippable rest)

end

/-- Whether one of the branches can be passed without reading. -/
def Pattern.anyPassable (atEnd : Bool) (branches : List Pattern) : Bool :=
  if atEnd then Pattern.anyAcceptsEmpty branches else Pattern.anySkippable branches

section Passable

variable {atEnd : Bool}

@[simp] theorem Pattern.passable_nil : Pattern.passable atEnd [] = true := by
  cases atEnd <;> rfl

@[simp] theorem Pattern.passable_cons (node : Node) (p : Pattern) :
    Pattern.passable atEnd (node :: p) = (node.passable atEnd && Pattern.passable atEnd p) := by
  cases atEnd <;> rfl

@[simp] theorem Pattern.anyPassable_nil : Pattern.anyPassable atEnd [] = false := by
  cases atEnd <;> rfl

@[simp] theorem Pattern.anyPassable_cons (p : Pattern) (bs : List Pattern) :
    Pattern.anyPassable atEnd (p :: bs) =
      (Pattern.passable atEnd p || Pattern.anyPassable atEnd bs) := by
  cases atEnd <;> rfl

@[simp] theorem Node.passable_literal (c : Char) : (literal c).passable atEnd = false := by
  cases atEnd <;> rfl

@[simp] theorem Node.passable_oneOf (items : List ClassItem) :
    (oneOf items).passable atEnd = false := by
  cases atEnd <;> rfl

@[simp] theorem Node.passable_endAnchor : endAnchor.passable atEnd = atEnd := by
  cases atEnd <;> rfl

@[simp] theorem Node.passable_group (inner : Pattern) :
    (group inner).passable atEnd = Pattern.passable atEnd inner := by
  cases atEnd <;> rfl

@[simp] theorem Node.passable_alternation (branches : List Pattern) :
    (alternation branches).passable atEnd = Pattern.anyPassable atEnd branches := by
  cases atEnd <;> rfl

@[simp] theorem Node.passable_repetition (min : Nat) (max : Option Nat) (body : Pattern) :
    (repetition min max body).passable atEnd =
      (min == 0 || max == some 0 || Pattern.passable atEnd body) := by
  cases atEnd <;> rfl

end Passable

mutual

/-- A node takes nothing before `rest` exactly when it can be passed there. -/
theorem Node.matches_nil_iff :
    ∀ node : Node, node.WellFormed → ∀ rest : List Char,
      node.Matches [] rest ↔ node.passable rest.isEmpty = true
  | .literal _, _, _ => by simp
  | .oneOf _, _, _ => by simp
  | .endAnchor, _, _ => by simp
  | .group inner, h, rest => by
      rw [Node.WellFormed] at h
      simpa using Pattern.matches_nil_iff inner h rest
  | .alternation branches, h, rest => by
      rw [Node.WellFormed] at h
      rw [Node.matches_alternation, Node.passable_alternation, ← Pattern.matchesAny_iff]
      exact Pattern.matchesAny_nil_iff branches h.2 rest
  | .repetition min max body, h, rest => by
      obtain ⟨hbounds, hbody⟩ : (∀ m, max = some m → min ≤ m) ∧ Pattern.WellFormed body := by
        simpa only [Node.WellFormed] using h
      have ih := Pattern.matches_nil_iff body hbody rest
      simp only [Node.matches_repetition, times_nil_iff, Node.passable_repetition,
        Bool.or_eq_true, beq_iff_eq, ← ih]
      constructor
      · rintro ⟨n, hmin, hmax, hn | hpass⟩
        · exact Or.inl (Or.inl (by omega))
        · exact Or.inr hpass
      · rintro ((hmin | hmax) | hpass)
        · exact ⟨0, by omega, fun m _ => Nat.zero_le m, Or.inl rfl⟩
        · exact ⟨0, hbounds 0 hmax, fun m _ => Nat.zero_le m, Or.inl rfl⟩
        · exact ⟨min, Nat.le_refl min, hbounds, Or.inr hpass⟩

theorem Pattern.matches_nil_iff :
    ∀ p : List Node, Pattern.WellFormed p → ∀ rest : List Char,
      Pattern.Matches p [] rest ↔ Pattern.passable rest.isEmpty p = true
  | [], _, _ => by simp
  | node :: p, h, rest => by
      rw [Pattern.wellFormed_cons] at h
      rw [Pattern.passable_cons, Bool.and_eq_true, ← node.matches_nil_iff h.1 rest,
        ← Pattern.matches_nil_iff p h.2 rest, Pattern.matches_cons]
      constructor
      · rintro ⟨v, w, hvw, hnode, hp⟩
        obtain ⟨rfl, rfl⟩ := List.append_eq_nil_iff.1 hvw.symm
        exact ⟨by simpa using hnode, hp⟩
      · rintro ⟨hnode, hp⟩
        exact ⟨[], [], rfl, by simpa using hnode, hp⟩

theorem Pattern.matchesAny_nil_iff :
    ∀ bs : List (List Node), Pattern.WellFormedEach bs → ∀ rest : List Char,
      Pattern.MatchesAny bs [] rest ↔ Pattern.anyPassable rest.isEmpty bs = true
  | [], _, _ => by simp [Pattern.MatchesAny]
  | branch :: bs, h, rest => by
      rw [Pattern.WellFormedEach] at h
      rw [Pattern.MatchesAny, Pattern.anyPassable_cons, Bool.or_eq_true,
        Pattern.matches_nil_iff branch h.1 rest, Pattern.matchesAny_nil_iff bs h.2 rest]

end

namespace Pattern

variable {p : Pattern}

/-- At the end of input, taking nothing is accepting the empty text. -/
theorem accepts_nil_iff (h : Pattern.WellFormed p) :
    Pattern.Accepts p [] ↔ Pattern.acceptsEmpty p = true := by
  simpa [Pattern.Accepts, Pattern.passable] using Pattern.matches_nil_iff p h []

/-- What takes nothing before a character takes nothing before any text. -/
theorem matches_nil_of_cons (h : Pattern.WellFormed p) (c : Char) (x y : List Char)
    (hnil : Pattern.Matches p [] (c :: x)) : Pattern.Matches p [] y := by
  have hskip : Pattern.skippable p = true := by
    simpa [Pattern.passable] using (Pattern.matches_nil_iff p h (c :: x)).1 hnil
  rw [Pattern.matches_nil_iff p h y]
  cases y with
  | nil => simpa [Pattern.passable] using Pattern.acceptsEmpty_of_skippable p hskip
  | cons d y => simpa [Pattern.passable] using hskip

end Pattern

end Guided
