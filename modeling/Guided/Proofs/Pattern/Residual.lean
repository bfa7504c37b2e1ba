import Guided.Proofs.Pattern.Marks
import Guided.Proofs.Pattern.Reading
import Guided.Proofs.Pattern.Simplify

/-!
# What a residual matches

Following a pattern through a text leaves a residual that takes exactly what the pattern
takes behind that text; where no residual is left, the pattern takes nothing behind it.
Whole-text matching, which knows nothing of residuals, comes to the same verdict.

## Main statements

* `Pattern.exists_residual_iff`: the law for a text, by induction on the text.
* `Regex.fullMatch_iff`: what whole-text matching decides, where it is possible.
* `Regex.residual_law`: the residuals of a regex that has been read.
-/
namespace Guided

namespace Pattern

variable {p : Pattern}

theorem wellFormed_of_step {c : Char} {q : Pattern} (h : Pattern.WellFormed p)
    (hq : q ∈ Pattern.step p c) : Pattern.WellFormed q := by
  obtain ⟨r, hr, rfl⟩ := Option.map_eq_some_iff.1 hq
  exact Pattern.wellFormed_simplify r (Pattern.wellFormed_of_derivative c h hr)

/-- The law for one character, after simplification. -/
theorem exists_step_iff (h : Pattern.WellFormed p) (c : Char) (u rest : List Char) :
    (∃ q ∈ Pattern.step p c, Pattern.Matches q u rest) ↔
      Pattern.Matches p (c :: u) rest := by
  rw [← Pattern.matches_derivative_iff c h]
  constructor
  · intro hstep
    obtain ⟨_, hq, hmatch⟩ := hstep
    obtain ⟨r, hr, rfl⟩ := Option.map_eq_some_iff.1 hq
    have hwell := Pattern.wellFormed_of_derivative c h hr
    exact ⟨r, hr, (Pattern.matches_simplify_iff r hwell u rest).1 hmatch⟩
  · intro hderived
    obtain ⟨r, hr, hmatch⟩ := hderived
    have hwell := Pattern.wellFormed_of_derivative c h hr
    exact ⟨Pattern.simplify r, Option.map_eq_some_iff.2 ⟨r, hr, rfl⟩,
      (Pattern.matches_simplify_iff r hwell u rest).2 hmatch⟩

theorem wellFormed_of_residual {text : List Char} {q : Pattern} (h : Pattern.WellFormed p)
    (hq : q ∈ Pattern.residual p text) : Pattern.WellFormed q := by
  induction text generalizing p with
  | nil =>
      obtain rfl : p = q := by simpa using hq
      exact h
  | cons c text ih =>
      rw [Pattern.residual_cons, Option.mem_def, Option.bind_eq_some_iff] at hq
      obtain ⟨r, hr, hrest⟩ := hq
      exact ih (wellFormed_of_step h hr) hrest

/-- Some residual takes `u` if and only if the pattern takes the text followed before and
then `u`. -/
theorem exists_residual_iff (h : Pattern.WellFormed p) (text u rest : List Char) :
    (∃ q ∈ Pattern.residual p text, Pattern.Matches q u rest) ↔
      Pattern.Matches p (text ++ u) rest := by
  induction text generalizing p with
  | nil => simp
  | cons c text ih =>
      rw [List.cons_append, ← exists_step_iff h]
      simp only [Pattern.residual_cons, Option.mem_def, Option.bind_eq_some_iff]
      constructor
      · intro hres
        obtain ⟨q, ⟨r, hr, hq⟩, hmatch⟩ := hres
        exact ⟨r, hr, (ih (wellFormed_of_step h hr)).1 ⟨q, hq, hmatch⟩⟩
      · intro hstep
        obtain ⟨r, hr, hmatch⟩ := hstep
        obtain ⟨q, hq, hmatch⟩ := (ih (wellFormed_of_step h hr)).2 hmatch
        exact ⟨q, ⟨r, hr, hq⟩, hmatch⟩

/-- A residual accepts what the pattern accepts behind the text. -/
theorem accepts_of_residual_eq_some {text : List Char} {q : Pattern}
    (h : Pattern.WellFormed p) (hq : Pattern.residual p text = some q) (u : List Char) :
    Pattern.Accepts q u ↔ Pattern.Accepts p (text ++ u) := by
  rw [Pattern.Accepts, Pattern.Accepts, ← exists_residual_iff h, hq]
  simp

/-- Where no residual is left, the pattern accepts nothing that begins with the text. -/
theorem not_accepts_of_residual_eq_none {text : List Char} (h : Pattern.WellFormed p)
    (hnone : Pattern.residual p text = none) (u : List Char) :
    ¬ Pattern.Accepts p (text ++ u) := by
  rw [Pattern.Accepts, ← exists_residual_iff h, hnone]
  simp

/-- The residual tells whether the text followed is itself accepted. -/
theorem isAccepting_residual_iff (h : Pattern.WellFormed p) (text : List Char) :
    isAccepting (Pattern.residual p text) = true ↔ Pattern.Accepts p text := by
  cases hres : Pattern.residual p text with
  | none =>
      have hnot := not_accepts_of_residual_eq_none h hres []
      rw [List.append_nil] at hnot
      simp [isAccepting, hnot]
  | some q =>
      have hlaw := accepts_of_residual_eq_some h hres []
      rw [List.append_nil, Pattern.accepts_nil_iff (wellFormed_of_residual h hres)] at hlaw
      simpa [isAccepting] using hlaw

end Pattern

namespace Regex

/-- Whole-text matching is possible within its limits; they are a matter of the pattern
alone, not of the text. -/
theorem fullMatch_eq {r : Regex} (hlimits : Pattern.checkLimits r.pattern = .ok ())
    (text : String) : r.fullMatch text = .ok (Pattern.matchesAll r.pattern text.toList) := by
  simp [Regex.fullMatch, Pattern.fullMatch, hlimits]

theorem checkLimits_of_fullMatch {r : Regex} {text : String} {b : Bool}
    (h : r.fullMatch text = .ok b) : Pattern.checkLimits r.pattern = .ok () := by
  rw [Regex.fullMatch, Pattern.fullMatch] at h
  split at h
  · simp at h
  · assumption

/-- Where whole-text matching is possible, it decides the language. -/
theorem fullMatch_iff {r : Regex} (hr : Pattern.WellFormed r.pattern) {text : String}
    {b : Bool} (h : r.fullMatch text = .ok b) :
    b = true ↔ Pattern.Accepts r.pattern text.toList := by
  have heq := fullMatch_eq (checkLimits_of_fullMatch h) text
  rw [h, Except.ok.injEq] at heq
  rw [heq]
  exact Pattern.matchesAll_iff hr text.toList

/-- **The derivative law.** The residual of a regex after a text accepts, and matches as a
whole, what the regex accepts behind that text; without a residual there is nothing that it
accepts there. Whether the residual is accepting is what whole-text matching answers. -/
theorem residual_law {source : String} {r : Regex} (h : Regex.parse source = .ok r)
    (t s : String) :
    (∀ q, r.residual t = some q →
      (Pattern.Accepts q s.toList ↔ Pattern.Accepts r.pattern (t ++ s).toList) ∧
        ∀ b, (Regex.ofPattern q).fullMatch s = .ok b →
          (b = true ↔ Pattern.Accepts r.pattern (t ++ s).toList)) ∧
      (r.residual t = none → ¬ Pattern.Accepts r.pattern (t ++ s).toList) ∧
        ∀ b, r.fullMatch t = .ok b → isAccepting (r.residual t) = b := by
  have hr : Pattern.WellFormed r.pattern := wellFormed_of_parse h
  rw [String.toList_append]
  refine ⟨?_, ?_, ?_⟩
  · intro q hq
    have hlaw := Pattern.accepts_of_residual_eq_some hr hq s.toList
    refine ⟨hlaw, ?_⟩
    intro b hb
    have hwell : Pattern.WellFormed (Regex.ofPattern q).pattern :=
      Pattern.wellFormed_of_residual hr hq
    rw [← hlaw]
    exact fullMatch_iff hwell hb
  · intro hnone
    exact Pattern.not_accepts_of_residual_eq_none hr hnone s.toList
  · intro b hb
    have hiff := (Pattern.isAccepting_residual_iff hr t.toList).trans (fullMatch_iff hr hb).symm
    exact Bool.eq_iff_iff.2 hiff

/-- A pattern whose rounds end with the input or with a character, after one that may be
skipped. -/
def anchoredRounds : Regex :=
  ⟨"(a?b|$)\x7b1,2\x7d", [.repetition 1 (some 2) [.group [.alternation
    [[.repetition 0 (some 1) [.literal 'a'], .literal 'b'], [.endAnchor]]]]]⟩

/-- The law for `anchoredRounds`, followed into its first round. -/
theorem residual_law_anchoredRounds :
    ∃ q, anchoredRounds.residual "a" = some q ∧
      (Pattern.Accepts q "bb".toList ↔
        Pattern.Accepts anchoredRounds.pattern ("a" ++ "bb").toList) ∧
      (anchoredRounds.residual "ac" = none →
        ¬ Pattern.Accepts anchoredRounds.pattern ("ac" ++ "b").toList) ∧
      ∀ b, anchoredRounds.fullMatch "ab" = .ok b →
        isAccepting (anchoredRounds.residual "ab") = b := by
  have hparse : Regex.parse "(a?b|$)\x7b1,2\x7d" = .ok anchoredRounds := by rfl
  obtain ⟨q, hq⟩ : ∃ q, anchoredRounds.residual "a" = some q :=
    Option.isSome_iff_exists.1 (by rfl)
  have hsome := ((residual_law hparse "a" "bb").1 q hq).1
  have hnone := (residual_law hparse "ac" "b").2.1
  have hmatch := (residual_law hparse "ab" "").2.2
  exact ⟨q, hq, hsome, hnone, hmatch⟩

end Regex

end Guided
