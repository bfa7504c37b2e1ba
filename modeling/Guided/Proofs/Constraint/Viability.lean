import Guided.Proofs.Pattern.Terminals
import Guided.Proofs.Program.Updates

/-!
# Texts that can be completed

A pattern without an end anchor has no dead residuals: whatever it leaves of itself behind a
text takes some text, since it is made of terminals that read something. So as long as a
variable is being generated, a leaf on it tells exactly whether its text begins a match.

With an end anchor this is not so. After `b` the pattern `b$a` leaves `$a`, which takes
nothing.

## Main statements

* `Regex.residual_ne_none_iff`: a residual is left exactly if the text can be completed.
* `Regex.viable_iff_begins_match`: the same of leaves, in every state that a run reaches.
-/
namespace Guided

/-- A regex without an end anchor leaves a residual behind a text exactly if some text that
goes on from there matches. -/
theorem Regex.residual_ne_none_iff {source : String} {r : Regex}
    (h : Regex.parse source = .ok r) (hanchor : Node.endAnchor ∉ Pattern.terminals r.pattern)
    (text : String) : r.residual text ≠ none ↔
      ∃ more : String, Pattern.Accepts r.pattern (text ++ more).toList := by
  have hwell : Pattern.WellFormed r.pattern := wellFormed_of_parse h
  constructor
  · intro hsome
    obtain ⟨q, hq⟩ := Option.ne_none_iff_exists'.1 hsome
    have hq_reads : ∀ t ∈ Pattern.terminals q, t.Reads := by
      intro t ht
      have hmem : t ∈ Pattern.terminals r.pattern := Pattern.mem_terminals_of_residual hq ht
      have hne : t ≠ .endAnchor := fun htop => hanchor (htop ▸ hmem)
      exact Pattern.reads_of_mem_terminals r.pattern (shaped_of_parse h) hmem hne
    obtain ⟨u, hu⟩ :=
      Pattern.exists_matches q (Pattern.wellFormed_of_residual hwell hq) hq_reads
    refine ⟨String.ofList u, ?_⟩
    rw [String.toList_append, String.toList_ofList,
      ← Pattern.accepts_of_residual_eq_some hwell hq]
    exact hu []
  · rintro ⟨more, hmore⟩ hnone
    rw [String.toList_append] at hmore
    exact Pattern.not_accepts_of_residual_eq_none hwell hnone more.toList hmore

/-- **There are no dead residuals.** A regex without an end anchor leaves a residual behind a
text exactly if some text that goes on from there matches. So in every state that a run from
a start reaches, a leaf with the regex on a variable that is still being generated is true if
the text of the variable begins a match, and false if it does not. -/
theorem Regex.viable_iff_begins_match {W : Type} {source : String} {r : Regex}
    (h : Regex.parse source = .ok r)
    (hanchor : Node.endAnchor ∉ Pattern.terminals r.pattern) :
    (∀ text : String, r.residual text ≠ none ↔
      ∃ more : String, Pattern.Accepts r.pattern (text ++ more).toList) ∧
    ∀ {nodes : List (Constraint W)} {prompt : String} {us : List (Update W)} {s : ProgramState},
      Constraint.Built nodes → Run nodes (ProgramState.start prompt) us s →
        ∀ {id inputId : NodeId} {name text : String}, .pattern id inputId name r ∈ nodes →
          s.find? name = some ⟨text, false⟩ → ∀ scheduler : Scheduler W, ∃ b : Bool,
            ((Constraint.pattern id inputId name r).forward s scheduler).1 = .ok (.ofBool b) ∧
              (b = true ↔
                ∃ more : String, Pattern.Accepts r.pattern (text ++ more).toList) := by
  have hviable := Regex.residual_ne_none_iff h hanchor
  refine ⟨hviable, ?_⟩
  intro nodes prompt us s hb hrun id inputId name text hmem hvar scheduler
  have htracks : s.Tracks nodes := hrun.tracks hb (ProgramState.tracks_start nodes prompt)
  have hfresh : PatternLeaf.evaluate ⟨name, r⟩ id s = .ok (.ofBool (r.residual text).isSome) := by
    have heval : PatternLeaf.evaluate ⟨name, r⟩ id s = PatternLeaf.evaluateFresh ⟨name, r⟩ s :=
      htracks.evaluate_eq hmem rfl
    simp [heval, PatternLeaf.evaluateFresh, hvar]
  refine ⟨(r.residual text).isSome, ?_, ?_⟩
  · rw [Constraint.forward_pattern hvar, hfresh]
  · rw [← hviable, ← Option.isSome_iff_ne_none]

namespace Sample

/-- The text has grown by itself since the leaf followed it. -/
def ahead : ProgramState :=
  (leaf.following (ProgramState.start "") "X" "a").withToken "X" "a"

theorem run_ahead : Run [leaf, input] (ProgramState.start "")
    [.follow leaf "X" "a", .token "X" "a"] ahead := by
  have hfollow : (leaf.follow (ProgramState.start "") "X" "a" (.empty : Scheduler Unit)).1 =
      .ok (.ofBool true, leaf.following (ProgramState.start "") "X" "a") := by
    simp only [Constraint.follow, Constraint.following, walk_leaf]
    rfl
  exact .update _ _ _ _ _ (.follow _ _ _ (by simp) .empty _ _ hfollow) <|
    .update _ _ _ _ _ (.token _ _) (.done _)

end Sample

/-- The pattern `a+b` on the text `aa`, of which only the first character is retained: the
leaf is true, because `b` completes the text. Nothing completes `aba`. -/
theorem Regex.viable_iff_begins_match_ahead :
    (Sample.leaf.forward Sample.ahead .empty).1 = .ok (.ofBool true) ∧
      ¬ ∃ more : String, Pattern.Accepts
        [.repetition 1 none [.literal 'a'], .literal 'b'] ("aba" ++ more).toList := by
  have hparse : Regex.parse "a+b" =
      .ok ⟨"a+b", [.repetition 1 none [.literal 'a'], .literal 'b']⟩ := by rfl
  have hvar : Sample.ahead.find? "X" = some ⟨"aa", false⟩ := by
    rw [Sample.ahead, ProgramState.find?_withToken_self, Constraint.find?_following]
    rfl
  obtain ⟨hresidual, hleaf⟩ := Regex.viable_iff_begins_match (W := Unit) hparse (by decide)
  obtain ⟨b, hforward, hb⟩ :=
    hleaf Sample.built_leaf Sample.run_ahead (List.mem_cons_self : Sample.leaf ∈ _) hvar .empty
  obtain rfl : b = true :=
    hb.2 ⟨"b", (Pattern.isAccepting_residual_iff (wellFormed_of_parse hparse) _).1 (by rfl)⟩
  refine ⟨hforward, ?_⟩
  rw [← hresidual "aba", ne_eq, Decidable.not_not]
  rfl

end Guided
