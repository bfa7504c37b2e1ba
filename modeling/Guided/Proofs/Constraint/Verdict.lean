import Guided.Engine.Run
import Guided.Proofs.Constraint.Polarity
import Guided.Proofs.Pattern.Residual
import Guided.Proofs.Program.Updates

/-!
# Verdicts on unfinished texts

A false verdict ends generation. It is about what has been generated so far, so the
question is which texts that go on from there are given up with it. None of them satisfies
the constraint where patterns on the variable are never negated and references to it always
are, because a pattern that rejects a text rejects every text that goes on from it. A
negated pattern works the other way round: it is false as soon as its text can go on, and a
text that goes on may well satisfy it.

## Main definitions

* `ProgramState.completed`: the state once a text has gone on and been finished.
* `Constraint.WithinLimits`: the patterns on a variable can be matched as a whole.
* `Constraint.Rejects`: evaluation comes to a false verdict.

## Main statements

* `Constraint.Built.stays_false_iff`: when a false verdict stays false.
-/
namespace Guided

variable {W : Type}

namespace ProgramState

/-- The state once the text of a variable has gone on and been finished. -/
def completed (s : ProgramState) (name more : String) : ProgramState :=
  (s.withToken name more).finishVariable name

variable {s : ProgramState} {name text : String}

theorem find?_completed_self (h : s.find? name = some ⟨text, false⟩) (more : String) :
    (s.completed name more).find? name = some ⟨text ++ more, true⟩ := by
  rw [completed, finishVariable, find?_updateVariable_self, find?_withToken_self, h]
  rfl

theorem find?_completed_of_ne (s : ProgramState) {other : String} (h : other ≠ name)
    (more : String) : (s.completed name more).find? other = s.find? other := by
  rw [completed, finishVariable, find?_updateVariable_of_ne _ h, withToken,
    find?_updateVariable_of_ne _ h]

/-- A leaf that does not look at a variable does not see it change. -/
theorem leafResult_completed_of_ne (s : ProgramState) (name more : String) (id : NodeId)
    (operator : Operator W) (href : operator ≠ .reference name)
    (hpattern : ∀ leaf, operator = .pattern leaf → leaf.variableName ≠ name) :
    (s.completed name more).leafResult id operator = s.leafResult id operator := by
  cases operator with
  | reference other =>
      have hne : other ≠ name := fun h => href (by rw [h])
      simp only [leafResult, s.find?_completed_of_ne hne]
  | pattern leaf =>
      have hne : leaf.variableName ≠ name := hpattern leaf rfl
      simp only [leafResult, PatternLeaf.evaluate, s.find?_completed_of_ne hne]
      rfl
  | all | any | negation | constant | call => rfl

theorem finished_of_find?_completed (h : s.find? name = some ⟨text, false⟩)
    (hothers : ∀ other v, other ≠ name → s.find? other = some v → v.finished = true)
    (more other : String) (w : Variable) (hw : (s.completed name more).find? other = some w) :
    w.finished = true := by
  by_cases hname : other = name
  · rw [hname, find?_completed_self h, Option.some.injEq] at hw
    rw [← hw]
  · rw [s.find?_completed_of_ne hname] at hw
    exact hothers other w hname hw

/-- Where a leaf has a value and its text is complete, the value says what the leaf says. -/
theorem truthy_iff_says {id : NodeId} {operator : Operator W} {v : Value}
    (h : s.leafResult id operator = .ok (.value v))
    (hcomplete : ∀ leaf, operator = .pattern leaf → Pattern.WellFormed leaf.regex.pattern ∧
      ∀ w, s.find? leaf.variableName = some w → w.finished = true) :
    v.truthy = true ↔ s.Says id operator := by
  cases operator with
  | all | any | negation => simp [leafResult] at h
  | reference other =>
      simp only [leafResult] at h
      split at h
      · rename_i w hw
        simp only [Except.ok.injEq, Eval.value.injEq] at h
        simp [Says, hw, ← h, Value.truthy]
      · simp at h
  | constant w =>
      simp only [leafResult, Except.ok.injEq, Eval.value.injEq] at h
      simp [Says, h]
  | call =>
      simp only [leafResult, callResult, Except.ok.injEq] at h
      split at h
      · rename_i w hw
        rw [Eval.value.injEq] at h
        simp [Says, hw, h]
      · simp at h
  | pattern leaf =>
      obtain ⟨hwell, hfinished⟩ := hcomplete leaf rfl
      simp only [leafResult, PatternLeaf.evaluate] at h
      split at h
      · simp at h
      · rename_i w hw
        rw [if_pos (hfinished w hw)] at h
        cases hmatch : leaf.regex.fullMatch w.text with
        | error e => simp [hmatch, Except.map] at h
        | ok b =>
            simp only [hmatch, Except.map, Eval.ofBool, Except.ok.injEq, Eval.value.injEq] at h
            simp [Says, hw, ← h, Regex.fullMatch_iff hwell hmatch]

end ProgramState

namespace Constraint

/-- Patterns on the variable that occur in the constraint are within the limits of
whole-text matching. -/
def WithinLimits (root : Constraint W) (name : String) : Prop :=
  ∀ c, Occurs c root → ∀ leaf, c.pattern? = some leaf → leaf.variableName = name →
    Pattern.checkLimits leaf.regex.pattern = .ok ()

/-- Patterns that occur in the constraint are ones that can be read. -/
def PatternsWellFormed (root : Constraint W) : Prop :=
  ∀ c, Occurs c root → ∀ leaf, c.pattern? = some leaf → Pattern.WellFormed leaf.regex.pattern

/-! ## The verdict on complete texts -/

/-- Evaluation comes to a verdict, and it is false. -/
def Rejects (root : Constraint W) (s : ProgramState) (scheduler : Scheduler W) : Prop :=
  ∃ eval, (root.forward s scheduler).1 = .ok eval ∧ eval.isFalse = true

variable {nodes : List (Constraint W)} {root : Constraint W} {s : ProgramState}
  {name text : String} {scheduler : Scheduler W}

theorem Built.rejects_iff (hb : Built nodes) (hroot : root ∈ nodes) :
    root.Rejects s scheduler ↔
      ∃ v, root.result s.leafResult = .ok (.value v) ∧ v.truthy = false := by
  rw [Rejects, hb.forward_eq_result hroot]
  constructor
  · intro h
    obtain ⟨eval, heval, hfalse⟩ := h
    cases eval with
    | pending => simp [Eval.isFalse, Eval.truth?] at hfalse
    | value v => exact ⟨v, heval, by simpa [Eval.isFalse, Eval.truth?] using hfalse⟩
  · intro h
    obtain ⟨v, hv, hfalse⟩ := h
    exact ⟨.value v, hv, by simp [Eval.isFalse, Eval.truth?, hfalse]⟩

/-- In a state whose texts are complete, the verdict is what the constraint says. -/
theorem Built.truthy_iff_holds (hb : Built nodes) (hroot : root ∈ nodes)
    (hwell : root.PatternsWellFormed) {v : Value}
    (h : root.result s.leafResult = .ok (.value v))
    (hcomplete : ∀ other w, s.find? other = some w → w.finished = true) :
    v.truthy = true ↔ root.Holds s.Says := by
  obtain ⟨w, hw, htruth⟩ := exists_result_of_leaves s.leafResult s.Says root
    (fun c hc => hb.constructed_of_occurs hroot hc) fun c hc hleaf => by
      obtain ⟨w, hw⟩ := exists_look_of_decided h hc hleaf
      refine ⟨w, hw, ProgramState.truthy_iff_says hw ?_⟩
      intro leaf hpattern
      have hsome : c.pattern? = some leaf := by rw [pattern?, hpattern]
      exact ⟨hwell c hc leaf hsome, hcomplete leaf.variableName⟩
  rw [h, Except.ok.injEq, Eval.value.injEq] at hw
  rw [hw, htruth]

/-- Leaves that have a value keep having one when a text is completed, as long as its
patterns can be matched as a whole. -/
theorem exists_leafResult_completed (hvar : s.find? name = some ⟨text, false⟩) (more : String)
    {id : NodeId} {operator : Operator W} {v : Value}
    (h : s.leafResult id operator = .ok (.value v))
    (hlimits : ∀ leaf, operator = .pattern leaf → leaf.variableName = name →
      Pattern.checkLimits leaf.regex.pattern = .ok ()) :
    ∃ w, (s.completed name more).leafResult id operator = .ok (.value w) := by
  by_cases href : operator = .reference name
  · refine ⟨.string (text ++ more), ?_⟩
    rw [href]
    simp only [ProgramState.leafResult, ProgramState.find?_completed_self hvar]
  · by_cases hpattern : ∀ leaf, operator = .pattern leaf → leaf.variableName ≠ name
    · exact ⟨v, by rw [s.leafResult_completed_of_ne name more id operator href hpattern, h]⟩
    · simp only [Classical.not_forall, Decidable.not_not] at hpattern
      obtain ⟨leaf, hop, hname⟩ := hpattern
      refine ⟨.bool (Pattern.matchesAll leaf.regex.pattern (text ++ more).toList), ?_⟩
      have hmatch := Regex.fullMatch_eq (hlimits leaf hop hname) (text ++ more)
      rw [hop]
      simp only [ProgramState.leafResult, PatternLeaf.evaluate, hname,
        ProgramState.find?_completed_self hvar, if_true, hmatch, Except.map, Eval.ofBool]

/-- A verdict on the unfinished text is followed by one on every completed text, if the
patterns on the variable can be matched as a whole. -/
theorem Built.exists_result_completed (hb : Built nodes) (hroot : root ∈ nodes)
    (hvar : s.find? name = some ⟨text, false⟩) (more : String) {v : Value}
    (h : root.result s.leafResult = .ok (.value v)) (hlimits : root.WithinLimits name) :
    ∃ w, root.result (s.completed name more).leafResult = .ok (.value w) := by
  obtain ⟨w, hw, -⟩ := exists_result_of_shows (s.completed name more).leafResult root
    (fun c hc => hb.constructed_of_occurs hroot hc) fun c hc hleaf => by
      obtain ⟨u, hu⟩ := exists_look_of_decided h hc hleaf
      refine exists_leafResult_completed hvar more hu ?_
      intro leaf hop
      exact hlimits c hc leaf (by rw [pattern?, hop])
  exact ⟨w, hw⟩

/-- A pattern on the variable is matched as a whole by a verdict on a completed text. -/
theorem withinLimits_of_result (hvar : s.find? name = some ⟨text, false⟩) (more : String)
    {v : Value} (h : root.result (s.completed name more).leafResult = .ok (.value v)) :
    root.WithinLimits name := by
  intro c hc leaf hleaf hname
  obtain ⟨id, operator, inputs⟩ := c
  obtain ⟨w, hw⟩ := decided_of_occurs h hc
  cases operator with
  | pattern own =>
      obtain rfl : own = leaf := by simpa [pattern?, Constraint.operator] using hleaf
      have hlook := look_eq_of_decided hw rfl
      simp only [Constraint.operator, Constraint.id, ProgramState.leafResult,
        PatternLeaf.evaluate, hname,
        ProgramState.find?_completed_self hvar, if_true] at hlook
      cases hmatch : own.regex.fullMatch (text ++ more) with
      | error e => simp [hmatch, Except.map] at hlook
      | ok b => exact Regex.checkLimits_of_fullMatch hmatch
  | all | any | negation | reference | constant | call =>
      simp [pattern?, Constraint.operator] at hleaf

/-! ## From the unfinished text to the complete one -/

/-- A reference to the variable turns true as the text goes on, a pattern on it turns
false, and other leaves stay what they are. -/
theorem turns_leaf {c : Constraint W} (hc : c ∈ nodes) (htracks : s.Tracks nodes)
    (hvar : s.find? name = some ⟨text, false⟩)
    (hothers : ∀ other v, other ≠ name → s.find? other = some v → v.finished = true)
    (hwell : ∀ leaf, c.pattern? = some leaf → Pattern.WellFormed leaf.regex.pattern)
    {v : Value} (hlook : s.leafResult c.id c.operator = .ok (.value v)) (more : String)
    {even : Bool} (hfalls : c.operator.Falls name even) :
    Turns even (v.truthy = true) ((s.completed name more).Says c.id c.operator) := by
  obtain ⟨id, operator, inputs⟩ := c
  simp only [Constraint.operator, Constraint.id] at hlook hfalls ⊢
  by_cases href : operator = .reference name
  · subst href
    obtain rfl : even = false := hfalls rfl
    simp only [ProgramState.leafResult, hvar, Except.ok.injEq, Eval.value.injEq] at hlook
    intro hnow
    refine ⟨_, ProgramState.find?_completed_self hvar more, ?_⟩
    have hne : text ≠ "" := by simpa [← hlook, Value.truthy] using hnow
    simp [hne]
  · by_cases hpattern : ∀ leaf, operator = .pattern leaf → leaf.variableName ≠ name
    · refine Turns.of_iff (ProgramState.truthy_iff_says ?_ ?_)
      · rw [s.leafResult_completed_of_ne name more id operator href hpattern, hlook]
      · intro leaf hop
        exact ⟨hwell leaf (by rw [pattern?, Constraint.operator, hop]),
          ProgramState.finished_of_find?_completed hvar hothers more leaf.variableName⟩
    · simp only [Classical.not_forall, Decidable.not_not] at hpattern
      obtain ⟨leaf, rfl, hname⟩ := hpattern
      obtain rfl : even = true := hfalls hname
      have hfresh : leaf.evaluate id s = leaf.evaluateFresh s := htracks.evaluate_eq hc rfl
      simp only [ProgramState.leafResult, hfresh, PatternLeaf.evaluateFresh, hname, hvar,
        Bool.false_eq_true, if_false, Eval.ofBool, Except.ok.injEq, Eval.value.injEq] at hlook
      intro hlater
      obtain ⟨w, hw, haccepts⟩ := hlater
      rw [hname, ProgramState.find?_completed_self hvar, Option.some.injEq] at hw
      rw [← hw, String.toList_append] at haccepts
      rw [← hlook, Value.truthy_bool]
      cases hres : leaf.regex.residual text with
      | some q => rfl
      | none =>
          exact absurd haccepts
            (Pattern.not_accepts_of_residual_eq_none (hwell leaf rfl) hres more.toList)

/-- A false verdict is justified where it can only fall: no text that goes on satisfies the
constraint. -/
theorem Built.not_holds_completed (hb : Built nodes) (hroot : root ∈ nodes)
    (hwell : root.PatternsWellFormed) (htracks : s.Tracks nodes)
    (hvar : s.find? name = some ⟨text, false⟩)
    (hothers : ∀ other v, other ≠ name → s.find? other = some v → v.finished = true)
    (hfalse : root.Rejects s scheduler) (hfalls : root.Falls name true) (more : String) :
    ¬ root.Holds (s.completed name more).Says := by
  obtain ⟨v, hv, hv_false⟩ := (hb.rejects_iff hroot).1 hfalse
  have hnow : v.truthy = true ↔ root.Holds (Shows s.leafResult) := by
    obtain ⟨w, hw, htruth⟩ := exists_result_of_shows s.leafResult root
      (fun c hc => hb.constructed_of_occurs hroot hc)
      fun c hc hleaf => exists_look_of_decided hv hc hleaf
    rw [hv, Except.ok.injEq, Eval.value.injEq] at hw
    rw [hw, htruth]
  have hturns : Turns true (root.Holds (Shows s.leafResult))
      (root.Holds (s.completed name more).Says) := by
    refine turns_holds root hfalls ?_
    intro c hc even hown hleaf
    obtain ⟨u, hu⟩ := exists_look_of_decided hv hc hleaf
    have hturn := turns_leaf (hb.mem_of_occurs hroot hc) htracks hvar hothers (hwell c hc) hu more
      hown
    simpa [Shows, hu] using hturn
  intro hlater
  have htrue := hnow.2 (hturns hlater)
  rw [hv_false] at htrue
  exact Bool.noConfusion htrue

/-- **When a false verdict stays false.** A constraint that is false about the unfinished
text of a variable, while everything else is complete, is false about every text that goes
on from it if and only if the patterns on the variable can be matched as a whole and none
of these texts satisfies it. The latter is so where the verdict can only fall. -/
theorem Built.stays_false_iff (hb : Built nodes) (hroot : root ∈ nodes)
    (hwell : root.PatternsWellFormed) (hvar : s.find? name = some ⟨text, false⟩)
    (hothers : ∀ other v, other ≠ name → s.find? other = some v → v.finished = true)
    (hfalse : root.Rejects s scheduler) :
    ((∀ more scheduler, root.Rejects (s.completed name more) scheduler) ↔
      root.WithinLimits name ∧ ∀ more, ¬ root.Holds (s.completed name more).Says) ∧
    (s.Tracks nodes → root.Falls name true →
      ∀ more, ¬ root.Holds (s.completed name more).Says) := by
  obtain ⟨v, hv, -⟩ := (hb.rejects_iff hroot).1 hfalse
  have hcomplete := ProgramState.finished_of_find?_completed hvar hothers
  refine ⟨⟨?_, ?_⟩, ?_⟩
  · intro hstays
    have hresult : ∀ more, ∃ w, root.result (s.completed name more).leafResult =
        .ok (.value w) ∧ w.truthy = false :=
      fun more => (hb.rejects_iff hroot).1 (hstays more scheduler)
    constructor
    · obtain ⟨w, hw, -⟩ := hresult ""
      exact withinLimits_of_result hvar "" hw
    · intro more hholds
      obtain ⟨w, hw, hw_false⟩ := hresult more
      have htrue := (hb.truthy_iff_holds hroot hwell hw (hcomplete more)).2 hholds
      rw [hw_false] at htrue
      exact Bool.noConfusion htrue
  · intro hnever more scheduler
    obtain ⟨hlimits, hnever⟩ := hnever
    obtain ⟨w, hw⟩ := hb.exists_result_completed hroot hvar more hv hlimits
    refine (hb.rejects_iff hroot).2 ⟨w, hw, Bool.eq_false_iff.2 ?_⟩
    intro htrue
    exact hnever more ((hb.truthy_iff_holds hroot hwell hw (hcomplete more)).1 htrue)
  · intro htracks hfalls more
    exact hb.not_holds_completed hroot hwell htracks hvar hothers hfalse hfalls more

end Constraint

namespace Sample

/-- The pattern `a+b`, negated. -/
def negated : Constraint Unit := .negation ⟨"not", 2⟩ leaf

/-- A state in which the variable has been generated up to a text. -/
def generated (text : String) : ProgramState := (ProgramState.start "").withToken "X" text

theorem finished_of_find?_generated (text other : String) (v : Variable) (h : other ≠ "X")
    (hv : (generated text).find? other = some v) : v.finished = true := by
  rw [generated, ProgramState.withToken, ProgramState.find?_updateVariable_of_ne _ h] at hv
  simp [ProgramState.start, ProgramState.find?] at hv

theorem built_negated : Constraint.Built [negated, leaf, input] :=
  .make negated [leaf, input] (.negation _ _)
    (by simp [negated, Constraint.negation, Constraint.inputs])
    (by simp [negated, leaf, input, Constraint.negation, Constraint.pattern, Constraint.reference,
      Constraint.id]) built_leaf

theorem patternsWellFormed_leaf : leaf.PatternsWellFormed := by
  intro c hc own hown
  have hmem : c ∈ [leaf, input] := built_leaf.mem_of_occurs List.mem_cons_self hc
  simp only [List.mem_cons, List.not_mem_nil, or_false] at hmem
  rcases hmem with rfl | rfl
  · obtain rfl : _ = own := Option.some.inj hown
    simp [Node.WellFormed]
  · simp [input, Constraint.reference, Constraint.pattern?, Constraint.operator] at hown

theorem falls_leaf : leaf.Falls "X" true := by
  simp [leaf, Constraint.pattern, Constraint.Falls, Operator.Falls]

theorem rejects_leaf : leaf.Rejects (generated "b") .empty := ⟨.ofBool false, by rfl, by rfl⟩

end Sample

/-- Once `a+b` is false about `b`, it is false about everything that begins with it. -/
theorem Constraint.stays_false_leaf :
    Sample.leaf.Rejects (Sample.generated "b") .empty ∧
      ∀ more scheduler, Sample.leaf.Rejects ((Sample.generated "b").completed "X" more)
        scheduler := by
  have hwithin : Sample.leaf.WithinLimits "X" :=
    Constraint.withinLimits_of_result (s := Sample.generated "b") rfl "" (v := .bool false) (by rfl)
  have htracks : (Sample.generated "b").Tracks [Sample.leaf, Sample.input] :=
    (ProgramState.tracks_start _ "").updateVariable "X" _ fun v => ⟨"b", rfl⟩
  obtain ⟨hiff, hfalls⟩ := Constraint.Built.stays_false_iff Sample.built_leaf
    List.mem_cons_self Sample.patternsWellFormed_leaf rfl
    (Sample.finished_of_find?_generated "b") Sample.rejects_leaf
  exact ⟨Sample.rejects_leaf, hiff.2 ⟨hwithin, hfalls htracks Sample.falls_leaf⟩⟩

/-- A negated pattern is false about a text that can go on to match, and true about the one
that went on otherwise: a false verdict on the unfinished text gives up a complete text that
satisfies the constraint. -/
theorem Constraint.negated_turns_true :
    Constraint.Built [Sample.negated, Sample.leaf, Sample.input] ∧
      (Sample.generated "a").find? "X" = some ⟨"a", false⟩ ∧
      (∀ other v, other ≠ "X" → (Sample.generated "a").find? other = some v →
        v.finished = true) ∧
      Sample.negated.Rejects (Sample.generated "a") .empty ∧
      (Sample.negated.forward ((Sample.generated "a").completed "X" "c") .empty).1 =
        .ok (.ofBool true) :=
  ⟨Sample.built_negated, rfl, Sample.finished_of_find?_generated "a",
    ⟨.ofBool false, by rfl, by rfl⟩, by rfl⟩

end Guided
