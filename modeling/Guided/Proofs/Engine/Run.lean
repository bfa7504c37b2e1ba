import Guided.Engine.Run
import Guided.Proofs.Constraint.Postprocess
import Guided.Proofs.Constraint.Settling

/-!
# How a run ends

A verdict that has been settled is one that evaluation gives on the state it comes with,
and settling publishes results without touching the variables. So what is known about
final values after a verdict is known about the end of a run: an accepted text becomes an
error if and only if the variable is decided by a pattern that the text does not match.

## Main statements

* `Engine.judge_spec`: a settled verdict is a verdict on the state it comes with.
* `Constraint.Built.answers_after_acceptance`: which accepted texts have a final value.
-/
namespace Guided

variable {W : Type}

namespace Constraint

variable {root : Constraint W} {name : String}

/-- The result is one that evaluation gives on the state. -/
def GivenBy (root : Constraint W) (s : ProgramState) (eval : Eval) : Prop :=
  ∃ scheduler : Scheduler W, (root.forward s scheduler).1 = .ok eval

theorem givenBy_of_forwardOn {s : ProgramState} {b b' : Bench W} {eval : Eval}
    (h : root.forwardOn s b = (.ok eval, b')) : root.GivenBy s eval := by
  simp only [forwardOn, Prod.mk.injEq] at h
  exact ⟨b.scheduler, h.1⟩

/-- Every round keeps the variables and ends with an evaluation, so settling does. -/
theorem settleWithin_spec {rounds left : Nat} {eval final : Eval} {s next : ProgramState}
    {b : Bench W} (hgiven : root.GivenBy s eval)
    (h : (root.settleWithin name rounds left eval s b).1 = .ok (final, next)) :
    root.GivenBy next final ∧ next.vars = s.vars := by
  induction left generalizing eval s b with
  | zero =>
      cases eval with
      | pending => simp [settleWithin] at h
      | value v =>
          simp only [settleWithin, Except.ok.injEq, Prod.mk.injEq] at h
          obtain ⟨rfl, rfl⟩ := h
          exact ⟨hgiven, rfl⟩
  | succ left ih =>
      cases eval with
      | value v =>
          simp only [settleWithin, Except.ok.injEq, Prod.mk.injEq] at h
          obtain ⟨rfl, rfl⟩ := h
          exact ⟨hgiven, rfl⟩
      | pending =>
          rw [settleWithin] at h
          split at h
          · simp at h
          · rename_i published b' hround
            split at h
            · simp at h
            · rename_i eval b'' hforward
              obtain ⟨hfinal, hvars⟩ := ih (givenBy_of_forwardOn hforward) h
              have hround : (root.settleRound name s b).1 = .ok published := by rw [hround]
              exact ⟨hfinal, hvars.trans (gains_of_settleRound hround).vars_eq⟩

end Constraint

namespace Engine

variable {e : Engine W}

/-- A settled verdict is one that evaluation gives, on a state with the same variables. -/
theorem judge_spec {s next : ProgramState} {b : Bench W} {eval : Eval}
    (h : (e.judge s b).1 = .ok (eval, next)) :
    e.root.GivenBy next eval ∧ next.vars = s.vars := by
  rw [judge] at h
  split at h
  · simp at h
  · rename_i first b' hforward
    exact Constraint.settleWithin_spec (Constraint.givenBy_of_forwardOn hforward) h

/-- A text is tried by judging the state that follows. -/
theorem tryText_eq_judge (e : Engine W) (s : ProgramState) (text : String) (b : Bench W) :
    e.tryText s text b = e.judge (e.root.following s e.variableName text) b := by
  rw [tryText, judge, Constraint.followOn, Constraint.forwardOn, Constraint.follow]
  rcases e.root.forward (e.root.following s e.variableName text) b.scheduler with
    ⟨_ | eval, scheduler⟩ <;> rfl

/-- The end of a run after an accepting verdict is a matter of final values. -/
theorem finish_fst {s next : ProgramState} {b : Bench W} {eval : Eval} (reason : FinishReason)
    (h : (e.judge (s.finishVariable e.variableName) b).1 = .ok (eval, next))
    (htrue : eval.truth? = some true) :
    ∃ scheduler : Scheduler W, (e.finish s reason b).1 =
      (e.root.finalValues next [e.variableName] scheduler).1.map
        fun values => ⟨next, reason, true, some values⟩ := by
  rw [finish]
  generalize e.judge (s.finishVariable e.variableName) b = judged at h ⊢
  obtain ⟨answer, b'⟩ := judged
  obtain rfl : answer = .ok (eval, next) := h
  refine ⟨b'.scheduler, ?_⟩
  simp only [htrue, Option.getD_some, if_true]
  rcases e.root.finalValues next [e.variableName] b'.scheduler with ⟨_ | values, scheduler⟩ <;> rfl

/-- Once generation has come to a reason to stop, the result of a run is that of its end. -/
theorem run_fst {s : ProgramState} {events : List TokenEvent} {b b' : Bench W}
    {reason : FinishReason} {p : Progress}
    (h : e.generate s events b = (.ok reason, p, b')) :
    (e.run s events b).1 = (e.finish p.state reason b').1 := by
  simp only [run, h]
  rcases e.finish p.state reason b' with ⟨_ | outcome, b''⟩ <;> rfl

end Engine

namespace Constraint

variable {nodes : List (Constraint W)}

/-- What follows on acceptance: a final value, unless the variable is decided by a pattern
that does not match; that pattern is then what the text is said to violate. -/
def AnswersFor (root : Constraint W) (name text : String)
    (answer : Except Error (Fields Value)) : Prop :=
  (root.OwnerMatches name text → ∃ v, answer = .ok [(name, v)]) ∧
    (¬ root.OwnerMatches name text → ∃ c leaf, root.owner? name = some c ∧
      c.pattern? = some leaf ∧ answer = .error (.violated text name leaf.regex.source))

theorem Built.answersFor_finalValues (hb : Built nodes) {root : Constraint W}
    (hroot : root ∈ nodes) {s : ProgramState} {name text : String} {eval : Eval}
    (hvar : s.find? name = some ⟨text, true⟩) (hgiven : root.GivenBy s eval)
    (htrue : eval.truth? = some true) (scheduler : Scheduler W) :
    root.AnswersFor name text (root.finalValues s [name] scheduler).1 := by
  obtain ⟨first, hforward⟩ := hgiven
  rw [hb.forward_eq_result hroot] at hforward
  cases eval with
  | pending => simp [Eval.truth?] at htrue
  | value v =>
      constructor
      · exact fun hmatches =>
          hb.finalValues_of_matches hroot hvar hforward hmatches scheduler
      · intro hmismatch
        obtain ⟨c, leaf, howner, hleaf, -, hanswer⟩ :=
          hb.finalValues_of_mismatch hroot hvar hforward hmismatch
        exact ⟨c, leaf, howner, hleaf, hanswer scheduler⟩

/-- **Acceptance and final values.** When a constraint is true about a state in which the
variable is finished, there is a final value, unless the first node of the walk that
decides the variable is a pattern that its text does not match, although the constraint is
true without it. Then the answer is that this pattern is violated. A run whose end accepts
has the same answer. -/
theorem Built.answers_after_acceptance (hb : Built nodes) :
    (∀ root ∈ nodes, ∀ s name text scheduler eval, s.find? name = some ⟨text, true⟩ →
      (root.forward s scheduler).1 = .ok eval → eval.truth? = some true →
        ∀ scheduler', root.AnswersFor name text (root.finalValues s [name] scheduler').1) ∧
    ∀ e : Engine W, e.root ∈ nodes → ∀ s events b reason p b',
      e.generate s events b = (.ok reason, p, b') →
        ∀ eval next, (e.judge (p.state.finishVariable e.variableName) b').1 = .ok (eval, next) →
          eval.truth? = some true →
            ∃ text answer, text = ((p.state.find? e.variableName).getD Variable.fresh).text ∧
              next.find? e.variableName = some ⟨text, true⟩ ∧
              e.root.AnswersFor e.variableName text answer ∧
              (e.run s events b).1 =
                answer.map fun values => ⟨next, reason, true, some values⟩ := by
  constructor
  · intro root hroot s name text scheduler eval hvar hforward htrue scheduler'
    exact hb.answersFor_finalValues hroot hvar ⟨scheduler, hforward⟩ htrue scheduler'
  · intro e hroot s events b reason p b' hgenerate eval next hjudge htrue
    obtain ⟨hgiven, hvars⟩ := Engine.judge_spec hjudge
    obtain ⟨scheduler, hfinish⟩ := Engine.finish_fst reason hjudge htrue
    have hvar : next.find? e.variableName =
        some ⟨((p.state.find? e.variableName).getD Variable.fresh).text, true⟩ := by
      rw [ProgramState.find?, hvars]
      exact ProgramState.find?_updateVariable_self p.state e.variableName _
    refine ⟨_, _, rfl, hvar, hb.answersFor_finalValues hroot hvar hgiven htrue scheduler, ?_⟩
    rw [Engine.run_fst hgenerate, hfinish]

end Constraint

namespace Sample

/-- The pattern `b+` with its variable, and a choice between `a+b` and it. -/
def otherInput : Constraint Unit := .reference ⟨"X", 2⟩ "X"

@[inherit_doc otherInput]
def other : Constraint Unit :=
  .pattern ⟨"b+", 3⟩ ⟨"X", 2⟩ "X" ⟨"b+", [.repetition 1 none [.literal 'b']]⟩

@[inherit_doc otherInput]
def either : Constraint Unit := .any ⟨"any", 4⟩ [leaf, other]

/-- A state in which the variable is finished. -/
def finished (text : String) : ProgramState := (ProgramState.start "").withVariable "X" text true

theorem walk_either : either.walk = [either, leaf, input, other, otherInput] := by
  simp [Constraint.walk, Constraint.walkFrom, Constraint.listed, Constraint.id, either, other,
    otherInput, leaf, input, Constraint.any, Constraint.pattern, Constraint.reference]

theorem owner?_either : either.owner? "X" = some leaf := by
  rw [Constraint.owner?, Constraint.owners, walk_either]
  rfl

theorem built_either : Constraint.Built [either, other, otherInput, leaf, input] := by
  have hinput : Constraint.Built [otherInput, leaf, input] :=
    .make otherInput _ (.reference _ _)
      (by simp [otherInput, Constraint.reference, Constraint.inputs])
      (by simp [otherInput, leaf, input, Constraint.pattern, Constraint.reference, Constraint.id])
      built_leaf
  have hother : Constraint.Built [other, otherInput, leaf, input] :=
    .make other _ (.pattern _ _ _ _)
      (by simp [other, otherInput, Constraint.pattern, Constraint.inputs])
      (by simp [other, otherInput, leaf, input, Constraint.pattern, Constraint.reference,
        Constraint.id]) hinput
  exact .make either _ (.any _ _) (by simp [either, Constraint.any, Constraint.inputs])
    (by simp [either, other, otherInput, leaf, input, Constraint.any, Constraint.pattern,
      Constraint.reference, Constraint.id]) hother

end Sample

/-- A choice of patterns that accepts a text by the pattern that decides. -/
theorem Constraint.final_value_either :
    ∃ v, (Sample.either.finalValues (Sample.finished "ab") ["X"] .empty).1 = .ok [("X", v)] := by
  have hanswers := (Constraint.Built.answers_after_acceptance Sample.built_either).1
    Sample.either List.mem_cons_self (Sample.finished "ab") "X" "ab" .empty (.ofBool true)
    (by rfl) (by rfl) (by rfl) .empty
  refine hanswers.1 ?_
  intro c own howner hown
  rw [Sample.owner?_either, Option.some.injEq] at howner
  rw [← howner] at hown
  obtain rfl : _ = own := Option.some.inj hown
  rfl

/-- The same choice accepts a text by its second pattern, and then the first one fails. -/
theorem Constraint.no_final_value_either :
    Constraint.Built [Sample.either, Sample.other, Sample.otherInput, Sample.leaf, Sample.input] ∧
      (Sample.finished "b").find? "X" = some ⟨"b", true⟩ ∧
      (Sample.either.forward (Sample.finished "b") .empty).1 = .ok (.ofBool true) ∧
      (Sample.either.finalValues (Sample.finished "b") ["X"] .empty).1 =
        .error (.violated "b" "X" "a+b") := by
  refine ⟨Sample.built_either, by rfl, by rfl, ?_⟩
  rw [Constraint.finalValues_singleton_of_owner Sample.owner?_either]
  rfl

end Guided
