import Guided.Pattern.Language
import Guided.Proofs.Constraint.Evaluation

/-!
# What a constraint says

A constraint is a formula over its leaves. Where every leaf has a value, evaluation gives
the truth of the formula; where the leaves are complete, their truth is a matter of texts,
patterns and published results alone.

## Main definitions

* `Constraint.Holds`: the truth of a formula, from that of its leaves.
* `ProgramState.Says`: the truth of a leaf about complete texts.

## Main statements

* `Constraint.exists_result_of_leaves`: evaluation decides the formula.
-/
namespace Guided

variable {W : Type}

mutual

/-- The truth of a constraint, from that of its leaves. -/
def Constraint.Holds (leaf : NodeId → Operator W → Prop) : Constraint W → Prop
  | .node id operator inputs =>
      match operator with
      | .all => Constraint.HoldsAll leaf inputs
      | .any => Constraint.HoldsAny leaf inputs
      | .negation => ¬ Constraint.HoldsAny leaf inputs
      | operator => leaf id operator

/-- All of the constraints hold. -/
def Constraint.HoldsAll (leaf : NodeId → Operator W → Prop) : List (Constraint W) → Prop
  | [] => True
  | c :: rest => c.Holds leaf ∧ Constraint.HoldsAll leaf rest

/-- One of the constraints holds. -/
def Constraint.HoldsAny (leaf : NodeId → Operator W → Prop) : List (Constraint W) → Prop
  | [] => False
  | c :: rest => c.Holds leaf ∨ Constraint.HoldsAny leaf rest

end

/-- What a state with complete texts says about a leaf: a text is true if there is any of
it, and it has to be accepted by a pattern on it. -/
def ProgramState.Says (s : ProgramState) (id : NodeId) : Operator W → Prop
  | .reference name => ∃ v, s.find? name = some v ∧ v.text ≠ ""
  | .constant v => v.truthy = true
  | .pattern leaf =>
      ∃ v, s.find? leaf.variableName = some v ∧
        Pattern.Accepts leaf.regex.pattern v.text.toList
  | .call _ => ∃ v, s.results.get? ⟨id, s.prompt⟩ = some v ∧ v.truthy = true
  | .all | .any | .negation => False

namespace Constraint

variable {leaf : NodeId → Operator W → Prop} {look : NodeId → Operator W → Except Error Eval}

theorem holdsAll_iff (cs : List (Constraint W)) :
    HoldsAll leaf cs ↔ ∀ c ∈ cs, c.Holds leaf := by
  induction cs with
  | nil => simp [HoldsAll]
  | cons c cs ih => simp [HoldsAll, ih]

theorem holdsAny_iff (cs : List (Constraint W)) :
    HoldsAny leaf cs ↔ ∃ c ∈ cs, c.Holds leaf := by
  induction cs with
  | nil => simp [HoldsAny]
  | cons c cs ih => simp [HoldsAny, ih]

/-- Inputs that have values give a connective their truths, one for each. -/
theorem exists_truths {cs : List (Constraint W)}
    (h : ∀ c ∈ cs, ∃ v, c.result look = .ok (.value v) ∧ (v.truthy = true ↔ c.Holds leaf)) :
    ∃ evals, resultAll look cs = .ok evals ∧ evals.any Eval.isPending = false ∧
      (evals.filterMap Eval.truth?).length = cs.length ∧
      ((evals.filterMap Eval.truth?).all (·) = true ↔ HoldsAll leaf cs) ∧
      ((evals.filterMap Eval.truth?).any (·) = true ↔ HoldsAny leaf cs) := by
  induction cs with
  | nil => exact ⟨[], by simp [resultAll, HoldsAll, HoldsAny]⟩
  | cons c cs ih =>
      obtain ⟨v, hv, htruth⟩ := h c List.mem_cons_self
      obtain ⟨evals, hevals, hopen, hlength, hall, hany⟩ :=
        ih fun d hd => h d (List.mem_cons_of_mem _ hd)
      refine ⟨.value v :: evals, ?_, ?_, ?_, ?_, ?_⟩
      · simp only [resultAll, hv, hevals]
      · simpa [Eval.isPending] using hopen
      · simpa [Eval.truth?] using hlength
      · simp only [List.filterMap_cons, Eval.truth?, List.all_cons, Bool.and_eq_true, htruth, hall,
          HoldsAll]
      · simp only [List.filterMap_cons, Eval.truth?, List.any_cons, Bool.or_eq_true, htruth, hany,
          HoldsAny]

/-- The step at a node, from its inputs. -/
theorem exists_result_of_inputs {id : NodeId} {operator : Operator W}
    {inputs : List (Constraint W)} (form : Constructed (node id operator inputs))
    (hinputs : ∀ c ∈ inputs, ∃ v, c.result look = .ok (.value v) ∧
      (v.truthy = true ↔ c.Holds leaf))
    (hown : (node id operator inputs).isConnective = false →
      ∃ v, look id operator = .ok (.value v) ∧ (v.truthy = true ↔ leaf id operator)) :
    ∃ v, (node id operator inputs).result look = .ok (.value v) ∧
      (v.truthy = true ↔ (node id operator inputs).Holds leaf) := by
  obtain ⟨evals, hevals, hopen, hlength, hall, hany⟩ := exists_truths hinputs
  have hresult : (node id operator inputs).result look =
      operator.combine (look id operator) (evals.filterMap Eval.truth?) := by
    simp only [result, hevals, hopen, Bool.false_eq_true, if_false]
  rw [hresult, Holds.eq_def]
  cases operator with
  | all => exact ⟨_, rfl, by simpa using hall⟩
  | any => exact ⟨_, rfl, by simpa using hany⟩
  | negation =>
      refine ⟨_, rfl, ?_⟩
      -- A negation is constructed with one operand, whose truth is the first and the only one.
      obtain ⟨operand, rfl⟩ : ∃ operand, inputs = [operand] := by
        cases form with
        | negation _ operand => exact ⟨operand, rfl⟩
      obtain ⟨b, hb⟩ := List.length_eq_one_iff.1 hlength
      rw [hb] at hany ⊢
      have hb : b = true ↔ HoldsAny leaf [operand] := by simpa using hany
      simp [← hb]
  | reference | constant | pattern | call => exact hown rfl

/-- Where every leaf has a value, evaluation decides the constraint. -/
theorem exists_result_of_leaves (look : NodeId → Operator W → Except Error Eval)
    (leaf : NodeId → Operator W → Prop) (root : Constraint W)
    (form : ∀ c, Occurs c root → Constructed c)
    (hleaves : ∀ c, Occurs c root → c.isConnective = false →
      ∃ v, look c.id c.operator = .ok (.value v) ∧
        (v.truthy = true ↔ leaf c.id c.operator)) :
    ∃ v, root.result look = .ok (.value v) ∧ (v.truthy = true ↔ root.Holds leaf) := by
  induction root using inputs_induction with
  | h id operator inputs ih =>
      refine exists_result_of_inputs (form _ .here) ?_ (hleaves _ .here)
      intro c hc
      exact ih c hc (fun d hd => form d (.input _ c hc hd))
        fun d hd => hleaves d (.input _ c hc hd)

/-- The leaf has a value, and it is true. -/
def Shows (look : NodeId → Operator W → Except Error Eval) (id : NodeId)
    (operator : Operator W) : Prop :=
  ∃ v, look id operator = .ok (.value v) ∧ v.truthy = true

/-- Where every leaf has a value, the result is the truth of the formula over what the
leaves show. -/
theorem exists_result_of_shows (look : NodeId → Operator W → Except Error Eval)
    (root : Constraint W) (form : ∀ c, Occurs c root → Constructed c)
    (hleaves : ∀ c, Occurs c root → c.isConnective = false →
      ∃ v, look c.id c.operator = .ok (.value v)) :
    ∃ v, root.result look = .ok (.value v) ∧ (v.truthy = true ↔ root.Holds (Shows look)) := by
  refine exists_result_of_leaves look (Shows look) root form ?_
  intro c hc hleaf
  obtain ⟨v, hv⟩ := hleaves c hc hleaf
  exact ⟨v, hv, by simp [Shows, hv]⟩

end Constraint

end Guided
