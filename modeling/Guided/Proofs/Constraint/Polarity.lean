import Guided.Proofs.Constraint.Satisfaction

/-!
# Leaves that turn while a text goes on

As long as the text of a variable goes on, a pattern on it can only turn false and a
reference to it can only turn true. A negation turns either around. So a constraint whose
patterns on the variable stand under an even number of negations, and whose references to
it under an odd one, can only turn false.

## Main definitions

* `Constraint.Falls`: the constraints that can only turn false.
* `Constraint.Turns`: the direction in which a formula may turn.

## Main statements

* `Constraint.turns_holds`: a formula turns the way its leaves do.
-/
namespace Guided

variable {W : Type}

/-- Whether a leaf under an even or an odd number of negations can only make the verdict
fall while the text of a variable goes on. -/
def Operator.Falls (name : String) (even : Bool) : Operator W → Prop
  | .reference other => other = name → even = false
  | .pattern leaf => leaf.variableName = name → even = true
  | _ => True

mutual

/-- Under the negations around the constraint, counted by `even`, patterns on the variable
are under an even number of negations and references to it under an odd one. -/
def Constraint.Falls (name : String) (even : Bool) : Constraint W → Prop
  | .node _ operator inputs =>
      match operator with
      | .all | .any => Constraint.FallsAll name even inputs
      | .negation => Constraint.FallsAll name (!even) inputs
      | operator => operator.Falls name even

/-- Each of the constraints can only make the verdict fall. -/
def Constraint.FallsAll (name : String) (even : Bool) : List (Constraint W) → Prop
  | [] => True
  | c :: rest => c.Falls name even ∧ Constraint.FallsAll name even rest

end

namespace Constraint

/-- What a change of the leaves does to a formula under `even` negations. -/
def Turns (even : Bool) (now later : Prop) : Prop :=
  match even with
  | true => later → now
  | false => now → later

theorem fallsAll_iff {name : String} {even : Bool} (cs : List (Constraint W)) :
    FallsAll name even cs ↔ ∀ c ∈ cs, c.Falls name even := by
  induction cs with
  | nil => simp [FallsAll]
  | cons c cs ih => simp [FallsAll, ih]

theorem Turns.of_iff {even : Bool} {now later : Prop} (h : now ↔ later) :
    Turns even now later := by
  cases even with
  | true => exact h.2
  | false => exact h.1

theorem Turns.not {even : Bool} {now later : Prop} (h : Turns (!even) now later) :
    Turns even (¬ now) (¬ later) := by
  cases even with
  | true => exact fun hlater hnow => hlater (h hnow)
  | false => exact fun hnow hlater => hnow (h hlater)

variable {now later : NodeId → Operator W → Prop}

theorem turns_holdsAll {even : Bool} (cs : List (Constraint W))
    (h : ∀ c ∈ cs, Turns even (c.Holds now) (c.Holds later)) :
    Turns even (HoldsAll now cs) (HoldsAll later cs) := by
  cases even with
  | true =>
      simp only [Turns, holdsAll_iff] at h ⊢
      intro hlater c hc
      exact h c hc (hlater c hc)
  | false =>
      simp only [Turns, holdsAll_iff] at h ⊢
      intro hnow c hc
      exact h c hc (hnow c hc)

theorem turns_holdsAny {even : Bool} (cs : List (Constraint W))
    (h : ∀ c ∈ cs, Turns even (c.Holds now) (c.Holds later)) :
    Turns even (HoldsAny now cs) (HoldsAny later cs) := by
  cases even with
  | true =>
      simp only [Turns, holdsAny_iff] at h ⊢
      intro hlater
      exact hlater.imp fun c hc => ⟨hc.1, h c hc.1 hc.2⟩
  | false =>
      simp only [Turns, holdsAny_iff] at h ⊢
      intro hnow
      exact hnow.imp fun c hc => ⟨hc.1, h c hc.1 hc.2⟩

/-- The truth of a constraint moves the way its leaves do, turned around by every
negation. -/
theorem turns_holds {name : String} {even : Bool} (root : Constraint W)
    (hfalls : root.Falls name even)
    (hleaves : ∀ c, Occurs c root → ∀ even, c.operator.Falls name even →
      c.isConnective = false →
        Turns even (now c.id c.operator) (later c.id c.operator)) :
    Turns even (root.Holds now) (root.Holds later) := by
  induction root using inputs_induction generalizing even with
  | h id operator inputs ih =>
      have hinputs : ∀ even, FallsAll name even inputs → ∀ c ∈ inputs,
          Turns even (c.Holds now) (c.Holds later) := by
        intro even hall c hc
        exact ih c hc ((fallsAll_iff inputs).1 hall c hc) fun d hd => hleaves d (.input _ c hc hd)
      have hown := hleaves (node id operator inputs) .here even
      rw [Falls.eq_def] at hfalls
      rw [Holds.eq_def, Holds.eq_def]
      cases operator with
      | all => exact turns_holdsAll inputs (hinputs even hfalls)
      | any => exact turns_holdsAny inputs (hinputs even hfalls)
      | negation => exact (turns_holdsAny inputs (hinputs (!even) hfalls)).not
      | reference | constant | pattern | call => exact hown hfalls rfl

end Constraint

end Guided
