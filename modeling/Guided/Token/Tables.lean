import Guided.Fields
import Guided.Token.Special

/-!
# Special tokens in two tables

The ids of special tokens kept in two tables, one from names to ids and one from ids to
names, so that neither has to be searched. The next free id comes from the number of names,
which is counted in 32 bits. Whoever asks for an id gets an answer and a registry, which is
the old one when there was no id left to give.

## Main definitions

* `SpecialTables`, `SpecialTables.create`, `idFor`, `nameOf?`, `reset`.
* `SpecialStep`, `SpecialAnswer`: what is done with a registry, and what it answers.
* `SpecialTables.step`, `SpecialTokens.step`, `runSteps`: histories of a registry.
-/
namespace Guided

/-- The first special id, the ids of names and the names of ids; a later entry of an id
stands in front. -/
structure SpecialTables where
  base : Nat
  byName : Fields Nat
  byId : List (Nat × String)

namespace SpecialTables

/-- Empty tables, if the first special id fits in 32 bits. -/
def create (vocabularyRange : Nat) : Except Error SpecialTables :=
  let base := SpecialTokens.baseFor vocabularyRange
  if base < word32Bound then .ok ⟨base, [], []⟩ else .error (.token (.noRoom vocabularyRange))

/-- The id of a name, which is given the next free one on its first use. -/
def idFor (t : SpecialTables) (name : String) : Except Error Nat × SpecialTables :=
  match t.byName.find? name with
  | some id => (.ok id, t)
  | none =>
      let id := t.base + t.byName.length % word32Bound
      if id < word32Bound then
        (.ok id, { t with byName := t.byName.insert name id, byId := (id, name) :: t.byId })
      else (.error (.token .exhausted), t)

/-- The name with a given id. -/
def nameOf? (t : SpecialTables) (id : Nat) : Option String := t.byId.lookup id

/-- Forget all names; the next one gets the first id again. -/
def reset (t : SpecialTables) : SpecialTables := { t with byName := [], byId := [] }

end SpecialTables

/-- What is done with a registry. -/
inductive SpecialStep where
  | idFor (name : String)
  | nameOf (id : Nat)
  | reset

/-- What a registry answers. -/
inductive SpecialAnswer where
  | id (given : Except Error Nat)
  | name (found : Option String)
  | forgotten

/-- One step with tables. -/
def SpecialTables.step (t : SpecialTables) : SpecialStep → SpecialAnswer × SpecialTables
  | .idFor name => (.id (t.idFor name).1, (t.idFor name).2)
  | .nameOf id => (.name (t.nameOf? id), t)
  | .reset => (.forgotten, t.reset)

/-- One step with a list of names, which stays as it is when there is no id for a name. -/
def SpecialTokens.step (t : SpecialTokens) : SpecialStep → SpecialAnswer × SpecialTokens
  | .idFor name =>
      match t.idFor name with
      | .ok (id, later) => (.id (.ok id), later)
      | .error e => (.id (.error e), t)
  | .nameOf id => (.name (t.nameOf? id), t)
  | .reset => (.forgotten, t.reset)

/-- Steps one after the other, with all answers. -/
def runSteps {σ : Type} (step : σ → SpecialStep → SpecialAnswer × σ) :
    σ → List SpecialStep → List SpecialAnswer × σ
  | t, [] => ([], t)
  | t, s :: steps =>
      let (answer, t) := step t s
      let (answers, t) := runSteps step t steps
      (answer :: answers, t)

theorem runSteps_cons {σ : Type} (step : σ → SpecialStep → SpecialAnswer × σ) (t : σ)
    (s : SpecialStep) (steps : List SpecialStep) :
    runSteps step t (s :: steps) = ((step t s).1 :: (runSteps step (step t s).2 steps).1,
      (runSteps step (step t s).2 steps).2) := rfl

theorem runSteps_append {σ : Type} (step : σ → SpecialStep → SpecialAnswer × σ) (t : σ)
    (steps more : List SpecialStep) :
    (runSteps step t (steps ++ more)).2 = (runSteps step (runSteps step t steps).2 more).2 := by
  induction steps generalizing t with
  | nil => rfl
  | cons s steps ih => exact ih (step t s).2

/-- Tables after steps one after the other. -/
def SpecialTables.after (t : SpecialTables) (steps : List SpecialStep) : SpecialTables :=
  (runSteps SpecialTables.step t steps).2

end Guided
