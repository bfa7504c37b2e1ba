import Guided.Decimal.Word
import Guided.Error

/-!
# Special tokens

Markers in a text get token ids of their own, above all ids of the vocabulary: they start
at the first power of ten with more digits than the vocabulary range, and grow by one
with every new name. The names in use are kept in the order of their first use, so that
the id of a name is its place in that order.

## Main definitions

* `SpecialTokens`, `SpecialTokens.create`, `idFor`, `nameOf?`, `reset`.
-/
namespace Guided

/-- The first special id, and the names in use. -/
structure SpecialTokens where
  base : Nat
  names : List String
deriving DecidableEq, Repr

namespace SpecialTokens

/-- The first special id for a vocabulary range. -/
def baseFor (vocabularyRange : Nat) : Nat :=
  Nat.pow 10 (Nat.toDigits 10 vocabularyRange).length

/-- No special tokens yet, if there are ids for them. -/
def create (vocabularyRange : Nat) : Except Error SpecialTokens :=
  if baseFor vocabularyRange < word32Bound then .ok ⟨baseFor vocabularyRange, []⟩
  else .error (.token (.noRoom vocabularyRange))

/-- The id of a name, which is given the next free one on its first use. -/
def idFor (t : SpecialTokens) (name : String) : Except Error (Nat × SpecialTokens) :=
  if t.names.contains name then .ok (t.base + t.names.idxOf name, t)
  else
    let id := t.base + t.names.length
    if id < word32Bound then .ok (id, { t with names := t.names ++ [name] })
    else .error (.token .exhausted)

/-- The name with a given id. -/
def nameOf? (t : SpecialTokens) (id : Nat) : Option String :=
  if t.base ≤ id then t.names[id - t.base]? else none

/-- Whether an id is in use. -/
def isSpecial (t : SpecialTokens) (id : Nat) : Bool := (t.nameOf? id).isSome

/-- Forget all names; the next one gets the first id again. -/
def reset (t : SpecialTokens) : SpecialTokens := { t with names := [] }

/-- The number of names in use. -/
def size (t : SpecialTokens) : Nat := t.names.length

end SpecialTokens

end Guided
