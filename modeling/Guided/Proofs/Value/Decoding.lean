import Guided.Proofs.Fields
import Guided.Proofs.Value.Reading

/-!
# Written values are read back

A value without fractions is read back from the tree that is written for it, as long as its lists
and records are not nested too deeply for the place where it stands.

## Main definitions

* `Value.Readable`: the values for which this is so.

## Main statements

* `Number.ofText?_integer`: integers are read back.
* `Value.ofTree?_tree`: values are read back.
-/
namespace Guided

/-- An integer that fits in eight bytes is read back. -/
theorem Number.ofText?_integer {n : ℤ} (hleast : -(word64Bound / 2 : ℤ) ≤ n)
    (hmost : n < word64Bound) : ofText? (integer n).written = some (.integer n) := by
  by_cases hnegative : n < 0
  · have hhalf : n.natAbs ≤ word64Bound / 2 := by
      have hword : (word64Bound : ℤ) = 2 ^ 64 := rfl
      have hword' : word64Bound = 2 ^ 64 := rfl
      omega
    have hfits : Nat.ofDigitChars 10 (Nat.toDigits 10 n.natAbs) 0 < word64Bound := by
      rw [Nat.ofDigitChars_ten_toDigits]
      exact lt_of_le_of_lt hhalf (by decide)
    have hread : appendDigits 0 (Nat.toDigits 10 n.natAbs) = (n.natAbs, []) := by
      rw [appendDigits_eq hfits, Nat.ofDigitChars_ten_toDigits]
    have hne : n ≠ 0 := hnegative.ne
    have habs : -|n| = n := by rw [abs_of_neg hnegative, neg_neg]
    simp [ofText?, written, hread, NumberText.isInteger, hnegative, hne, hhalf, habs]
  · obtain ⟨m, rfl⟩ := Int.eq_ofNat_of_zero_le (not_lt.1 hnegative)
    have hfits : m < word64Bound := by exact_mod_cast hmost
    simpa [written, hnegative] using ofText?_toDigits hfits

namespace Value

mutual

/-- A value that can be read where so many lists and records fit within each other: its numbers
are integers of eight bytes, and its fields are in order. -/
def Readable (depth : Nat) : Value → Prop
  | .null | .bool _ | .string _ => True
  | .number (.integer n) => -(word64Bound / 2 : ℤ) ≤ n ∧ n < word64Bound
  | .number (.fraction _) => False
  | .array items => 0 < depth ∧ ReadableItems (depth - 1) items
  | .object fields => 0 < depth ∧ Fields.Sorted fields ∧ ReadableFields (depth - 1) fields

/-- Every item can be read. -/
def ReadableItems (depth : Nat) : List Value → Prop
  | [] => True
  | item :: rest => item.Readable depth ∧ ReadableItems depth rest

/-- The value of every field can be read. -/
def ReadableFields (depth : Nat) : List (String × Value) → Prop
  | [] => True
  | (_, value) :: rest => value.Readable depth ∧ ReadableFields depth rest

end

mutual

/-- **A value is read back from its tree.** -/
theorem ofTree?_tree : ∀ (v : Value) (depth : Nat), v.Readable depth →
    ofTree? depth v.tree = some v
  | .null, _, _ => rfl
  | .bool _, _, _ => rfl
  | .string _, _, _ => rfl
  | .number (.integer n), _, h => by
      rw [tree, ofTree?, Number.ofText?_integer h.1 h.2]
      rfl
  | .array items, depth + 1, h => by
      rw [tree, ofTree?, ofItems?_trees items depth h.2]
      rfl
  | .object fields, depth + 1, h => by
      rw [tree, ofTree?, ofFields?_fieldTrees fields depth h.2.2, Option.map_some,
        h.2.1.ofList_eq]

theorem ofItems?_trees : ∀ (items : List Value) (depth : Nat), ReadableItems depth items →
    ofItems? depth (trees items) = some items
  | [], _, _ => rfl
  | item :: rest, depth, h => by
      rw [trees, ofItems?, ofTree?_tree item depth h.1, ofItems?_trees rest depth h.2]
      rfl

theorem ofFields?_fieldTrees : ∀ (fields : List (String × Value)) (depth : Nat),
    ReadableFields depth fields → ofFields? depth (fieldTrees fields) = some fields
  | [], _, _ => rfl
  | (name, value) :: rest, depth, h => by
      rw [fieldTrees, ofFields?, ofTree?_tree value depth h.1, ofFields?_fieldTrees rest depth h.2]
      rfl

end

end Value

end Guided
