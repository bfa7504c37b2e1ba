import Guided.Proofs.Decimal.Text

/-!
# Written values

The text of a value is the text of a JSON tree, and different values have different texts.

## Main definitions

* `Number.written`, `Value.tree`: the trees that are written.

## Main statements

* `Value.chars_tree`, `Value.written_tree`: a value is written as its tree.
* `Value.chars_injective`: different values have different texts.
-/
namespace Guided

/-! ## Numbers -/

namespace Number

/-- The parts of the text of a number. -/
def written : Number → NumberText
  | .integer n => ⟨n < 0, Nat.toDigits 10 n.natAbs, none, none⟩
  | .fraction x => FloatFormat.double.text Float64.layout x.negative x.code

theorem chars_written (n : Number) : n.written.chars = n.chars := by
  cases n with
  | integer n =>
      simp [written, chars, NumberText.chars, NumberText.signChars, NumberText.fractionChars,
        NumberText.exponentChars, intChars]
  | fraction x => exact FloatFormat.chars_text

end Number

/-- An integer that is not negative is written as it has to be. -/
theorem written_toDigits (negative : Bool) (n : Nat) :
    (⟨negative, Nat.toDigits 10 n, none, none⟩ : NumberText).Written := by
  refine ⟨isNumeral_toDigits n, fun hzero => ?_, nofun, nofun⟩
  rcases Nat.eq_zero_or_pos n with rfl | hpos
  · rfl
  · exact absurd hzero (head?_toDigits hpos)

theorem toDigits_injective {n m : Nat} (h : Nat.toDigits 10 n = Nat.toDigits 10 m) : n = m := by
  rw [← Nat.ofDigitChars_ten_toDigits (n := n), h, Nat.ofDigitChars_ten_toDigits]

namespace Number

theorem written_written (n : Number) : n.written.Written := by
  cases n with
  | integer n => exact written_toDigits _ _
  | fraction x => exact FloatFormat.written_text FloatFormat.usual_double

theorem isInteger_integer (n : ℤ) : (integer n).written.isInteger = true := rfl

theorem isInteger_fraction (x : Float64) : (fraction x).written.isInteger = false :=
  FloatFormat.isInteger_text

/-- Different numbers have different texts. -/
theorem written_injective {n m : Number} (h : n.written = m.written) : n = m := by
  have hinteger := congrArg NumberText.isInteger h
  cases n with
  | integer n =>
      cases m with
      | integer m =>
          simp only [written, NumberText.mk.injEq, decide_eq_decide] at h
          have hdigits := toDigits_injective h.2.1
          exact congrArg Number.integer (by omega)
      | fraction y => simp [isInteger_integer, isInteger_fraction] at hinteger
  | fraction x =>
      cases m with
      | integer m => simp [isInteger_integer, isInteger_fraction] at hinteger
      | fraction y =>
          obtain ⟨hnegative, hcode⟩ := FloatFormat.text_injective FloatFormat.usual_double h
          cases x
          cases y
          exact congrArg Number.fraction (congrArg₂ Float64.mk hnegative hcode)

end Number

/-! ## Values -/

namespace Value

mutual

/-- The tree that is written for a value. -/
def tree : Value → JsonTree
  | .null => .null
  | .bool b => .bool b
  | .number n => .number n.written
  | .string s => .string (some s)
  | .array items => .array (trees items)
  | .object fields => .object (fieldTrees fields)

/-- The trees of items. -/
def trees : List Value → List JsonTree
  | [] => []
  | item :: rest => item.tree :: trees rest

/-- The trees of fields. -/
def fieldTrees : List (String × Value) → List (Option String × JsonTree)
  | [] => []
  | (name, value) :: rest => (some name, value.tree) :: fieldTrees rest

end

mutual

/-- The text of a value is that of its tree. -/
theorem chars_tree : ∀ v : Value, v.tree.chars = v.chars
  | .null => rfl
  | .bool true => rfl
  | .bool false => rfl
  | .number n => n.chars_written
  | .string _ => rfl
  | .array items => by rw [tree, JsonTree.chars, itemsChars_trees, chars]
  | .object fields => by rw [tree, JsonTree.chars, fieldsChars_fieldTrees, chars]

theorem itemsChars_trees : ∀ items : List Value,
    JsonTree.itemsChars (trees items) = itemChars items
  | [] => rfl
  | [item] => chars_tree item
  | item :: more :: rest => by
      have hrest := itemsChars_trees (more :: rest)
      rw [trees] at hrest
      rw [trees, trees, JsonTree.itemsChars, hrest, chars_tree item, itemChars]

theorem fieldsChars_fieldTrees : ∀ fields : List (String × Value),
    JsonTree.fieldsChars (fieldTrees fields) = fieldChars fields
  | [] => rfl
  | [(name, value)] => by
      rw [fieldTrees, fieldTrees, JsonTree.fieldsChars, chars_tree value, fieldChars]
      rfl
  | (name, value) :: (name', value') :: rest => by
      have hrest := fieldsChars_fieldTrees ((name', value') :: rest)
      rw [fieldTrees] at hrest
      rw [fieldTrees, fieldTrees, JsonTree.fieldsChars, hrest, chars_tree value, fieldChars]
      rfl

end

mutual

/-- The tree of a value has a text. -/
theorem written_tree : ∀ v : Value, v.tree.Written
  | .null => trivial
  | .bool _ => trivial
  | .number n => n.written_written
  | .string _ => rfl
  | .array items => written_trees items
  | .object fields => written_fieldTrees fields

theorem written_trees : ∀ items : List Value, JsonTree.WrittenItems (trees items)
  | [] => trivial
  | item :: rest => ⟨written_tree item, written_trees rest⟩

theorem written_fieldTrees : ∀ fields : List (String × Value),
    JsonTree.WrittenFields (fieldTrees fields)
  | [] => trivial
  | (_, value) :: rest => ⟨rfl, written_tree value, written_fieldTrees rest⟩

end

mutual

/-- Different values have different trees. -/
theorem tree_injective : ∀ v w : Value, v.tree = w.tree → v = w
  | .null, w, h => by cases w <;> simp_all [tree]
  | .bool b, w, h => by cases w <;> simp_all [tree]
  | .number n, w, h => by
      cases w with
      | number m => exact congrArg Value.number (Number.written_injective (by simpa [tree] using h))
      | _ => simp [tree] at h
  | .string s, w, h => by cases w <;> simp_all [tree]
  | .array items, w, h => by
      cases w with
      | array items' => exact congrArg Value.array (trees_injective _ _ (by simpa [tree] using h))
      | _ => simp [tree] at h
  | .object fields, w, h => by
      cases w with
      | object fields' =>
          exact congrArg Value.object (fieldTrees_injective _ _ (by simpa [tree] using h))
      | _ => simp [tree] at h

theorem trees_injective : ∀ items items' : List Value, trees items = trees items' → items = items'
  | [], items', h => by cases items' <;> simp_all [trees]
  | item :: rest, items', h => by
      cases items' with
      | nil => simp [trees] at h
      | cons item' rest' =>
          simp only [trees, List.cons.injEq] at h
          rw [tree_injective item item' h.1, trees_injective rest rest' h.2]

theorem fieldTrees_injective : ∀ fields fields' : List (String × Value),
    fieldTrees fields = fieldTrees fields' → fields = fields'
  | [], fields', h => by cases fields' <;> simp_all [fieldTrees]
  | (name, value) :: rest, fields', h => by
      cases fields' with
      | nil => simp [fieldTrees] at h
      | cons field' rest' =>
          obtain ⟨name', value'⟩ := field'
          simp only [fieldTrees, List.cons.injEq, Prod.mk.injEq, Option.some.injEq] at h
          rw [h.1.1, tree_injective value value' h.1.2, fieldTrees_injective rest rest' h.2]

end

/-- **Different values have different texts.** -/
theorem chars_injective {v w : Value} (h : v.chars = w.chars) : v = w := by
  rw [← chars_tree, ← chars_tree] at h
  exact tree_injective v w (JsonTree.chars_injective (written_tree v) (written_tree w) h)

end Value

end Guided
