import Guided.Proofs.Fields
import Guided.Value.Arranged
import Guided.Value.Decode

/-!
# Equal up to the order of fields

Two values say the same if they differ only in the order in which the fields of their records
are listed. Putting fields in order keeps what a value says, and makes one value of all that
say the same. A value that has been read from a text has its fields in order already.

## Main definitions

* `Value.Alike`: equal as values whose records are maps.

## Main statements

* `Value.ordered_of_parse?`: what is read has its fields in order.
* `Value.arranged_eq_iff`: values are alike if they are equal once fields are in order.
* `Value.eq_arranged_iff`: what putting fields in order makes of a value.
-/
namespace Guided

namespace Value

/-- Equal as values whose records are maps: a list is known by its items, and a record by the
value of each name, wherever it is listed. -/
inductive Alike : Value → Value → Prop
  | null : Alike .null .null
  | bool (b : Bool) : Alike (.bool b) (.bool b)
  | number (n : Number) : Alike (.number n) (.number n)
  | string (s : String) : Alike (.string s) (.string s)
  | array (items items' : List Value) (hlength : items.length = items'.length)
      (h : ∀ (i : Nat) (v v' : Value), items[i]? = some v → items'[i]? = some v' → Alike v v') :
      Alike (.array items) (.array items')
  | object (fields fields' : List (String × Value))
      (hnames : ∀ name, (Fields.last? fields name).isSome = (Fields.last? fields' name).isSome)
      (h : ∀ (name : String) (v v' : Value), Fields.last? fields name = some v →
        Fields.last? fields' name = some v' → Alike v v') :
      Alike (.object fields) (.object fields')

/-! ## Fields in order -/

/-- The value of a name in a record with its fields in order. -/
theorem find?_arranged (fields : List (String × Value)) (name : String) :
    Fields.find? (Fields.ofList (arrangedFields fields)) name =
      (Fields.last? fields name).map arranged := by
  rw [Fields.find?_ofList, arrangedFields_eq_map, Fields.last?_map]

theorem orderedItems_iff {items : List Value} :
    OrderedItems items ↔ ∀ item ∈ items, item.Ordered := by
  induction items with
  | nil => simp [OrderedItems]
  | cons item items ih => rw [OrderedItems, ih, List.forall_mem_cons]

theorem orderedFields_iff {fields : List (String × Value)} :
    OrderedFields fields ↔ ∀ e ∈ fields, e.2.Ordered := by
  induction fields with
  | nil => simp [OrderedFields]
  | cons e fields ih => rw [OrderedFields, ih, List.forall_mem_cons]

mutual

/-- Fields are in order once they have been put in order. -/
theorem ordered_arranged : ∀ v : Value, v.arranged.Ordered
  | .null | .bool _ | .number _ | .string _ => trivial
  | .array items => orderedItems_iff.2 (forall_mem_arrangedItems items)
  | .object fields => by
      refine ⟨Fields.sorted_ofList _, orderedFields_iff.2 fun e he => ?_⟩
      exact forall_mem_arrangedFields fields e (Fields.mem_of_mem_ofList he)

theorem forall_mem_arrangedItems : ∀ items : List Value, ∀ v ∈ arrangedItems items, v.Ordered
  | [] => by simp [arrangedItems]
  | item :: rest => List.forall_mem_cons.2 ⟨ordered_arranged item, forall_mem_arrangedItems rest⟩

theorem forall_mem_arrangedFields : ∀ fields : List (String × Value),
    ∀ e ∈ arrangedFields fields, e.2.Ordered
  | [] => by simp [arrangedFields]
  | (_, value) :: rest =>
      List.forall_mem_cons.2 ⟨ordered_arranged value, forall_mem_arrangedFields rest⟩

end

mutual

/-- A value with its fields in order stays as it is. -/
theorem Ordered.arranged_eq : ∀ {v : Value}, v.Ordered → v.arranged = v
  | .null, _ | .bool _, _ | .number _, _ | .string _, _ => rfl
  | .array items, h => congrArg Value.array (arrangedItems_eq_self h)
  | .object fields, h => by
      rw [arranged, arrangedFields_eq_self h.2, h.1.ofList_eq]

theorem arrangedItems_eq_self : ∀ {items : List Value}, OrderedItems items →
    arrangedItems items = items
  | [], _ => rfl
  | _ :: _, h => by rw [arrangedItems, h.1.arranged_eq, arrangedItems_eq_self h.2]

theorem arrangedFields_eq_self : ∀ {fields : List (String × Value)}, OrderedFields fields →
    arrangedFields fields = fields
  | [], _ => rfl
  | (_, _) :: _, h => by rw [arrangedFields, h.1.arranged_eq, arrangedFields_eq_self h.2]

end

/-! ## Values that are read -/

mutual

/-- The value of a tree has its fields in order, in whatever order they are written. -/
theorem ordered_of_ofTree? : ∀ (tree : JsonTree) {depth : Nat} {v : Value},
    ofTree? depth tree = some v → v.Ordered
  | .null, _, _, h | .bool _, _, _, h => by
      obtain rfl := Option.some.inj h
      trivial
  | .number _, _, _, h | .string _, _, _, h => by
      obtain ⟨_, -, rfl⟩ := Option.map_eq_some_iff.1 h
      trivial
  | .array items, depth, v, h => by
      cases depth with
      | zero => cases h
      | succ depth =>
          obtain ⟨values, hvalues, rfl⟩ := Option.map_eq_some_iff.1 h
          exact orderedItems_of_ofItems? items hvalues
  | .object fields, depth, v, h => by
      cases depth with
      | zero => cases h
      | succ depth =>
          obtain ⟨values, hvalues, rfl⟩ := Option.map_eq_some_iff.1 h
          have hordered := orderedFields_iff.1 (orderedFields_of_ofFields? fields hvalues)
          exact ⟨Fields.sorted_ofList values,
            orderedFields_iff.2 fun e he => hordered e (Fields.mem_of_mem_ofList he)⟩

theorem orderedItems_of_ofItems? : ∀ (items : List JsonTree) {depth : Nat} {values : List Value},
    ofItems? depth items = some values → OrderedItems values
  | [], _, _, h => by
      obtain rfl := Option.some.inj h
      trivial
  | item :: items, depth, values, h => by
      obtain ⟨v, hv, h⟩ := Option.bind_eq_some_iff.1 h
      obtain ⟨rest, hrest, heq⟩ := Option.bind_eq_some_iff.1 h
      obtain rfl := Option.some.inj heq
      exact ⟨ordered_of_ofTree? item hv, orderedItems_of_ofItems? items hrest⟩

theorem orderedFields_of_ofFields? : ∀ (fields : List (Option String × JsonTree)) {depth : Nat}
    {values : List (String × Value)}, ofFields? depth fields = some values → OrderedFields values
  | [], _, _, h => by
      obtain rfl := Option.some.inj h
      trivial
  | (name, tree) :: fields, depth, values, h => by
      obtain ⟨name, -, h⟩ := Option.bind_eq_some_iff.1 h
      obtain ⟨v, hv, h⟩ := Option.bind_eq_some_iff.1 h
      obtain ⟨rest, hrest, heq⟩ := Option.bind_eq_some_iff.1 h
      obtain rfl := Option.some.inj heq
      exact ⟨ordered_of_ofTree? tree hv, orderedFields_of_ofFields? fields hrest⟩

end

/-- **A value that has been read has its fields in order.** -/
theorem ordered_of_parse? {text : String} {v : Value} (h : parse? text = some v) : v.Ordered := by
  obtain ⟨tree, -, hv⟩ := Option.bind_eq_some_iff.1 h
  exact ordered_of_ofTree? tree hv

/-! ## Alike -/

/-- Lists of values that are equal in order have as many items, equal in order. -/
theorem alike_array {items items' : List Value}
    (halike : ∀ v ∈ items, ∀ v' : Value, v.arranged = v'.arranged → Alike v v')
    (h : items.map arranged = items'.map arranged) : Alike (.array items) (.array items') := by
  refine .array items items' (by simpa using congrArg List.length h) fun i v v' hv hv' => ?_
  apply halike v (List.mem_of_getElem? hv)
  have hplace := congrArg (·[i]?) h
  simpa [List.getElem?_map, hv, hv'] using hplace

/-- Records that are equal in order have the same names, with values equal in order. -/
theorem alike_object {fields fields' : List (String × Value)}
    (halike : ∀ e ∈ fields, ∀ v' : Value, e.2.arranged = v'.arranged → Alike e.2 v')
    (h : Fields.ofList (arrangedFields fields) = Fields.ofList (arrangedFields fields')) :
    Alike (.object fields) (.object fields') := by
  have hvalue : ∀ name, (Fields.last? fields name).map arranged =
      (Fields.last? fields' name).map arranged := by
    intro name
    rw [← find?_arranged, ← find?_arranged, h]
  refine .object fields fields' (fun name => ?_) fun name v v' hv hv' => ?_
  · simpa using congrArg Option.isSome (hvalue name)
  · apply halike (name, v) (Fields.mem_of_last? hv)
    simpa [hv, hv'] using hvalue name

mutual

theorem alike_of_arranged_eq : ∀ v v' : Value, v.arranged = v'.arranged → Alike v v'
  | .null, v', h => by
      cases v' with
      | null => exact .null
      | _ => simp [arranged] at h
  | .bool b, v', h => by
      cases v' with
      | bool b' =>
          obtain rfl : b = b' := by simpa [arranged] using h
          exact .bool b
      | _ => simp [arranged] at h
  | .number n, v', h => by
      cases v' with
      | number n' =>
          obtain rfl : n = n' := by simpa [arranged] using h
          exact .number n
      | _ => simp [arranged] at h
  | .string s, v', h => by
      cases v' with
      | string s' =>
          obtain rfl : s = s' := by simpa [arranged] using h
          exact .string s
      | _ => simp [arranged] at h
  | .array items, v', h => by
      cases v' with
      | array items' =>
          rw [arranged, arranged, array.injEq, arrangedItems_eq_map, arrangedItems_eq_map] at h
          exact alike_array (forall_mem_items_alike items) h
      | _ => simp [arranged] at h
  | .object fields, v', h => by
      cases v' with
      | object fields' =>
          rw [arranged, arranged, object.injEq] at h
          exact alike_object (forall_mem_fields_alike fields) h
      | _ => simp [arranged] at h

theorem forall_mem_items_alike : ∀ items : List Value, ∀ v ∈ items, ∀ v' : Value,
    v.arranged = v'.arranged → Alike v v'
  | [] => by simp
  | item :: rest =>
      List.forall_mem_cons.2 ⟨alike_of_arranged_eq item, forall_mem_items_alike rest⟩

theorem forall_mem_fields_alike : ∀ fields : List (String × Value), ∀ e ∈ fields, ∀ v' : Value,
    e.2.arranged = v'.arranged → Alike e.2 v'
  | [] => by simp
  | (_, value) :: rest =>
      List.forall_mem_cons.2 ⟨alike_of_arranged_eq value, forall_mem_fields_alike rest⟩

end

theorem Alike.arranged_eq {v v' : Value} (h : Alike v v') : v.arranged = v'.arranged := by
  induction h with
  | null | bool | number | string => rfl
  | array items items' hlength _ ih =>
      rw [arranged, arranged, arrangedItems_eq_map, arrangedItems_eq_map]
      congr 1
      apply List.ext_getElem (by simpa using hlength)
      intro i hi hi'
      rw [List.getElem_map, List.getElem_map]
      exact ih i _ _ (List.getElem?_eq_getElem _) (List.getElem?_eq_getElem _)
  | object fields fields' hnames _ ih =>
      rw [arranged, arranged]
      congr 1
      refine (Fields.sorted_ofList _).ext (Fields.sorted_ofList _) fun name => ?_
      rw [find?_arranged, find?_arranged]
      have hname := hnames name
      cases hv : Fields.last? fields name with
      | none =>
          have hnone : Fields.last? fields' name = none := by simpa [hv] using hname.symm
          rw [hnone]
      | some v =>
          cases hv' : Fields.last? fields' name with
          | none => simp [hv, hv'] at hname
          | some v' => rw [Option.map_some, Option.map_some, ih name v v' hv hv']

/-- **Values are alike if they are equal once fields are in order.** -/
theorem arranged_eq_iff {v v' : Value} : v.arranged = v'.arranged ↔ Alike v v' :=
  ⟨alike_of_arranged_eq v v', Alike.arranged_eq⟩

/-- The value with its fields in order is the only one in order that says the same. -/
theorem eq_arranged_iff {v v' : Value} : v' = v.arranged ↔ v'.Ordered ∧ v'.Alike v := by
  constructor
  · rintro rfl
    exact ⟨ordered_arranged v, arranged_eq_iff.1 (ordered_arranged v).arranged_eq⟩
  · rintro ⟨hordered, halike⟩
    rw [← halike.arranged_eq, hordered.arranged_eq]

end Value

end Guided
