import Guided.Fields
import Mathlib.Data.String.Basic

/-!
# Maps in order

Putting in an entry keeps the names in order, and putting in the entries of a map one by one, in
their order, makes the same map again. A map in order is known by the values of its names, and
the map of a list of entries has for each name the value of its last entry.

## Main definitions

* `Fields.last?`: the value that a list of entries ends up giving to a name.

## Main statements

* `Fields.Sorted.insert`, `Fields.sorted_ofList`: order is kept.
* `Fields.Sorted.ofList_eq`: a map is the map of its entries.
* `Fields.find?_ofList`: the last entry of a name counts.
* `Fields.Sorted.ext`: maps with the same values are equal.
-/
namespace Guided

namespace Fields

variable {α : Type} {fields : Fields α} {name key : String} {value : α}

theorem sorted_nil : Sorted ([] : Fields α) := List.Pairwise.nil

theorem sorted_cons_iff : Sorted ((key, value) :: fields) ↔
    (∀ e ∈ fields, key < e.1) ∧ Sorted fields :=
  List.pairwise_cons

/-- The entries after one more was put in. -/
theorem mem_insert {e : String × α} (h : e ∈ fields.insert name value) :
    e = (name, value) ∨ e ∈ fields := by
  induction fields with
  | nil => exact .inl (by simpa [insert] using h)
  | cons e' fields ih =>
      obtain ⟨key, old⟩ := e'
      rw [insert] at h
      split at h
      · exact List.mem_cons.1 h
      · split at h
        · rcases List.mem_cons.1 h with heq | hmem
          · exact .inl heq
          · exact .inr (List.mem_cons_of_mem _ hmem)
        · rcases List.mem_cons.1 h with heq | hmem
          · exact .inr (heq ▸ List.mem_cons_self)
          · exact (ih hmem).imp_right (List.mem_cons_of_mem _)

/-- Putting in an entry keeps the order. -/
theorem Sorted.insert (h : Sorted fields) (name : String) (value : α) :
    Sorted (fields.insert name value) := by
  induction fields with
  | nil => exact List.pairwise_singleton _ _
  | cons e fields ih =>
      obtain ⟨key, old⟩ := e
      obtain ⟨hlt, hrest⟩ := sorted_cons_iff.1 h
      rw [Fields.insert]
      split
      · rename_i hless
        refine sorted_cons_iff.2 ⟨List.forall_mem_cons.2 ⟨hless, fun e he => ?_⟩, h⟩
        exact hless.trans (hlt e he)
      · rename_i hnot
        split
        · rename_i heq
          exact sorted_cons_iff.2 ⟨heq ▸ hlt, hrest⟩
        · rename_i hne
          refine sorted_cons_iff.2 ⟨fun e he => ?_, ih hrest⟩
          rcases mem_insert he with rfl | hmem
          · exact lt_of_le_of_ne (not_lt.1 hnot) (Ne.symm hne)
          · exact hlt e hmem

theorem sorted_foldl_insert (h : Sorted fields) (entries : List (String × α)) :
    Sorted (entries.foldl (fun fields entry => fields.insert entry.1 entry.2) fields) := by
  induction entries generalizing fields with
  | nil => exact h
  | cons e entries ih => exact ih (h.insert e.1 e.2)

theorem sorted_ofList (entries : List (String × α)) : Sorted (ofList entries) :=
  sorted_foldl_insert sorted_nil entries

/-- Every entry of a map is one that was put in. -/
theorem mem_foldl_insert {entries : List (String × α)} {e : String × α}
    (h : e ∈ entries.foldl (fun fields entry => fields.insert entry.1 entry.2) fields) :
    e ∈ fields ∨ e ∈ entries := by
  induction entries generalizing fields with
  | nil => exact .inl h
  | cons e' entries ih =>
      rcases ih h with hmem | hmem
      · rcases mem_insert hmem with rfl | hmem
        · exact .inr List.mem_cons_self
        · exact .inl hmem
      · exact .inr (List.mem_cons_of_mem _ hmem)

theorem mem_of_mem_ofList {entries : List (String × α)} {e : String × α}
    (h : e ∈ ofList entries) : e ∈ entries :=
  (mem_foldl_insert h).resolve_left List.not_mem_nil

/-- An entry behind all others comes last. -/
theorem insert_of_forall_lt (h : ∀ e ∈ fields, e.1 < name) (value : α) :
    fields.insert name value = fields ++ [(name, value)] := by
  induction fields with
  | nil => rfl
  | cons e fields ih =>
      obtain ⟨key, old⟩ := e
      rw [List.forall_mem_cons] at h
      rw [Fields.insert, if_neg (lt_asymm h.1), if_neg (ne_of_gt h.1), ih h.2, List.cons_append]

theorem foldl_insert_eq_append {entries : List (String × α)} (h : Sorted (fields ++ entries)) :
    entries.foldl (fun fields entry => fields.insert entry.1 entry.2) fields =
      fields ++ entries := by
  induction entries generalizing fields with
  | nil => exact (List.append_nil fields).symm
  | cons e entries ih =>
      have hlast : ∀ e' ∈ fields, e'.1 < e.1 := fun e' he' =>
        (List.pairwise_append.1 h).2.2 e' he' e List.mem_cons_self
      rw [List.foldl_cons, insert_of_forall_lt hlast, ih, List.append_assoc, List.singleton_append]
      rwa [List.append_assoc, List.singleton_append]

/-- A map is the map of its entries. -/
theorem Sorted.ofList_eq (h : Sorted fields) : ofList fields = fields :=
  foldl_insert_eq_append h

/-! ## Values of names -/

/-- The value in the last entry of a name. -/
def last? (entries : List (String × α)) (name : String) : Option α := find? entries.reverse name

@[simp] theorem last?_nil (name : String) : last? ([] : List (String × α)) name = none := rfl

theorem find?_append (fields more : Fields α) (name : String) :
    find? (fields ++ more) name = (find? fields name).or (find? more name) := by
  induction fields with
  | nil => rfl
  | cons e fields ih =>
      obtain ⟨key, value⟩ := e
      by_cases hkey : key = name
      · simp [find?_cons, hkey]
      · simp [find?_cons, hkey, ih]

theorem last?_cons (key : String) (value : α) (entries : List (String × α)) (name : String) :
    last? ((key, value) :: entries) name =
      (last? entries name).or (if key = name then some value else none) := by
  rw [last?, List.reverse_cons, find?_append, find?_cons, find?_nil, last?]

theorem mem_of_find? (h : find? fields name = some value) : (name, value) ∈ fields := by
  induction fields with
  | nil => simp at h
  | cons e fields ih =>
      obtain ⟨key, old⟩ := e
      rw [find?_cons] at h
      split at h
      · rename_i hkey
        rw [← hkey, Option.some.inj h]
        exact List.mem_cons_self
      · exact List.mem_cons_of_mem _ (ih h)

theorem mem_of_last? {entries : List (String × α)} (h : last? entries name = some value) :
    (name, value) ∈ entries := by
  exact List.mem_reverse.1 (mem_of_find? h)

theorem isSome_find?_iff : (find? fields name).isSome ↔ name ∈ fields.map Prod.fst := by
  induction fields with
  | nil => simp
  | cons e fields ih =>
      obtain ⟨key, value⟩ := e
      rw [find?_cons, List.map_cons, List.mem_cons, ← ih]
      by_cases hkey : key = name
      · simp [hkey]
      · simp [hkey, Ne.symm hkey]

theorem isSome_last?_iff {entries : List (String × α)} :
    (last? entries name).isSome ↔ name ∈ entries.map Prod.fst := by
  rw [last?, isSome_find?_iff, List.map_reverse, List.mem_reverse]

/-- Values can be changed before or after the entry is found. -/
theorem last?_map {β : Type} (f : α → β) (entries : List (String × α)) (name : String) :
    last? (entries.map fun e => (e.1, f e.2)) name = (last? entries name).map f := by
  induction entries with
  | nil => rfl
  | cons e entries ih =>
      obtain ⟨key, value⟩ := e
      rw [List.map_cons, last?_cons, last?_cons, ih]
      cases last? entries name with
      | none => split <;> rfl
      | some _ => rfl

/-- A new name makes the map longer by one. -/
theorem length_insert_of_find?_eq_none (h : find? fields name = none) (value : α) :
    (insert fields name value).length = fields.length + 1 := by
  induction fields with
  | nil => rfl
  | cons e fields ih =>
      obtain ⟨key, old⟩ := e
      rw [find?_cons] at h
      split at h
      · cases h
      · rename_i hkey
        rw [insert]
        split
        · rfl
        · rw [if_neg (Ne.symm hkey), List.length_cons, List.length_cons, ih h]

theorem find?_insert (fields : Fields α) (key : String) (value : α) (name : String) :
    (fields.insert key value).find? name = if key = name then some value else fields.find? name := by
  by_cases hkey : key = name
  · rw [if_pos hkey, hkey, find?_insert_self]
  · rw [if_neg hkey, find?_insert_of_ne fields (Ne.symm hkey)]

theorem find?_foldl_insert (entries : List (String × α)) (fields : Fields α) (name : String) :
    (entries.foldl (fun fields entry => fields.insert entry.1 entry.2) fields).find? name =
      (last? entries name).or (fields.find? name) := by
  induction entries generalizing fields with
  | nil => rfl
  | cons e entries ih =>
      obtain ⟨key, value⟩ := e
      rw [List.foldl_cons, ih, last?_cons, find?_insert, Option.or_assoc]
      split <;> rfl

/-- The last entry of a name counts. -/
theorem find?_ofList (entries : List (String × α)) (name : String) :
    (ofList entries).find? name = last? entries name := by
  rw [ofList, find?_foldl_insert, find?_nil, Option.or_none]

theorem find?_eq_none_of_forall_lt (h : ∀ e ∈ fields, name < e.1) : find? fields name = none := by
  rw [← Option.not_isSome_iff_eq_none, isSome_find?_iff]
  intro hmem
  obtain ⟨e, he, rfl⟩ := List.mem_map.1 hmem
  exact lt_irrefl _ (h e he)

/-- A map in order has each name once, so every entry can be found. -/
theorem Sorted.find?_of_mem (h : Sorted fields) (hmem : (name, value) ∈ fields) :
    find? fields name = some value := by
  induction fields with
  | nil => cases hmem
  | cons e fields ih =>
      obtain ⟨key, old⟩ := e
      obtain ⟨hlt, hrest⟩ := sorted_cons_iff.1 h
      rcases List.mem_cons.1 hmem with heq | hlater
      · obtain ⟨rfl, rfl⟩ := Prod.mk.inj heq
        rw [find?_cons, if_pos rfl]
      · rw [find?_cons, if_neg (ne_of_lt (hlt _ hlater)), ih hrest hlater]

/-- The first name of a map in order is a name of every map in order with the same values, so it
is not before the first name there. -/
theorem Sorted.le_of_find? {key' : String} {value' : α} {rest rest' : Fields α}
    (h : Sorted ((key', value') :: rest'))
    (hfind : find? ((key', value') :: rest') key = find? ((key, value) :: rest) key) :
    key' ≤ key := by
  by_contra hlt
  rw [not_le] at hlt
  have hnone : find? ((key', value') :: rest') key = none := by
    refine find?_eq_none_of_forall_lt (List.forall_mem_cons.2 ⟨hlt, fun e he => ?_⟩)
    exact hlt.trans ((sorted_cons_iff.1 h).1 e he)
  rw [hnone, find?_cons, if_pos rfl] at hfind
  cases hfind

/-- **Maps in order with the same values are equal.** -/
theorem Sorted.ext {fields' : Fields α} (h : Sorted fields) (h' : Sorted fields')
    (hfind : ∀ name, fields.find? name = fields'.find? name) : fields = fields' := by
  induction fields generalizing fields' with
  | nil =>
      cases fields' with
      | nil => rfl
      | cons e' fields' =>
          obtain ⟨key', value'⟩ := e'
          simpa [find?_cons] using hfind key'
  | cons e fields ih =>
      obtain ⟨key, value⟩ := e
      cases fields' with
      | nil => simpa [find?_cons] using hfind key
      | cons e' fields' =>
          obtain ⟨key', value'⟩ := e'
          obtain rfl : key = key' :=
            le_antisymm (h.le_of_find? (hfind key')) (h'.le_of_find? (hfind key).symm)
          obtain ⟨hlt, hrest⟩ := sorted_cons_iff.1 h
          obtain ⟨hlt', hrest'⟩ := sorted_cons_iff.1 h'
          have hvalue : value = value' := by simpa [find?_cons] using hfind key
          have hmore : ∀ name, find? fields name = find? fields' name := by
            intro name
            by_cases hname : key = name
            · rw [← hname, find?_eq_none_of_forall_lt hlt, find?_eq_none_of_forall_lt hlt']
            · simpa [find?_cons, hname] using hfind name
          rw [hvalue, ih hrest hrest' hmore]

end Fields

end Guided
