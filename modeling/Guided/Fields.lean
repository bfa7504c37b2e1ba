/-!
# Named fields

A map from names to values, kept as a list of pairs in increasing order of names. Names
are ordered by code point. Keeping the order makes two maps with the same entries equal
as lists, and is the order in which entries are written.

## Main definitions

* `Fields.insert`, `Fields.find?`, `Fields.contains`, `Fields.ofList`.
* `Fields.Sorted`: names strictly increase.
-/
namespace Guided

/-- Entries in increasing order of names. -/
abbrev Fields (α : Type) := List (String × α)

namespace Fields

variable {α : Type}

/-- The value under a name. -/
def find? : Fields α → String → Option α
  | [], _ => none
  | (key, value) :: rest, name => if key = name then some value else find? rest name

/-- Whether a name has a value. -/
def contains (fields : Fields α) (name : String) : Bool := (fields.find? name).isSome

/-- Put a value under a name, in place of the one already there. -/
def insert : Fields α → String → α → Fields α
  | [], name, value => [(name, value)]
  | (key, old) :: rest, name, value =>
      if name < key then (name, value) :: (key, old) :: rest
      else if name = key then (name, value) :: rest
      else (key, old) :: insert rest name value

/-- The map of a list of entries, of which a later one replaces an earlier one. -/
def ofList (entries : List (String × α)) : Fields α :=
  entries.foldl (fun fields entry => fields.insert entry.1 entry.2) []

/-- Names strictly increase. -/
def Sorted (fields : Fields α) : Prop := fields.Pairwise fun a b => a.1 < b.1

@[simp] theorem find?_nil (name : String) : find? ([] : Fields α) name = none := rfl

theorem find?_cons (key : String) (value : α) (rest : Fields α) (name : String) :
    find? ((key, value) :: rest) name = if key = name then some value else find? rest name := rfl

@[simp] theorem find?_insert_self (fields : Fields α) (name : String) (value : α) :
    (fields.insert name value).find? name = some value := by
  induction fields with
  | nil => simp [insert, find?]
  | cons entry rest ih =>
      obtain ⟨key, old⟩ := entry
      by_cases hlt : name < key
      · simp [insert, find?, hlt]
      · by_cases heq : name = key
        · simp [insert, find?, heq]
        · simp [insert, find?, hlt, heq, Ne.symm heq, ih]

theorem find?_insert_of_ne (fields : Fields α) {name other : String} (h : other ≠ name)
    (value : α) : (fields.insert name value).find? other = fields.find? other := by
  induction fields with
  | nil => simp [insert, find?, h.symm]
  | cons entry rest ih =>
      obtain ⟨key, old⟩ := entry
      by_cases hlt : name < key
      · simp [insert, find?, hlt, h.symm]
      · by_cases heq : name = key
        · subst heq; simp [insert, find?, h.symm]
        · simp [insert, find?, hlt, heq, ih]

end Fields

end Guided
