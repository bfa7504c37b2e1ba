/-!
# Texts measured in bytes

## Main definitions

* `utf8Length`: the length of a text in bytes.
* `dropBytes?`: a text without its first bytes.
-/
namespace Guided

/-- The length of a text in bytes. -/
def utf8Length : List Char → Nat
  | [] => 0
  | c :: s => c.utf8Size + utf8Length s

/-- A text without its first `n` bytes, if a character ends there. -/
def dropBytes? : Nat → List Char → Option (List Char)
  | 0, s => some s
  | _ + 1, [] => none
  | n + 1, c :: s => if c.utf8Size ≤ n + 1 then dropBytes? (n + 1 - c.utf8Size) s else none

@[simp] theorem dropBytes?_zero (s : List Char) : dropBytes? 0 s = some s := by
  cases s <;> rfl

@[simp] theorem utf8Length_nil : utf8Length [] = 0 := rfl

@[simp] theorem utf8Length_cons (c : Char) (s : List Char) :
    utf8Length (c :: s) = c.utf8Size + utf8Length s := rfl

@[simp] theorem utf8Length_append (s t : List Char) :
    utf8Length (s ++ t) = utf8Length s + utf8Length t := by
  induction s with
  | nil => simp
  | cons c s ih => simp [ih, Nat.add_assoc]

/-- Dropping exactly the bytes of a first part leaves the rest. -/
theorem dropBytes?_append (s t : List Char) : dropBytes? (utf8Length s) (s ++ t) = some t := by
  induction s with
  | nil => simp
  | cons c s ih =>
      have hpos : 0 < c.utf8Size := c.utf8Size_pos
      obtain ⟨n, hn⟩ : ∃ n, utf8Length (c :: s) = n + 1 :=
        ⟨utf8Length (c :: s) - 1, by simp; omega⟩
      have hle : c.utf8Size ≤ n + 1 := by rw [← hn]; simp
      have hrest : n + 1 - c.utf8Size = utf8Length s := by rw [← hn]; simp
      rw [hn, List.cons_append, dropBytes?, if_pos hle, hrest, ih]

end Guided
