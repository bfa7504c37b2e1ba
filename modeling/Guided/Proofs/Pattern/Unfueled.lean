import Guided.Proofs.Pattern.Refusals

/-!
# Reading without fuel

The readers of classes and branches take fuel, of which the length of the text is enough: what
an item or an atom leaves is shorter than what it was read from. Without fuel both follow the
text alone.

## Main definitions

* `Unfueled.items`, `Unfueled.branches`: the two readers with just enough fuel.
* `Unfueled.step`: what is done at the first character of branches.

## Main statements

* `readClassItems_eq_items`, `readBranches_eq_branches`: more fuel changes nothing.
* `Unfueled.items_cons`, `Unfueled.branches_cons`: one step of each reader.
-/
namespace Guided

/-- How two readers go on only matters for what the first step gives. -/
theorem bind_congr_of_ok {ε α β : Type} {x : Except ε α} {f g : α → Except ε β}
    (h : ∀ a, x = .ok a → f a = g a) : (x >>= f) = (x >>= g) := by
  cases x with
  | error e => rfl
  | ok a => exact h a rfl

/-! ## Classes -/

namespace Unfueled

/-- An item of a class behind its first character: the other end of a range, if one follows. -/
def rangeEnd (low : Char) (s : List Char) : Except Refusal (ClassItem × List Char) :=
  if startsRange s then do
    let (high, rest) ← readClassChar (s.drop 1)
    if high < low then refuse (.reversedRange low high) rest
    else .ok (.range low high, rest)
  else .ok (.single low, s)

theorem readClassItem_eq (s : List Char) :
    readClassItem s = readClassChar s >>= fun read => rangeEnd read.1 read.2 := rfl

theorem leavesSuffix_rangeEnd (low : Char) (s : List Char) : LeavesSuffix s (rangeEnd low s) := by
  rw [rangeEnd]
  split
  · refine ((leavesSuffix_readClassChar (s.drop 1)).mono (List.drop_suffix 1 s)).bind ?_
    intro high rest _
    dsimp only
    split <;> simp
  · simp

/-- At least one character belongs to an item. -/
theorem leavesSuffix_readClassItem_cons (c : Char) (s : List Char) :
    LeavesSuffix s (readClassItem (c :: s)) := by
  have hchar : LeavesSuffix s (readClassChar (c :: s)) := by
    rw [readClassChar]
    split
    · exact leavesSuffix_readEscape s
    · exact List.suffix_refl s
  rw [readClassItem_eq]
  exact hchar.bind fun low rest _ => leavesSuffix_rangeEnd low rest

/-- The items of a class, with as much fuel as there are characters. -/
def items (first : Bool) (s : List Char) : Except Refusal (List ClassItem × List Char) :=
  readClassItems s.length first s

end Unfueled

/-- By induction on the fuel. -/
theorem readClassItems_eq_of_le {fuel fuel' : Nat} {first : Bool} {s : List Char}
    (h : s.length ≤ fuel) (h' : s.length ≤ fuel') :
    readClassItems fuel first s = readClassItems fuel' first s := by
  induction fuel generalizing fuel' first s with
  | zero =>
      obtain rfl : s = [] := List.length_eq_zero_iff.1 (Nat.le_zero.1 h)
      simp [readClassItems]
  | succ fuel ih =>
      cases s with
      | nil => simp [readClassItems]
      | cons c s =>
          rw [List.length_cons] at h h'
          obtain ⟨fuel', rfl⟩ : ∃ n, fuel' = n + 1 := Nat.exists_eq_add_one.2 (by omega)
          rw [readClassItems, readClassItems]
          split
          · rfl
          · split
            · rfl
            · refine bind_congr_of_ok fun read hread => ?_
              have hlength :=
                ((Unfueled.leavesSuffix_readClassItem_cons c s).of_eq_ok hread).length_le
              have hmore : readClassItems fuel false read.2 = readClassItems fuel' false read.2 :=
                ih (by omega) (by omega)
              dsimp only
              rw [hmore]

theorem readClassItems_eq_items {fuel : Nat} {first : Bool} {s : List Char}
    (h : s.length ≤ fuel) : readClassItems fuel first s = Unfueled.items first s :=
  readClassItems_eq_of_le h (Nat.le_refl _)

namespace Unfueled

@[simp] theorem items_nil (first : Bool) : items first [] = refuse .unterminatedClass [] := by
  rw [items, readClassItems]

/-- One step: the closing bracket, the name of a class, or an item and more of them. -/
theorem items_cons (first : Bool) (c : Char) (s : List Char) : items first (c :: s) =
    if c = ']' ∧ first = false then .ok ([], s)
    else if c = '[' ∧ s.head? = some ':' then leaveOut .namedClass (c :: s)
    else readClassItem (c :: s) >>= fun read => items false read.2 >>= fun later =>
      pure (read.1 :: later.1, later.2) := by
  rw [items, List.length_cons, readClassItems]
  split
  · rfl
  · split
    · rfl
    · refine bind_congr_of_ok fun read hread => ?_
      dsimp only
      rw [readClassItems_eq_items ((leavesSuffix_readClassItem_cons c s).of_eq_ok hread).length_le]

theorem leavesSuffix_items (first : Bool) (s : List Char) : LeavesSuffix s (items first s) :=
  leavesSuffix_readClassItems _ _ _

end Unfueled

/-! ## Branches -/

theorem suffix_of_readAtom {c : Char} {s rest : List Char} {atom : Node}
    (h : readAtom c s = .ok (atom, rest)) : rest <:+ s := by
  rcases readAtom_cases h with
    ⟨items, -, -, hitems, -⟩ | ⟨d, -, hescape, -⟩ | ⟨-, -, rfl⟩ | ⟨-, -, rfl⟩
  · exact (leavesSuffix_readClassItems _ _ s).of_eq_ok hitems
  · exact (leavesSuffix_readEscape s).of_eq_ok hescape
  · exact List.suffix_refl _
  · exact List.suffix_refl _

/-- A reader of branches, which is told how many levels of groups may still be opened. -/
abbrev BranchReader := Nat → List Char → Except Refusal ((Pattern × List Pattern) × List Char)

namespace Unfueled

/-- The end of a group behind its branches. -/
def closeGroup (inside : Pattern × List Pattern) : List Char → Except Refusal (Node × List Char)
  | ')' :: rest => .ok (.group (Pattern.ofBranches inside.1 inside.2), rest)
  | rest => refuse .missingClose rest

/-- An atom whose first character is `c`, which may be a group. -/
def atom (more : BranchReader) (levels : Nat) (c : Char) (s : List Char) :
    Except Refusal (Node × List Char) :=
  if c = '(' then openGroup levels s >>= fun inside =>
    more (levels - 1) inside >>= fun read => closeGroup read.1 read.2
  else readAtom c s

/-- A branch behind a node, with the branches that follow. -/
def behindNode (more : BranchReader) (levels : Nat) (node : Node) (s : List Char) :
    Except Refusal ((Pattern × List Pattern) × List Char) :=
  more levels s >>= fun read => pure ((node :: read.1.1, read.1.2), read.2)

/-- A branch behind an atom, with the branches that follow. -/
def behindAtom (more : BranchReader) (levels : Nat) (atom : Node) (s : List Char) :
    Except Refusal ((Pattern × List Pattern) × List Char) :=
  readQuantified atom s >>= fun read => behindNode more levels read.1 read.2

/-- Branches from a first character on. -/
def step (more : BranchReader) (levels : Nat) (c : Char) (s : List Char) :
    Except Refusal ((Pattern × List Pattern) × List Char) :=
  if c = ')' then .ok (([], []), c :: s)
  else if c = '|' then more levels s >>= fun read => pure (([], read.1.1 :: read.1.2), read.2)
  else atom more levels c s >>= fun read => behindAtom more levels read.1 read.2

/-- Branches, with as much fuel as there are characters. -/
def branches : BranchReader := fun levels s => readBranches s.length levels s

theorem readBranches_succ (fuel levels : Nat) (c : Char) (s : List Char) :
    readBranches (fuel + 1) levels (c :: s) = step (readBranches fuel) levels c s := by
  rw [readBranches, step]
  split
  · rfl
  · split
    · rfl
    · rw [atom]
      dsimp only
      split
      · rw [bind_assoc]
        refine bind_congr_of_ok fun inside _ => ?_
        rw [bind_assoc]
        refine bind_congr_of_ok fun read _ => ?_
        split
        · rename_i hclose
          rw [hclose]
          rfl
        · rename_i hopen
          rw [closeGroup]
          · rfl
          · exact hopen
      · rfl

theorem suffix_of_closeGroup {inside : Pattern × List Pattern} {s rest : List Char} {node : Node}
    (h : closeGroup inside s = .ok (node, rest)) : rest <:+ s := by
  rw [closeGroup.eq_def] at h
  split at h
  · obtain ⟨-, rfl⟩ := Prod.mk.inj (Except.ok.inj h)
    exact List.suffix_cons _ _
  · cases h

/-- An atom takes its first character at least. -/
theorem suffix_of_atom {more : BranchReader} (hmore : ∀ levels t, LeavesSuffix t (more levels t))
    {levels : Nat} {c : Char} {s rest : List Char} {node : Node}
    (h : atom more levels c s = .ok (node, rest)) : rest <:+ s := by
  rw [atom] at h
  split at h
  · obtain ⟨inside, hopen, h⟩ := bind_eq_ok_iff.1 h
    obtain ⟨⟨read, t⟩, hread, hclose⟩ := bind_eq_ok_iff.1 h
    exact (suffix_of_closeGroup hclose).trans
      (((hmore _ inside).of_eq_ok hread).trans ((suffix_of_openGroup levels s).1 inside hopen))
  · exact suffix_of_readAtom h

/-- The reader for what follows is only asked about ends of the text. -/
theorem step_congr {more more' : BranchReader} (hmore : ∀ levels t, LeavesSuffix t (more levels t))
    {levels : Nat} {c : Char} {s : List Char}
    (h : ∀ levels t, t <:+ s → more levels t = more' levels t) :
    step more levels c s = step more' levels c s := by
  have hatom : atom more' levels c s = atom more levels c s := by
    rw [atom, atom]
    split
    · refine bind_congr_of_ok fun inside hinside => ?_
      rw [h _ _ ((suffix_of_openGroup levels s).1 inside hinside)]
    · rfl
  rw [step, step, h levels s (List.suffix_refl s), hatom]
  split
  · rfl
  · split
    · rfl
    · refine bind_congr_of_ok fun ⟨node, rest⟩ hread => ?_
      refine bind_congr_of_ok fun ⟨quantified, rest'⟩ hquantified => ?_
      have hrest : rest' <:+ s :=
        ((leavesSuffix_readQuantified node rest).of_eq_ok hquantified).trans
          (suffix_of_atom hmore hread)
      rw [behindNode, behindNode, h levels _ hrest]

end Unfueled

/-- By induction on the fuel. -/
theorem readBranches_eq_of_le {fuel fuel' levels : Nat} {s : List Char} (h : s.length ≤ fuel)
    (h' : s.length ≤ fuel') : readBranches fuel levels s = readBranches fuel' levels s := by
  induction fuel generalizing fuel' levels s with
  | zero =>
      obtain rfl : s = [] := List.length_eq_zero_iff.1 (Nat.le_zero.1 h)
      rw [readBranches_of_closed (by simp), readBranches_of_closed (by simp)]
  | succ fuel ih =>
      cases s with
      | nil => rw [readBranches_of_closed (by simp), readBranches_of_closed (by simp)]
      | cons c s =>
          rw [List.length_cons] at h h'
          obtain ⟨fuel', rfl⟩ : ∃ n, fuel' = n + 1 := Nat.exists_eq_add_one.2 (by omega)
          rw [Unfueled.readBranches_succ, Unfueled.readBranches_succ]
          refine Unfueled.step_congr (leavesSuffix_readBranches fuel) fun levels t ht => ?_
          have hlength := ht.length_le
          exact ih (by omega) (by omega)

theorem readBranches_eq_branches {fuel levels : Nat} {s : List Char} (h : s.length ≤ fuel) :
    readBranches fuel levels s = Unfueled.branches levels s :=
  readBranches_eq_of_le h (Nat.le_refl _)

namespace Unfueled

@[simp] theorem branches_nil (levels : Nat) : branches levels [] = .ok (([], []), []) :=
  readBranches_of_closed (by simp) _ levels

theorem leavesSuffix_branches (levels : Nat) (s : List Char) :
    LeavesSuffix s (branches levels s) :=
  leavesSuffix_readBranches _ _ _

theorem branches_cons (levels : Nat) (c : Char) (s : List Char) :
    branches levels (c :: s) = step branches levels c s := by
  rw [branches, List.length_cons, readBranches_succ]
  exact step_congr (leavesSuffix_readBranches _) fun levels t ht =>
    readBranches_eq_branches ht.length_le

end Unfueled

end Guided
