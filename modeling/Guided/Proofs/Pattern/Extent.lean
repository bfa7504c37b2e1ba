import Guided.Proofs.Pattern.Refusals
import Guided.Proofs.Pattern.Reading
import Mathlib.Algebra.BigOperators.Group.List.Basic
import Mathlib.Algebra.Ring.Nat

/-!
# How long a pattern is written

A pattern has an extent: the characters it takes to write it when every count is rolled out.
A pattern without counts is never longer than the text it has been read from.

## Main definitions

* `Pattern.extent`: characters of a pattern whose counts are rolled out.
* `Pattern.Uncounted`: every repetition is one that a single mark writes.

## Main statements

* `Pattern.extent_le_of_ofChars`: the extent of a pattern that has been read.
* `Pattern.uncounted_of_ofChars`: without bounds in braces there are no counts.
-/
namespace Guided

/-- The rounds of a repetition that are laid out, at most. -/
def rounds (min : Nat) (max : Option Nat) : Nat := Nat.max 1 (Nat.max min (max.getD 0))

/-- Characters that a class item needs to be written. -/
def ClassItem.extent : ClassItem → Nat
  | .single _ => 1
  | .range _ _ => 3

mutual

/-- Characters that a node needs to be written when its counts are rolled out. Of the two
parentheses of a group only one counts, because each branch counts a bar. -/
def Node.extent : Node → Nat
  | .literal _ | .endAnchor => 1
  | .oneOf items => 2 + (items.map ClassItem.extent).sum
  | .repetition min max body => rounds min max * (1 + Pattern.extent body)
  | .alternation branches => Pattern.extentOfEach branches
  | .group inner => 1 + Pattern.extent inner

/-- Characters that a sequence needs. -/
def Pattern.extent : List Node → Nat
  | [] => 0
  | node :: rest => node.extent + Pattern.extent rest

/-- Characters that branches need, each with a bar. -/
def Pattern.extentOfEach : List (List Node) → Nat
  | [] => 0
  | branch :: rest => 1 + Pattern.extent branch + Pattern.extentOfEach rest

end

mutual

/-- No repetition in a node has more than one round to lay out. -/
def Node.Uncounted : Node → Prop
  | .literal _ | .oneOf _ | .endAnchor => True
  | .repetition min max body => rounds min max = 1 ∧ Pattern.Uncounted body
  | .alternation branches => Pattern.UncountedEach branches
  | .group inner => Pattern.Uncounted inner

/-- No repetition in a sequence has more than one round to lay out. -/
def Pattern.Uncounted : List Node → Prop
  | [] => True
  | node :: rest => node.Uncounted ∧ Pattern.Uncounted rest

/-- No repetition in branches has more than one round to lay out. -/
def Pattern.UncountedEach : List (List Node) → Prop
  | [] => True
  | branch :: rest => Pattern.Uncounted branch ∧ Pattern.UncountedEach rest

end

section Sequences

variable {n : Node} {p branch : Pattern} {more : List Pattern}

@[simp] theorem Pattern.uncounted_nil : Pattern.Uncounted [] := by
  simp [Pattern.Uncounted]

@[simp] theorem Pattern.uncounted_cons :
    Pattern.Uncounted (n :: p) ↔ n.Uncounted ∧ Pattern.Uncounted p := by
  rw [Pattern.Uncounted]

theorem Pattern.uncounted_ofBranches : Pattern.Uncounted (Pattern.ofBranches branch more) ↔
    Pattern.Uncounted branch ∧ Pattern.UncountedEach more := by
  cases more with
  | nil => simp [Pattern.ofBranches, Pattern.UncountedEach]
  | cons b bs => simp [Pattern.ofBranches, Node.Uncounted, Pattern.UncountedEach]

/-- The first of several branches has a bar as well. -/
theorem Pattern.extent_ofBranches_le (branch : Pattern) (more : List Pattern) :
    Pattern.extent (Pattern.ofBranches branch more) ≤
      1 + Pattern.extent branch + Pattern.extentOfEach more := by
  cases more with
  | nil =>
      simp only [Pattern.ofBranches, List.isEmpty_nil, if_true]
      omega
  | cons b bs =>
      simp [Pattern.ofBranches, Pattern.extent, Node.extent, Pattern.extentOfEach]

end Sequences

/-! ## Reading -/

theorem LeavesSuffix.length_le {α : Type} {s rest : List Char} {a : α}
    {x : Except Refusal (α × List Char)} (h : LeavesSuffix s x) (hx : x = .ok (a, rest)) :
    rest.length ≤ s.length := by
  rw [hx, leavesSuffix_ok] at h
  exact h.length_le

theorem length_of_readClassChar {s rest : List Char} {c : Char}
    (h : readClassChar s = .ok (c, rest)) : 1 + rest.length ≤ s.length := by
  cases s with
  | nil => simp [readClassChar, refuse] at h
  | cons a s =>
      rw [readClassChar] at h
      rw [List.length_cons, Nat.add_comm]
      split at h
      · exact Nat.succ_le_succ ((leavesSuffix_readEscape s).length_le h)
      · obtain ⟨-, rfl⟩ : a = c ∧ s = rest := by simpa using h
        exact Nat.le_refl _

theorem extent_of_readClassItem {s rest : List Char} {item : ClassItem}
    (h : readClassItem s = .ok (item, rest)) : item.extent + rest.length ≤ s.length := by
  obtain ⟨⟨low, t⟩, hlow, h⟩ := bind_eq_ok_iff.1 h
  have hfirst := length_of_readClassChar hlow
  dsimp only at h
  split at h
  · rename_i hrange
    obtain ⟨⟨high, t'⟩, hhigh, h⟩ := bind_eq_ok_iff.1 h
    have hsecond := length_of_readClassChar hhigh
    have hhyphen : (t.drop 1).length + 1 ≤ t.length := by
      cases t with
      | nil => simp [startsRange] at hrange
      | cons a t => simp
    dsimp only at h
    split at h
    · simp [refuse] at h
    · obtain ⟨rfl, rfl⟩ : ClassItem.range low high = item ∧ t' = rest := by simpa using h
      rw [ClassItem.extent]
      omega
  · obtain ⟨rfl, rfl⟩ : ClassItem.single low = item ∧ t = rest := by simpa using h
    rw [ClassItem.extent]
    exact hfirst

theorem extent_of_readClassItems {fuel : Nat} {first : Bool} {s rest : List Char}
    {items : List ClassItem} (h : readClassItems fuel first s = .ok (items, rest)) :
    1 + (items.map ClassItem.extent).sum + rest.length ≤ s.length := by
  induction fuel generalizing first s rest items with
  | zero => cases s <;> simp [readClassItems, refuse] at h
  | succ fuel ih =>
      cases s with
      | nil => simp [readClassItems, refuse] at h
      | cons c s =>
          rw [readClassItems] at h
          split at h
          · obtain ⟨rfl, rfl⟩ : [] = items ∧ s = rest := by simpa using h
            simp
            omega
          · split at h
            · simp [leaveOut] at h
            · obtain ⟨⟨item, t⟩, hitem, h⟩ := bind_eq_ok_iff.1 h
              obtain ⟨⟨items', t'⟩, hitems, h⟩ := bind_eq_ok_iff.1 h
              obtain ⟨rfl, rfl⟩ : item :: items' = items ∧ t' = rest := by
                simpa [pure, Except.pure] using h
              have hfirst := extent_of_readClassItem hitem
              have hrest := ih hitems
              rw [List.map_cons, List.sum_cons]
              omega

theorem extent_of_readAtom {c : Char} {s rest : List Char} {atom : Node}
    (h : readAtom c s = .ok (atom, rest)) : atom.extent + rest.length ≤ s.length + 1 := by
  rcases readAtom_cases h with
    ⟨items, -, -, hitems, rfl⟩ | ⟨d, -, hread, rfl⟩ | ⟨-, rfl, rfl⟩ | ⟨-, rfl, rfl⟩
  · have hlength := extent_of_readClassItems hitems
    rw [Node.extent]
    omega
  · have hlength := (leavesSuffix_readEscape s).length_le hread
    rw [Node.extent]
    omega
  · rw [Node.extent]
    omega
  · rw [Node.extent]
    omega

theorem QuantifierForm.length_pos {b : Bounds} {q : List Char} (h : QuantifierForm b q) :
    0 < q.length := by
  rcases h.cases_cons with ⟨rfl, -⟩ | ⟨rfl, -⟩ | ⟨rfl, -⟩ | ⟨t, rfl⟩
  all_goals simp

/-- A quantifier takes a character, which is all that a single round more needs. -/
theorem extent_of_readQuantified {atom node : Node} {s rest : List Char}
    (h : readQuantified atom s = .ok (node, rest)) (hnode : node.Uncounted) :
    atom.Uncounted ∧ node.extent + rest.length ≤ atom.extent + s.length := by
  rcases readQuantified_cases h with ⟨-, rfl, rfl⟩ | ⟨min, max, hbounds, -, -, rfl⟩
  · exact ⟨hnode, Nat.le_refl _⟩
  · obtain ⟨q, rfl, hform, -⟩ := form_of_readBounds hbounds
    have hlength := hform.length_pos
    rw [Node.Uncounted, Pattern.uncounted_cons] at hnode
    refine ⟨hnode.2.1, ?_⟩
    rw [Node.extent, hnode.1, Pattern.extent, Pattern.extent, List.length_append]
    omega

theorem keptByReading_extent : KeptByReading fun s branch more rest =>
    Pattern.Uncounted branch ∧ Pattern.UncountedEach more →
      Pattern.extent branch + Pattern.extentOfEach more + rest.length ≤ s.length where
  closed s _ := by simp [Pattern.extent, Pattern.extentOfEach]
  bar s branch more rest ih h := by
    rw [Pattern.UncountedEach] at h
    have hrest := ih h.2
    rw [Pattern.extent, Pattern.extentOfEach, List.length_cons]
    omega
  atom c s atom t node t' p more rest hatom hquantified ih h := by
    rw [Pattern.uncounted_cons] at h
    have hfirst := extent_of_readAtom hatom
    have hnode := (extent_of_readQuantified hquantified h.1.1).2
    have hrest := ih ⟨h.1.2, h.2⟩
    rw [Pattern.extent, List.length_cons]
    omega
  group levels s inside b m t node t' p more rest hopen ihinside hquantified ih h := by
    rw [Pattern.uncounted_cons] at h
    obtain ⟨hgroup, hnode⟩ := extent_of_readQuantified hquantified h.1.1
    rw [Node.Uncounted, Pattern.uncounted_ofBranches] at hgroup
    have hopened := ((suffix_of_openGroup levels s).1 inside hopen).length_le
    have hinside := ihinside hgroup
    have hbranches := Pattern.extent_ofBranches_le b m
    have hrest := ih ⟨h.1.2, h.2⟩
    rw [Node.extent] at hnode
    rw [List.length_cons] at hinside
    rw [Pattern.extent, List.length_cons]
    omega

/-- A pattern without counts takes up at least as many characters as its extent says, but for
a bar in front of it. -/
theorem Pattern.extent_le_of_ofChars {s : List Char} {p : Pattern} (h : Pattern.ofChars s = .ok p)
    (hp : Pattern.Uncounted p) : Pattern.extent p ≤ s.length + 1 := by
  obtain ⟨-, branch, more, hread, rfl⟩ := Pattern.ofChars_eq_ok_iff.1 h
  have hextent := keptByReading_extent.of_readBranches hread (Pattern.uncounted_ofBranches.1 hp)
  have hbranches := Pattern.extent_ofBranches_le branch more
  rw [List.length_nil] at hextent
  omega

/-! ## Texts without counts -/

/-- No opening brace in a text begins bounds. -/
def Unbraced (s : List Char) : Prop := ∀ t, '{' :: t <:+ s → readBraces t = .ok none

theorem Unbraced.of_not_mem {s : List Char} (h : '{' ∉ s) : Unbraced s :=
  fun _ ht => absurd (ht.subset List.mem_cons_self) h

theorem Unbraced.suffix {s t : List Char} (h : Unbraced s) (hts : t <:+ s) : Unbraced t :=
  fun u hu => h u (hu.trans hts)

theorem uncounted_of_readQuantified {atom node : Node} {s rest : List Char}
    (h : readQuantified atom s = .ok (node, rest)) (hs : Unbraced s) (hatom : atom.Uncounted) :
    node.Uncounted := by
  rcases readQuantified_cases h with ⟨-, rfl, -⟩ | ⟨min, max, hbounds, -, -, rfl⟩
  · exact hatom
  · obtain ⟨q, rfl, hform, -⟩ := form_of_readBounds hbounds
    rw [Node.Uncounted]
    refine ⟨?_, by simpa using hatom⟩
    rcases hform.cases_cons with ⟨-, hb⟩ | ⟨-, hb⟩ | ⟨-, hb⟩ | ⟨t, rfl⟩
    · obtain ⟨rfl, rfl⟩ := Prod.mk.inj hb
      rfl
    · obtain ⟨rfl, rfl⟩ := Prod.mk.inj hb
      rfl
    · obtain ⟨rfl, rfl⟩ := Prod.mk.inj hb
      rfl
    · have hnone : readBounds ('{' :: (t ++ rest)) = .ok none := hs _ (List.suffix_refl _)
      simp [hnone] at hbounds

theorem keptByReading_uncounted : KeptByReading fun s branch more rest =>
    rest <:+ s ∧ (Unbraced s → Pattern.Uncounted branch ∧ Pattern.UncountedEach more) where
  closed s := ⟨List.suffix_refl s, fun _ => by simp [Pattern.UncountedEach]⟩
  bar s branch more rest ih := by
    have hs : s <:+ '|' :: s := List.suffix_cons _ s
    refine ⟨ih.1.trans hs, fun h => ?_⟩
    rw [Pattern.UncountedEach]
    exact ⟨Pattern.uncounted_nil, ih.2 (h.suffix hs)⟩
  atom c s atom t node t' p more rest hatom hquantified ih := by
    have ht : t <:+ c :: s := by simpa [hatom] using leavesSuffix_readAtom c s
    have ht' : t' <:+ t := by simpa [hquantified] using leavesSuffix_readQuantified atom t
    refine ⟨ih.1.trans (ht'.trans ht), fun h => ?_⟩
    have huncounted : atom.Uncounted := by
      rcases readAtom_cases hatom with
        ⟨items, -, -, -, rfl⟩ | ⟨d, -, -, rfl⟩ | ⟨-, rfl, -⟩ | ⟨-, rfl, -⟩
      all_goals simp [Node.Uncounted]
    obtain ⟨hp, hmore⟩ := ih.2 (h.suffix (ht'.trans ht))
    have hnode := uncounted_of_readQuantified hquantified (h.suffix ht) huncounted
    exact ⟨Pattern.uncounted_cons.2 ⟨hnode, hp⟩, hmore⟩
  group levels s inside b m t node t' p more rest hopen ihinside hquantified ih := by
    have hinside : inside <:+ '(' :: s :=
      ((suffix_of_openGroup levels s).1 inside hopen).trans (List.suffix_cons _ s)
    have ht : t <:+ '(' :: s := (List.suffix_cons _ t).trans (ihinside.1.trans hinside)
    have ht' : t' <:+ t := by
      simpa [hquantified] using leavesSuffix_readQuantified (.group (Pattern.ofBranches b m)) t
    refine ⟨ih.1.trans (ht'.trans ht), fun h => ?_⟩
    have hgroup : (Node.group (Pattern.ofBranches b m)).Uncounted := by
      rw [Node.Uncounted]
      exact Pattern.uncounted_ofBranches.2 (ihinside.2 (h.suffix hinside))
    obtain ⟨hp, hmore⟩ := ih.2 (h.suffix (ht'.trans ht))
    have hnode := uncounted_of_readQuantified hquantified (h.suffix ht) hgroup
    exact ⟨Pattern.uncounted_cons.2 ⟨hnode, hp⟩, hmore⟩

/-- A text without bounds in braces spells a pattern without counts. -/
theorem Pattern.uncounted_of_ofChars {s : List Char} {p : Pattern} (h : Pattern.ofChars s = .ok p)
    (hs : Unbraced s) : Pattern.Uncounted p := by
  obtain ⟨-, branch, more, hread, rfl⟩ := Pattern.ofChars_eq_ok_iff.1 h
  exact Pattern.uncounted_ofBranches.2 ((keptByReading_uncounted.of_readBranches hread).2 hs)

end Guided
