import Guided.Proofs.Pattern.Shape
import Guided.Proofs.Pattern.Spelling

/-!
# Printed trees spell trees

The text of a tidy tree belongs to the grammar. The tree that it spells is nearly the one
that was printed: what stood in parentheses comes back as a group, and a repetition of
exactly once leaves no trace.

## Main definitions

* `Pattern.reread`: the tree that the text of a tree spells.

## Main statements

* `spelled_literalChars`, `spelled_classChars_oneOf`, `form_quantifierChars`: the parts.
* `Pattern.spelled_reread`: the text of a tidy tree spells its `reread`.
-/
namespace Guided

open List

/-! ## Characters, classes and bounds -/

theorem spelled_of_controlLetter {c l : Char} (h : controlLetter c = some l) :
    EscapeSpelled c l :=
  spelled_of_controlOfLetter (controlOfLetter_of_controlLetter h)

/-- A character as printed is the escape of the character, or the character alone where it
has no meaning of its own. -/
theorem escapedChars_cases {special : Char → Bool}
    (hspecial : ∀ c, special c = true → c.isAlphanum = false) (c : Char) :
    (∃ l, escapedChars special c = ['\\', l] ∧ EscapeSpelled c l) ∨
      (escapedChars special c = [c] ∧ special c = false) := by
  rw [escapedChars]
  cases hcontrol : controlLetter c with
  | some l => exact .inl ⟨l, rfl, spelled_of_controlLetter hcontrol⟩
  | none =>
      cases hc : special c with
      | true => exact .inl ⟨c, rfl, .itself (hspecial c hc)⟩
      | false => exact .inr ⟨rfl, rfl⟩

theorem isAlphanum_of_isMeta (c : Char) (h : isMeta c = true) : c.isAlphanum = false := by
  have hall : (['\\', '.', '^', '$', '|', '?', '*', '+', '(', ')', '[', ']', '\x7b', '\x7d'].all
      fun d => !d.isAlphanum) = true := by decide
  simpa using List.all_eq_true.1 hall c (by simpa [isMeta] using h)

theorem isAlphanum_of_isClassMeta (c : Char) (h : isClassMeta c = true) :
    c.isAlphanum = false := by
  have hall : (['\\', ']', '[', '^', '-', '&', '~'].all fun d => !d.isAlphanum) = true := by decide
  simpa using List.all_eq_true.1 hall c (by simpa [isClassMeta] using h)

/-- A character that may begin an item: none of those that a quantifier begins with. -/
def BeginsItem (c : Char) : Prop := c ≠ '*' ∧ c ≠ '+' ∧ c ≠ '?' ∧ c ≠ '\x7b'

theorem BeginsItem.not_startsQuantifier {c : Char} {s : List Char} (h : BeginsItem c) :
    ¬ StartsQuantifier (c :: s) := by
  obtain ⟨hstar, hplus, hoptional, hbrace⟩ := h
  rw [startsQuantifier_cons_iff]
  simp [hstar, hplus, hoptional, hbrace]

/-- A literal as printed is an atom. -/
theorem spelled_literalChars (c : Char) :
    AtomSpelled (.literal c) (escapedChars isMeta c) ∧
      ∃ d t, escapedChars isMeta c = d :: t ∧ BeginsItem d := by
  rcases escapedChars_cases isAlphanum_of_isMeta c with ⟨l, hl, hescape⟩ | ⟨hc, hmeta⟩
  · rw [hl]
    exact ⟨.escaped hescape, '\\', [l], rfl, by simp [BeginsItem]⟩
  · rw [hc]
    simp only [isMeta, List.contains_eq_mem, decide_eq_false_iff_not, mem_cons, not_or] at hmeta
    refine ⟨.raw ?_, c, [], rfl, ?_⟩
    · simp [isRaw, hmeta]
    · simp [BeginsItem, hmeta]

/-- A character of a class as printed; it never begins with a character that means something
at its place. -/
theorem spelled_classChars (c : Char) :
    ClassCharSpelled c (escapedChars isClassMeta c) ∧
      ∃ d t, escapedChars isClassMeta c = d :: t ∧ d ≠ ']' ∧ d ≠ '[' ∧ d ≠ '^' ∧ d ≠ '-' := by
  rcases escapedChars_cases isAlphanum_of_isClassMeta c with ⟨l, hl, hescape⟩ | ⟨hc, hmeta⟩
  · rw [hl]
    exact ⟨.escaped hescape, '\\', [l], rfl, by decide, by decide, by decide, by decide⟩
  · rw [hc]
    simp only [isClassMeta, List.contains_eq_mem, decide_eq_false_iff_not, mem_cons,
      not_or] at hmeta
    exact ⟨.raw hmeta.1, c, [], rfl, hmeta.2.1, hmeta.2.2.1, hmeta.2.2.2.1, hmeta.2.2.2.2.1⟩

theorem spelled_itemChars {item : ClassItem} (h : item.Ordered) :
    ClassItemSpelled item item.chars ∧
      ∃ d t, item.chars = d :: t ∧ d ≠ ']' ∧ d ≠ '[' ∧ d ≠ '^' ∧ d ≠ '-' := by
  cases item with
  | single c =>
      obtain ⟨hspelled, hfirst⟩ := spelled_classChars c
      exact ⟨.single hspelled, hfirst⟩
  | range low high =>
      obtain ⟨hlow, d, t, hd, hfirst⟩ := spelled_classChars low
      obtain ⟨hhigh, d', t', hd', hclose, -⟩ := spelled_classChars high
      have hne : escapedChars isClassMeta high ≠ [']'] := by
        rw [hd']
        simp [hclose]
      refine ⟨.range hlow hhigh hne h, d, t ++ '-' :: escapedChars isClassMeta high, ?_, hfirst⟩
      rw [ClassItem.chars, hd, cons_append]

/-- Printed items never begin like the end, the name or the negation of a class, or a hyphen. -/
theorem head?_itemsChars {items : List ClassItem} (h : ∀ item ∈ items, item.Ordered) {c : Char}
    (hc : (items.flatMap ClassItem.chars).head? = some c) :
    c ≠ ']' ∧ c ≠ '[' ∧ c ≠ '^' ∧ c ≠ '-' := by
  cases items with
  | nil => simp at hc
  | cons item items =>
      obtain ⟨-, d, t, hd, hfirst⟩ := spelled_itemChars (h item (by simp))
      rw [flatMap_cons, hd, cons_append, head?_cons, Option.some.injEq] at hc
      rw [← hc]
      exact hfirst

theorem spelled_itemsChars {items : List ClassItem} {first : Bool}
    (h : ∀ item ∈ items, item.Ordered) (hne : first = true → items ≠ []) :
    ClassItemsSpelled first items (items.flatMap ClassItem.chars) := by
  induction items generalizing first with
  | nil =>
      cases first with
      | true => exact absurd rfl (hne rfl)
      | false => exact .nil
  | cons item items ih =>
      rw [forall_mem_cons] at h
      obtain ⟨hitem, d, t, hd, hclose, hname, -, -⟩ := spelled_itemChars h.1
      have hitems : ClassItemsSpelled false items (items.flatMap ClassItem.chars) :=
        ih h.2 (by simp)
      rw [flatMap_cons]
      refine .cons hitem hitems ?_ ?_ ?_
      · intro _
        rw [hd]
        simp [hclose]
      · rw [hd, cons_append]
        intro hprefix
        exact hname ((cons_prefix_cons.1 hprefix).1).symm
      · intro c _ hhyphen
        exact absurd rfl (head?_itemsChars h.2 hhyphen).2.2.2

/-- A class as printed is an atom. -/
theorem spelled_classChars_oneOf {items : List ClassItem} (hne : items ≠ [])
    (h : ∀ item ∈ items, item.Ordered) : AtomSpelled (.oneOf items) (classChars items) := by
  refine .oneOf (spelled_itemsChars h (fun _ => hne)) ?_
  intro hnegated
  exact absurd rfl (head?_itemsChars h hnegated).2.2.1

theorem numberOfDigits_toDigits (n : Nat) : numberOfDigits (Nat.toDigits 10 n) = n := by
  have hread : numberOfDigits (Nat.toDigits 10 n) = Nat.ofDigitChars 10 (Nat.toDigits 10 n) 0 := by
    unfold numberOfDigits Nat.ofDigitChars
    simp [Nat.mul_comm]
  rw [hread, Nat.ofDigitChars_toDigits (by decide) (by decide)]

/-- Bounds as printed have the form of a quantifier, unless they are exactly once. -/
theorem form_quantifierChars {min : Nat} {max : Option Nat} (h : ¬ (min = 1 ∧ max = some 1)) :
    QuantifierForm (min, max) (quantifierChars min max) := by
  have hmin := isNumeral_toDigits min
  cases max with
  | none =>
      rw [quantifierChars]
      by_cases hzero : min = 0
      · rw [if_pos hzero, hzero]
        exact .star
      · rw [if_neg hzero]
        by_cases hone : min = 1
        · rw [if_pos hone, hone]
          exact .plus
        · rw [if_neg hone]
          simpa only [numberOfDigits_toDigits] using QuantifierForm.atLeast hmin
  | some m =>
      have hm := isNumeral_toDigits m
      rw [quantifierChars]
      by_cases hoptional : min = 0 ∧ m = 1
      · rw [if_pos hoptional, hoptional.1, hoptional.2]
        exact .optional
      · have honce : ¬ (min = 1 ∧ m = 1) := by simpa using h
        rw [if_neg hoptional, if_neg honce]
        by_cases heq : min = m
        · subst heq
          rw [if_pos rfl]
          simpa only [numberOfDigits_toDigits] using QuantifierForm.exactly hmin
        · rw [if_neg heq]
          simpa only [numberOfDigits_toDigits] using QuantifierForm.between hmin hm

@[simp] theorem quantifierChars_once : quantifierChars 1 (some 1) = [] := by
  simp [quantifierChars]

/-! ## The tree of a printed text -/

mutual

/-- The nodes that the text of a node spells. -/
def Node.reread : Node → List Node
  | .literal c => [.literal c]
  | .oneOf items => [.oneOf items]
  | .endAnchor => [.endAnchor]
  | .group inner => [.group (Pattern.reread inner)]
  | .repetition min max body =>
      let atom := if Pattern.isAtom body then Pattern.reread body
        else [.group (Pattern.reread body)]
      if min = 1 ∧ max = some 1 then atom else [.repetition min max atom]
  | .alternation branches => [.alternation (Pattern.rereadEach branches)]

/-- The tree that the text of a tidy tree spells: with a group wherever printing writes
parentheses, and without repetitions of exactly once. -/
def Pattern.reread : List Node → List Node
  | [] => []
  | node :: rest => node.reread ++ Pattern.reread rest

/-- The branches that the texts of branches spell. -/
def Pattern.rereadEach : List (List Node) → List (List Node)
  | [] => []
  | branch :: rest => Pattern.reread branch :: Pattern.rereadEach rest

end

section Printed

variable {siblings : Bool} {n : Node} {p : Pattern}

/-- Only an alternation is printed differently beside siblings. -/
theorem Node.Shaped.chars_eq {tidy : Bool} (h : n.Shaped tidy true) :
    n.chars siblings = n.chars true := by
  cases n with
  | alternation bs => simp [Node.Shaped] at h
  | literal c => simp only [Node.chars]
  | endAnchor => simp only [Node.chars]
  | oneOf items => simp only [Node.chars]
  | repetition min max body => simp only [Node.chars]
  | group inner => simp only [Node.chars]

theorem Pattern.Plain.charsAmong_eq {tidy : Bool} (h : Pattern.Plain tidy p) :
    Pattern.charsAmong siblings p = Pattern.charsAmong true p := by
  induction p with
  | nil => simp [Pattern.charsAmong]
  | cons n p ih =>
      rw [Pattern.Plain, Pattern.shapedAmong_cons] at h
      rw [Pattern.charsAmong, Pattern.charsAmong, ih h.2, h.1.chars_eq]

theorem SequenceSpelled.pattern {s : List Char} (h : SequenceSpelled p s) : PatternSpelled p s :=
  PatternSpelled.ofBranches (.single h)

theorem ItemSpelled.sequence {s : List Char} (h : ItemSpelled n s) : SequenceSpelled [n] s := by
  simpa using SequenceSpelled.cons h .nil not_startsQuantifier_nil

end Printed

/-- What the text of a node among siblings spells: one item, and an atom where printing takes
it for one. -/
structure RereadsAs (n m : Node) : Prop where
  reread : n.reread = [m]
  item : ItemSpelled m (n.chars true)
  begins : ∃ c t, n.chars true = c :: t ∧ BeginsItem c
  atom : Pattern.isAtom [n] = true → AtomSpelled m (n.chars true) ∧ m ≠ .endAnchor

theorem RereadsAs.of_atom {n m : Node} (hreread : n.reread = [m])
    (hbegins : ∃ c t, n.chars true = c :: t ∧ BeginsItem c)
    (hatom : AtomSpelled m (n.chars true)) (hanchor : Pattern.isAtom [n] = true → m ≠ .endAnchor) :
    RereadsAs n m :=
  ⟨hreread, .once hatom, hbegins, fun h => ⟨hatom, hanchor h⟩⟩

theorem rereadsAs_literal (c : Char) : RereadsAs (.literal c) (.literal c) := by
  obtain ⟨hspelled, hbegins⟩ := spelled_literalChars c
  refine .of_atom ?_ ?_ ?_ fun _ => by simp
  · rw [Node.reread]
  · simpa only [Node.chars] using hbegins
  · simpa only [Node.chars] using hspelled

theorem rereadsAs_oneOf {items : List ClassItem} (h : (Node.oneOf items).Shaped true true) :
    RereadsAs (.oneOf items) (.oneOf items) := by
  rw [Node.Shaped] at h
  refine .of_atom ?_ ⟨'[', items.flatMap ClassItem.chars ++ [']'], ?_, ?_⟩ ?_ fun _ => by simp
  · rw [Node.reread]
  · rw [Node.chars, classChars, cons_append]
  · simp [BeginsItem]
  · rw [Node.chars]
    exact spelled_classChars_oneOf h.1 h.2

theorem rereadsAs_endAnchor : RereadsAs .endAnchor .endAnchor := by
  refine .of_atom ?_ ⟨'$', [], ?_, ?_⟩ ?_ ?_
  · rw [Node.reread]
  · rw [Node.chars]
  · simp [BeginsItem]
  · rw [Node.chars]
    exact .endAnchor
  · simp [Pattern.isAtom]

theorem rereadsAs_group {inner : Pattern}
    (h : PatternSpelled (Pattern.reread inner) (Pattern.chars inner)) :
    RereadsAs (.group inner) (.group (Pattern.reread inner)) := by
  refine .of_atom ?_ ⟨'(', Pattern.chars inner ++ [')'], ?_, ?_⟩ ?_ fun _ => by simp
  · rw [Node.reread]
  · rw [Node.chars, cons_append, Pattern.chars]
  · simp [BeginsItem]
  · rw [Node.chars]
    exact .group h

/-- A repetition spells a repetition of the atom that its body is printed as, unless it is
exactly once. -/
theorem rereadsAs_repetition {min : Nat} {max : Option Nat} {n m : Node}
    (hallowed : Bounds.Allowed (min, max)) (hbody : RereadsAs n m) (hplain : Pattern.Plain true [n]) :
    ∃ m, RereadsAs (.repetition min max [n]) m := by
  have hinner : Pattern.charsAmong (Pattern.hasSiblings [n]) [n] = n.chars true := by
    rw [hplain.charsAmong_eq]
    simp [Pattern.charsAmong]
  -- the atom under the quantifier, with its parentheses
  obtain ⟨a, atom, hchars, hatom, hanchor, hnodes, hbegins⟩ : ∃ (a : List Char) (atom : Node),
      (Node.repetition min max [n]).chars true = a ++ quantifierChars min max ∧
      AtomSpelled atom a ∧ atom ≠ .endAnchor ∧
      (if Pattern.isAtom [n] then Pattern.reread [n] else [.group (Pattern.reread [n])]) = [atom] ∧
      ∃ c t, a = c :: t ∧ BeginsItem c := by
    rw [Node.chars, hinner]
    by_cases hatom : Pattern.isAtom [n] = true
    · obtain ⟨hspelled, hanchor⟩ := hbody.atom hatom
      refine ⟨n.chars true, m, ?_, hspelled, hanchor, ?_, hbody.begins⟩
      · simp [hatom]
      · simp [hatom, Pattern.reread, hbody.reread]
    · refine ⟨'(' :: n.chars true ++ [')'], .group [m], ?_, .group hbody.item.sequence.pattern,
        by simp, ?_, '(', _, rfl, by simp [BeginsItem]⟩
      · simp [hatom]
      · simp [hatom, Pattern.reread, hbody.reread]
  by_cases honce : min = 1 ∧ max = some 1
  · obtain ⟨rfl, rfl⟩ := honce
    rw [quantifierChars_once, append_nil] at hchars
    refine ⟨atom, .of_atom ?_ ?_ ?_ fun _ => hanchor⟩
    · rw [Node.reread, hnodes]
      simp
    · rw [hchars]
      exact hbegins
    · rw [hchars]
      exact hatom
  · obtain ⟨c, t, rfl, hc⟩ := hbegins
    refine ⟨.repetition min max [atom], ?_, ?_, ⟨c, _, by rw [hchars, cons_append], hc⟩, ?_⟩
    · rw [Node.reread, hnodes]
      simp [honce]
    · rw [hchars]
      exact .repeated hatom hanchor (form_quantifierChars honce) hallowed
    · simp [Pattern.isAtom]

/-- What is one item among siblings spells the same item alone; an alternation is none. -/
theorem spelled_reread_of_rereadsAs {n : Node} (hn : ∀ bs, n ≠ .alternation bs)
    (hitem : n.Shaped true true → ∃ m, RereadsAs n m) :
    (n.Shaped true true → ∃ m, RereadsAs n m) ∧
      (n.Shaped true false → PatternSpelled n.reread (n.chars false)) := by
  refine ⟨hitem, ?_⟩
  intro h
  have hamong := h.among hn
  obtain ⟨m, hm⟩ := hitem hamong
  rw [hm.reread, hamong.chars_eq]
  exact hm.item.sequence.pattern

mutual

theorem Node.spelled_reread : ∀ n : Node,
    (n.Shaped true true → ∃ m, RereadsAs n m) ∧
      (n.Shaped true false → PatternSpelled n.reread (n.chars false))
  | .literal c => spelled_reread_of_rereadsAs (by simp) fun _ => ⟨_, rereadsAs_literal c⟩
  | .oneOf items => spelled_reread_of_rereadsAs (by simp) fun h => ⟨_, rereadsAs_oneOf h⟩
  | .endAnchor => spelled_reread_of_rereadsAs (by simp) fun _ => ⟨_, rereadsAs_endAnchor⟩
  | .group inner => by
      refine spelled_reread_of_rereadsAs (by simp) ?_
      intro h
      rw [Node.Shaped] at h
      exact ⟨_, rereadsAs_group ((Pattern.spelled_rereadAmong inner).2 h)⟩
  | .repetition min max body => by
      refine spelled_reread_of_rereadsAs (by simp) ?_
      intro h
      rw [Node.Shaped] at h
      obtain ⟨⟨hallowed, hone⟩, hbody⟩ := h
      obtain ⟨n, hn⟩ := length_eq_one_iff.1 hone
      obtain ⟨m, hm⟩ := ((Pattern.spelled_rereadAmong body).1 hbody).2.2 n hn
      subst hn
      exact rereadsAs_repetition hallowed hm hbody
  | .alternation branches => by
      constructor
      · intro h
        simp [Node.Shaped] at h
      · intro h
        rw [Node.Shaped] at h
        obtain ⟨⟨-, hseveral⟩, hbranches⟩ := h
        have hspelled := Pattern.spelled_rereadEach branches hbranches
        have hlong := hseveral rfl
        rw [Node.reread, Node.chars]
        rcases branches with _ | ⟨b, _ | ⟨b', bs⟩⟩
        · simp at hlong
        · simp at hlong
        · simpa [Pattern.rereadEach, Pattern.ofBranches] using
            PatternSpelled.ofBranches (hspelled (cons_ne_nil _ _))

theorem Pattern.spelled_rereadAmong : ∀ p : List Node,
    (Pattern.Plain true p → SequenceSpelled (Pattern.reread p) (Pattern.charsAmong true p) ∧
      ¬ StartsQuantifier (Pattern.charsAmong true p) ∧ ∀ n, p = [n] → ∃ m, RereadsAs n m) ∧
    (Pattern.Shaped true p → PatternSpelled (Pattern.reread p) (Pattern.chars p))
  | [] => by
      have hnil : SequenceSpelled (Pattern.reread []) (Pattern.charsAmong true []) := by
        rw [Pattern.reread, Pattern.charsAmong]
        exact .nil
      refine ⟨fun _ => ⟨hnil, not_startsQuantifier_nil, by simp⟩, fun _ => ?_⟩
      exact hnil.pattern
  | n :: p => by
      have hplain : Pattern.Plain true (n :: p) →
          SequenceSpelled (Pattern.reread (n :: p)) (Pattern.charsAmong true (n :: p)) ∧
          ¬ StartsQuantifier (Pattern.charsAmong true (n :: p)) ∧
          ∀ k, n :: p = [k] → ∃ m, RereadsAs k m := by
        intro h
        rw [Pattern.Plain, Pattern.shapedAmong_cons] at h
        obtain ⟨m, hm⟩ := n.spelled_reread.1 h.1
        obtain ⟨hrest, hbehind, -⟩ := (Pattern.spelled_rereadAmong p).1 h.2
        refine ⟨?_, ?_, ?_⟩
        · rw [Pattern.reread, Pattern.charsAmong, hm.reread]
          exact .cons hm.item hrest hbehind
        · obtain ⟨c, t, hchars, hc⟩ := hm.begins
          rw [Pattern.charsAmong, hchars]
          exact hc.not_startsQuantifier
        · intro k hk
          obtain ⟨rfl, -⟩ : n = k ∧ p = [] := by simpa using hk
          exact ⟨m, hm⟩
      refine ⟨hplain, fun h => ?_⟩
      cases p with
      | nil =>
          rw [Pattern.chars_singleton, Pattern.reread, Pattern.reread, append_nil]
          exact n.spelled_reread.2 (Pattern.shaped_singleton.1 h)
      | cons m p =>
          have hsiblings : Pattern.hasSiblings (n :: m :: p) = true := by
            simp [Pattern.hasSiblings]
          rw [Pattern.Shaped, hsiblings] at h
          rw [Pattern.chars, hsiblings]
          exact (hplain h).1.pattern

theorem Pattern.spelled_rereadEach : ∀ bs : List (List Node), Pattern.ShapedEach true bs →
    bs ≠ [] → BranchesSpelled (Pattern.rereadEach bs) (Pattern.branchChars bs)
  | [], _, hne => absurd rfl hne
  | [b], h, _ => by
      rw [Pattern.ShapedEach] at h
      have hb : Pattern.Plain true b := h.1
      rw [Pattern.rereadEach, Pattern.rereadEach, Pattern.branchChars, hb.charsAmong_eq]
      exact .single ((Pattern.spelled_rereadAmong b).1 hb).1
  | b :: b' :: bs, h, _ => by
      rw [Pattern.ShapedEach] at h
      have hb : Pattern.Plain true b := h.1
      have hmore := Pattern.spelled_rereadEach (b' :: bs) h.2 (cons_ne_nil _ _)
      rw [Pattern.rereadEach, Pattern.branchChars, hb.charsAmong_eq]
      exact .cons ((Pattern.spelled_rereadAmong b).1 hb).1 hmore

end

/-- The text of a tidy tree spells the reread tree. -/
theorem Pattern.spelled_reread {p : Pattern} (h : Pattern.Shaped true p) :
    PatternSpelled (Pattern.reread p) (Pattern.chars p) :=
  (Pattern.spelled_rereadAmong p).2 h

end Guided
