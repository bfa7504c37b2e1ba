import Guided.Proofs.Pattern.Rereading

/-!
# Printing and reading

A pattern that has been read, and every residual of one, is read again from its text unless
the text is too long or its parentheses are nested too deep. Reading may give back another
tree, but one that prints to the same text and simplifies to the same tree. So the text of
a simplified pattern determines it, and comparing texts is comparing simplified trees.

## Main definitions

* `parenNesting`: how deep the parentheses of a pattern text are nested.

## Main statements

* `Pattern.parenNesting_chars`: printed parentheses are the groups of the reread tree.
* `Regex.parse_text_of_residual`: texts of residuals are read again.
* `Regex.comparePattern_eq`: what comparing patterns decides, and what follows from it.
-/
namespace Guided

open List

/-! ## Parentheses -/

/-- A place in a pattern text: whether a backslash stands before it, whether it is inside a
class, how many parentheses are open there, and how many have been at most. -/
structure ParenScan where
  escaped : Bool
  inClass : Bool
  opened : Nat
  deepest : Nat

/-- The place behind a character. Escaped characters and those of a class are no
parentheses. -/
def ParenScan.step (place : ParenScan) (c : Char) : ParenScan :=
  if place.escaped then { place with escaped := false }
  else if c = '\\' then { place with escaped := true }
  else if place.inClass then { place with inClass := c != ']' }
  else if c = '[' then { place with inClass := true }
  else if c = '(' then
    { place with opened := place.opened + 1, deepest := max place.deepest (place.opened + 1) }
  else if c = ')' then { place with opened := place.opened - 1 }
  else place

/-- How deep the parentheses of a pattern text are nested. -/
def parenNesting (s : List Char) : Nat := (s.foldl ParenScan.step ⟨false, false, 0, 0⟩).deepest

/-- A text closes all parentheses, classes and escapes that it opens, and nests the
parentheses as deep as is said. -/
def Nests (s : List Char) (depth : Nat) : Prop :=
  ∀ opened deepest, opened ≤ deepest →
    s.foldl ParenScan.step ⟨false, false, opened, deepest⟩ =
      ⟨false, false, opened, max deepest (opened + depth)⟩

section Nests

variable {s t : List Char} {j k : Nat}

theorem Nests.append (hs : Nests s j) (ht : Nests t k) : Nests (s ++ t) (max j k) := by
  intro opened deepest hle
  have hdeeper : opened ≤ max deepest (opened + j) := Nat.le_trans hle (Nat.le_max_left _ _)
  have hmax : max (max deepest (opened + j)) (opened + k) =
      max deepest (opened + max j k) := by
    omega
  rw [foldl_append, hs opened deepest hle, ht _ _ hdeeper, hmax]

theorem Nests.parens (hs : Nests s k) : Nests ('(' :: s ++ [')']) (k + 1) := by
  intro opened deepest hle
  have hdeeper : opened + 1 ≤ max deepest (opened + 1) := Nat.le_max_right _ _
  have hmax : max (max deepest (opened + 1)) (opened + 1 + k) =
      max deepest (opened + (k + 1)) := by
    omega
  have hopen : ParenScan.step ⟨false, false, opened, deepest⟩ '(' =
      ⟨false, false, opened + 1, max deepest (opened + 1)⟩ := by
    simp [ParenScan.step]
  rw [cons_append, foldl_cons, hopen, foldl_append, hs _ _ hdeeper, hmax]
  simp [ParenScan.step]

/-- A text that stays at the same place nests nothing. -/
theorem Nests.of_foldl_eq (h : ∀ opened deepest,
    s.foldl ParenScan.step ⟨false, false, opened, deepest⟩ = ⟨false, false, opened, deepest⟩) :
    Nests s 0 := by
  intro opened deepest hle
  have hmax : max deepest (opened + 0) = deepest := Nat.max_eq_left hle
  rw [h, hmax]

/-- Characters that open and close nothing. -/
theorem Nests.of_forall (h : ∀ c ∈ s, c ∉ ['\\', '[', '(', ')']) : Nests s 0 := by
  apply Nests.of_foldl_eq
  intro opened deepest
  induction s with
  | nil => rfl
  | cons c s ih =>
      rw [forall_mem_cons] at h
      have hc : c ≠ '\\' ∧ c ≠ '[' ∧ c ≠ '(' ∧ c ≠ ')' := by simpa using h.1
      have hstep : ParenScan.step ⟨false, false, opened, deepest⟩ c =
          ⟨false, false, opened, deepest⟩ := by
        simp [ParenScan.step, hc]
      rw [foldl_cons, hstep, ih h.2]

end Nests

theorem nests_literalChars (c : Char) : Nests (escapedChars isMeta c) 0 := by
  rcases escapedChars_cases isAlphanum_of_isMeta c with ⟨l, hl, -⟩ | ⟨hc, hmeta⟩
  · rw [hl]
    apply Nests.of_foldl_eq
    intro opened deepest
    simp [ParenScan.step]
  · rw [hc]
    apply Nests.of_forall
    simp only [isMeta, List.contains_eq_mem, decide_eq_false_iff_not, mem_cons, not_or] at hmeta
    simp [hmeta]

/-- Inside a class, a printed item leaves the class open. -/
theorem foldl_itemChars (item : ClassItem) (opened deepest : Nat) :
    item.chars.foldl ParenScan.step ⟨false, true, opened, deepest⟩ =
      ⟨false, true, opened, deepest⟩ := by
  have hchar : ∀ c, (escapedChars isClassMeta c).foldl ParenScan.step
      ⟨false, true, opened, deepest⟩ = ⟨false, true, opened, deepest⟩ := by
    intro c
    rcases escapedChars_cases isAlphanum_of_isClassMeta c with ⟨l, hl, -⟩ | ⟨hc, hmeta⟩
    · rw [hl]
      simp [ParenScan.step]
    · rw [hc]
      simp only [isClassMeta, List.contains_eq_mem, decide_eq_false_iff_not, mem_cons,
        not_or] at hmeta
      simp [ParenScan.step, hmeta]
  cases item with
  | single c => exact hchar c
  | range low high =>
      have hhyphen : ParenScan.step ⟨false, true, opened, deepest⟩ '-' =
          ⟨false, true, opened, deepest⟩ := by
        simp [ParenScan.step]
      rw [ClassItem.chars, foldl_append, hchar, foldl_cons, hhyphen, hchar]

theorem nests_classChars (items : List ClassItem) : Nests (classChars items) 0 := by
  apply Nests.of_foldl_eq
  intro opened deepest
  have hopen : ParenScan.step ⟨false, false, opened, deepest⟩ '[' =
      ⟨false, true, opened, deepest⟩ := by
    simp [ParenScan.step]
  have hitems : (items.flatMap ClassItem.chars).foldl ParenScan.step
      ⟨false, true, opened, deepest⟩ = ⟨false, true, opened, deepest⟩ := by
    induction items with
    | nil => rfl
    | cons item items ih => rw [flatMap_cons, foldl_append, foldl_itemChars, ih]
  rw [classChars, cons_append, foldl_cons, hopen, foldl_append, hitems]
  simp [ParenScan.step]

theorem nests_quantifierChars (min : Nat) (max : Option Nat) :
    Nests (quantifierChars min max) 0 := by
  by_cases honce : min = 1 ∧ max = some 1
  · rw [honce.1, honce.2, quantifierChars_once]
    exact .of_forall (by simp)
  · apply Nests.of_forall
    intro c hc hspecial
    have hin := (form_quantifierChars honce).forall_mem c hc
    have hout : ∀ d ∈ ['\\', '[', '(', ')'], inQuantifier d = false := by
      simp [inQuantifier]
    simp [hout c hspecial] at hin

mutual

theorem Node.nests_chars : ∀ (n : Node) {siblings : Bool}, n.Shaped true siblings →
    Nests (n.chars siblings) (Pattern.groupDepth n.reread)
  | .literal c, _, _ => by
      rw [Node.chars, Node.reread, Pattern.groupDepth_singleton, Node.groupDepth]
      exact nests_literalChars c
  | .oneOf items, _, _ => by
      rw [Node.chars, Node.reread, Pattern.groupDepth_singleton, Node.groupDepth]
      exact nests_classChars items
  | .endAnchor, _, _ => by
      rw [Node.chars, Node.reread, Pattern.groupDepth_singleton, Node.groupDepth]
      exact .of_forall (by simp)
  | .group inner, _, h => by
      rw [Node.Shaped] at h
      rw [Node.chars, Node.reread, Pattern.groupDepth_singleton, Node.groupDepth]
      exact (Pattern.nests_charsAmong inner h).parens
  | .repetition min max body, _, h => by
      rw [Node.Shaped] at h
      have hbody : Pattern.Plain true body := h.2
      have hatom : Nests (if Pattern.isAtom body then Pattern.charsAmong true body
          else '(' :: Pattern.charsAmong true body ++ [')'])
          (Pattern.groupDepth (if Pattern.isAtom body then Pattern.reread body
            else [.group (Pattern.reread body)])) := by
        split
        · exact Pattern.nests_charsAmong body hbody
        · rw [Pattern.groupDepth_singleton, Node.groupDepth]
          exact (Pattern.nests_charsAmong body hbody).parens
      have hquantified := hatom.append (nests_quantifierChars min max)
      rw [Nat.max_zero] at hquantified
      have hdepth : Pattern.groupDepth (Node.repetition min max body).reread =
          Pattern.groupDepth (if Pattern.isAtom body then Pattern.reread body
            else [.group (Pattern.reread body)]) := by
        rw [Node.reread]
        by_cases honce : min = 1 ∧ max = some 1
        · rw [if_pos honce]
        · rw [if_neg honce, Pattern.groupDepth_singleton, Node.groupDepth]
      rw [Node.chars, hbody.charsAmong_eq, hdepth]
      exact hquantified
  | .alternation branches, _, h => by
      rw [Node.Shaped] at h
      obtain ⟨⟨rfl, -⟩, hbranches⟩ := h
      rw [Node.chars, Node.reread, Pattern.groupDepth_singleton, Node.groupDepth]
      exact Pattern.nests_branchChars branches hbranches

theorem Pattern.nests_charsAmong : ∀ (p : List Node) {siblings : Bool},
    Pattern.ShapedAmong true siblings p →
    Nests (Pattern.charsAmong siblings p) (Pattern.groupDepth (Pattern.reread p))
  | [], _, _ => by
      rw [Pattern.charsAmong, Pattern.reread, Pattern.groupDepth]
      exact .of_forall (by simp)
  | n :: p, _, h => by
      rw [Pattern.shapedAmong_cons] at h
      rw [Pattern.charsAmong, Pattern.reread, Pattern.groupDepth_append]
      exact (n.nests_chars h.1).append (Pattern.nests_charsAmong p h.2)

theorem Pattern.nests_branchChars : ∀ bs : List (List Node), Pattern.ShapedEach true bs →
    Nests (Pattern.branchChars bs) (Pattern.groupDepthOfAny (Pattern.rereadEach bs))
  | [], _ => by
      rw [Pattern.branchChars, Pattern.rereadEach, Pattern.groupDepthOfAny]
      exact .of_forall (by simp)
  | [b], h => by
      rw [Pattern.ShapedEach] at h
      have hb : Pattern.Plain true b := h.1
      rw [Pattern.branchChars, Pattern.rereadEach, Pattern.rereadEach, Pattern.groupDepthOfAny,
        Pattern.groupDepthOfAny, Nat.max_zero]
      exact Pattern.nests_charsAmong b hb.among
  | b :: b' :: bs, h => by
      rw [Pattern.ShapedEach] at h
      have hb : Pattern.Plain true b := h.1
      have hmore := Pattern.nests_branchChars (b' :: bs) h.2
      have hbar : Nests ['|'] 0 := .of_forall (by simp)
      have hbehind := hbar.append hmore
      rw [Nat.zero_max] at hbehind
      rw [Pattern.branchChars, Pattern.rereadEach, Pattern.groupDepthOfAny]
      exact (Pattern.nests_charsAmong b hb.among).append hbehind

end

/-- The parentheses of a printed tidy tree are the groups of the tree that its text spells. -/
theorem Pattern.parenNesting_chars {p : Pattern} (h : Pattern.Shaped true p) :
    parenNesting (Pattern.chars p) = Pattern.groupDepth (Pattern.reread p) := by
  have hscan := Pattern.nests_charsAmong p h 0 0 (Nat.le_refl 0)
  rw [parenNesting, Pattern.chars, hscan]
  simp

/-! ## Reading a printed pattern -/

/-- The text of a tidy tree that is not too long and not nested too deep is read again. -/
theorem Pattern.parse_text_of_shaped {p : Pattern} (h : Pattern.Shaped true p)
    (hlength : (Pattern.text p).length ≤ maxPatternLength)
    (hdepth : parenNesting (Pattern.text p).toList ≤ maxGroupDepth) :
    Pattern.parse (Pattern.text p) = .ok (Pattern.reread p) := by
  have htext : (Pattern.text p).toList = Pattern.chars p := by simp [Pattern.text]
  rw [htext, Pattern.parenNesting_chars h] at hdepth
  rw [← String.length_toList, htext] at hlength
  rw [Pattern.parse_eq_ok_iff, htext]
  exact Pattern.ofChars_of_spelled (Pattern.spelled_reread h) hlength hdepth

/-- **Texts are read again.** The text of a pattern that has been read, or of a residual of
it, is itself read unless it is too long or nested too deep; the tree then prints to the
same text and simplifies to the same tree. -/
theorem Regex.parse_text_of_residual {source u : String} {r : Regex} {q : Pattern}
    (h : Regex.parse source = .ok r) (hq : q = r.pattern ∨ r.residual u = some q)
    (hlength : (Pattern.text q).length ≤ maxPatternLength)
    (hdepth : parenNesting (Pattern.text q).toList ≤ maxGroupDepth) :
    ∃ q', Pattern.parse (Pattern.text q) = .ok q' ∧ Pattern.text q' = Pattern.text q ∧
      Pattern.simplify q' = Pattern.simplify q := by
  have hshaped : Pattern.Shaped true q := by
    have hr := Regex.shaped_of_parse h
    rcases hq with rfl | hq
    · exact hr
    · exact Pattern.shaped_of_residual hr hq
  refine ⟨Pattern.reread q, Pattern.parse_text_of_shaped hshaped hlength hdepth, ?_, ?_⟩
  · rw [Pattern.text, Pattern.chars_reread hshaped, Pattern.text]
  · exact Pattern.simplify_reread hshaped

/-- Three rounds of any number of `a`. -/
def starredRounds : Regex :=
  ⟨"(a*)\x7b3\x7d", [.repetition 3 (some 3) [.group [.repetition 0 none [.literal 'a']]]]⟩

/-- What is left of it after an `a`; it prints with parentheses that are no group. -/
def starredRest : Pattern :=
  [.repetition 0 none [.literal 'a'],
    .repetition 2 (some 2) [.repetition 0 none [.literal 'a']]]

theorem Regex.parse_text_starredRest :
    Regex.parse starredRounds.source = .ok starredRounds ∧
    starredRounds.residual "a" = some starredRest ∧
    (Pattern.text starredRest).length ≤ maxPatternLength ∧
    parenNesting (Pattern.text starredRest).toList ≤ maxGroupDepth ∧
    ∃ q', Pattern.parse (Pattern.text starredRest) = .ok q' ∧
      Pattern.text q' = Pattern.text starredRest ∧
      Pattern.simplify q' = Pattern.simplify starredRest := by
  have hparse : Regex.parse starredRounds.source = .ok starredRounds := by rfl
  have hrest : starredRounds.residual "a" = some starredRest := by decide +kernel
  have hlength : (Pattern.text starredRest).length ≤ maxPatternLength := by decide +kernel
  have hdepth : parenNesting (Pattern.text starredRest).toList ≤ maxGroupDepth := by
    decide +kernel
  exact ⟨hparse, hrest, hlength, hdepth,
    Regex.parse_text_of_residual hparse (.inr hrest) hlength hdepth⟩

/-! ## Comparing patterns -/

/-- Tidy trees that print alike simplify alike. -/
theorem Pattern.simplify_eq_of_text_eq {p q : Pattern} (hp : Pattern.Shaped true p)
    (hq : Pattern.Shaped true q) (h : Pattern.text p = Pattern.text q) :
    Pattern.simplify p = Pattern.simplify q := by
  have hchars : Pattern.chars p = Pattern.chars q := String.ofList_injective h
  have hspelled := Pattern.spelled_reread hp
  rw [hchars] at hspelled
  have hreread : Pattern.reread p = Pattern.reread q := hspelled.unique (Pattern.spelled_reread hq)
  calc Pattern.simplify p
      = Pattern.simplify (Pattern.reread p) := (Pattern.simplify_reread hp).symm
    _ = Pattern.simplify (Pattern.reread q) := by rw [hreread]
    _ = Pattern.simplify q := Pattern.simplify_reread hq

/-- Simplified tidy trees are told apart by their texts. -/
theorem Pattern.text_simplify_eq_iff {p q : Pattern} (hp : Pattern.Shaped true p)
    (hq : Pattern.Shaped true q) :
    Pattern.text (Pattern.simplify p) = Pattern.text (Pattern.simplify q) ↔
      Pattern.simplify p = Pattern.simplify q := by
  have hp' := Pattern.shaped_simplify (Pattern.loose_of_tidy p hp)
  have hq' := Pattern.shaped_simplify (Pattern.loose_of_tidy q hq)
  constructor
  · intro htext
    simpa using Pattern.simplify_eq_of_text_eq hp' hq' htext
  · exact congrArg Pattern.text

/-- **What comparing patterns decides.** Two texts that are read are compared as their
simplified trees; where these are equal, both match the same texts. -/
theorem Regex.comparePattern_eq {a b : String} {r q : Regex} (ha : Regex.parse a = .ok r)
    (hb : Regex.parse b = .ok q) :
    r.comparePattern b =
        .ok (decide (Pattern.simplify r.pattern = Pattern.simplify q.pattern)) ∧
      (r.comparePattern b = .ok true →
        ∀ text, Pattern.Accepts r.pattern text ↔ Pattern.Accepts q.pattern text) := by
  have hsame : r.comparePattern b =
      .ok (decide (Pattern.simplify r.pattern = Pattern.simplify q.pattern)) := by
    have htext := Pattern.text_simplify_eq_iff (Regex.shaped_of_parse ha) (Regex.shaped_of_parse hb)
    rw [Regex.comparePattern, hb]
    simp only [Except.map, Regex.canonical, Except.ok.injEq]
    rw [Bool.eq_iff_iff, beq_iff_eq, decide_eq_true_iff]
    exact htext
  refine ⟨hsame, fun htrue text => ?_⟩
  rw [hsame, Except.ok.injEq, decide_eq_true_iff] at htrue
  have hr := Pattern.matches_simplify_iff r.pattern (Regex.wellFormed_of_parse ha) text []
  have hq := Pattern.matches_simplify_iff q.pattern (Regex.wellFormed_of_parse hb) text []
  rw [Pattern.Accepts, Pattern.Accepts, ← hr, ← hq, htrue]

/-- Three letters, two of them in a group. -/
def groupedLetters : Regex :=
  ⟨"(a|b)|c", [.alternation [[.group [.alternation [[.literal 'a'], [.literal 'b']]]],
    [.literal 'c']]]⟩

/-- The same letters without the group. -/
def plainLetters : Regex :=
  ⟨"a|b|c", [.alternation [[.literal 'a'], [.literal 'b'], [.literal 'c']]]⟩

theorem Regex.comparePattern_letters :
    Regex.parse groupedLetters.source = .ok groupedLetters ∧
    Regex.parse plainLetters.source = .ok plainLetters ∧
    groupedLetters.comparePattern plainLetters.source = .ok true ∧
    ∀ text, Pattern.Accepts groupedLetters.pattern text ↔
      Pattern.Accepts plainLetters.pattern text := by
  have hgrouped : Regex.parse groupedLetters.source = .ok groupedLetters := by rfl
  have hplain : Regex.parse plainLetters.source = .ok plainLetters := by rfl
  obtain ⟨hcompare, haccepts⟩ := Regex.comparePattern_eq hgrouped hplain
  have hsame : Pattern.simplify groupedLetters.pattern = Pattern.simplify plainLetters.pattern := by
    decide +kernel
  rw [decide_eq_true hsame] at hcompare
  exact ⟨hgrouped, hplain, hcompare, haccepts hcompare⟩

end Guided
