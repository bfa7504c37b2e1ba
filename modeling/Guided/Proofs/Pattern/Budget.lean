import Guided.Proofs.Pattern.Extent
import Guided.Proofs.Pattern.Sharing

/-!
# A budget for automata

The parts of an automaton are rearranged before they are laid out: texts are joined, what
alternatives begin with is lifted out of them, and alternatives that are characters become a
class. A budget for a part bounds its size in both directions and does not grow when parts
are rearranged. So it can be read off the pattern: a fixed share for every character of its extent.

## Main definitions

* `AutomatonPart.budget`: the budget of a part.

## Main statements

* `AutomatonPart.bytes_le_budget`: parts keep to their budget.
* `Pattern.automatonBytes_le`: the size of an automaton, from the extent of the pattern.
-/
namespace Guided

open List

namespace AutomatonPart

mutual

/-- The budget of a part. A text has more than its states need, since each letter may become
a place in a tree of words; a class may be that of a single character. -/
def budget : AutomatonPart → Nat
  | .text s => 80 * Nat.max (utf8Length s) 1
  | .oneOf ranges => 256 + (ranges.map rangeBytes).sum
  | .anchor => 32
  | .capture part => 64 + part.budget
  | .repetition min max part => 72 + rounds min max * (40 + part.budget)
  | .sequence parts => budgetOfAll parts
  | .choice parts => 64 + 4 * parts.length + budgetOfAll parts

/-- The budget of parts one after the other. -/
def budgetOfAll : List AutomatonPart → Nat
  | [] => 0
  | part :: rest => part.budget + budgetOfAll rest

end

@[simp] theorem budgetOfAll_nil : budgetOfAll [] = 0 := by
  rw [budgetOfAll]

@[simp] theorem budgetOfAll_cons (part : AutomatonPart) (parts : List AutomatonPart) :
    budgetOfAll (part :: parts) = part.budget + budgetOfAll parts := by
  rw [budgetOfAll]

@[simp] theorem budgetOfAll_append (parts rest : List AutomatonPart) :
    budgetOfAll (parts ++ rest) = budgetOfAll parts + budgetOfAll rest := by
  induction parts with
  | nil => simp
  | cons part parts ih => simp [ih, Nat.add_assoc]

theorem sum_map_budget (n : Nat) (parts : List AutomatonPart) :
    (parts.map fun part => n + part.budget).sum = n * parts.length + budgetOfAll parts := by
  induction parts with
  | nil => simp
  | cons part parts ih =>
      rw [map_cons, sum_cons, ih, budgetOfAll_cons, length_cons, Nat.mul_succ]
      omega

/-! ## Keeping to the budget -/

/-- What all things are read as, each within bounds, is within bounds. -/
theorem sum_map_le_of_mapM {α β : Type} {read : α → Option β} {f : β → Nat} {g : α → Nat}
    (hread : ∀ a b, read a = some b → f b ≤ g a) {as : List α} {bs : List β}
    (h : as.mapM read = some bs) : (bs.map f).sum ≤ (as.map g).sum := by
  induction as generalizing bs with
  | nil =>
      obtain rfl : [] = bs := by simpa using h
      simp
  | cons a as ih =>
      rw [mapM_cons] at h
      obtain ⟨b, hb, h⟩ := Option.bind_eq_some_iff.1 h
      obtain ⟨rest, hrest, h⟩ := Option.bind_eq_some_iff.1 h
      obtain rfl : b :: rest = bs := by simpa using h
      exact Nat.add_le_add (hread a b hb) (ih hrest)

theorem word_le_budget (part : AutomatonPart) (word : List Char) (h : word? part = some word) :
    76 * utf8Length word + 4 ≤ 4 + part.budget := by
  unfold word? at h
  split at h
  · split at h
    · simp at h
    · rename_i s hs
      obtain rfl : s = word := by simpa using h
      have hle : utf8Length s ≤ Nat.max (utf8Length s) 1 := Nat.le_max_left _ _
      rw [budget]
      omega
  · simp at h

/-- Every round that is laid out has states of its own and at most one more fork. -/
theorem bytes_repetition_le (backward : Bool) (min : Nat) (max : Option Nat)
    (part : AutomatonPart) : (repetition min max part).bytes backward ≤
      72 + rounds min max * (40 + part.bytes backward) := by
  have hfork : forkBytes 2 = 40 := rfl
  have hone : 1 ≤ rounds min max := Nat.le_max_left _ _
  have hmin : min ≤ rounds min max := (Nat.le_max_left _ _).trans (Nat.le_max_right _ _)
  have hmany : ∀ {n m}, n ≤ rounds min max → m ≤ 40 + part.bytes backward →
      n * m ≤ rounds min max * (40 + part.bytes backward) :=
    fun hn hm => Nat.mul_le_mul hn hm
  have hround : part.bytes backward ≤ 40 + part.bytes backward := Nat.le_add_left _ _
  cases max with
  | none =>
      rw [bytes, hfork, stateBytes]
      split
      · have hlaid := hmany hone (Nat.le_refl _)
        omega
      · have hlaid := hmany (n := Nat.max min 1) (Nat.max_le.2 ⟨hmin, hone⟩) hround
        omega
  | some max =>
      have hmax : max ≤ rounds min (some max) :=
        (Nat.le_max_right _ _).trans (Nat.le_max_right _ _)
      have hlaid := hmany hone (Nat.le_refl _)
      have hleast := hmany hmin hround
      -- At least the lower and at most the upper bound: further rounds may be skipped.
      have hboth := hmany (n := min + (max - min)) (m := part.bytes backward + 40)
        (by omega) (by omega)
      have hskip : min * part.bytes backward ≤ min * (part.bytes backward + 40) :=
        Nat.mul_le_mul_left _ (Nat.le_add_right _ _)
      rw [Nat.add_mul] at hboth
      rw [bytes, hfork, stateBytes]
      split
      · omega
      · split
        · omega
        · split <;> omega

mutual

/-- The size of a part is within its budget. -/
theorem bytes_le_budget (backward : Bool) : ∀ part : AutomatonPart,
    part.bytes backward ≤ part.budget
  | .text s => by
      rw [bytes, budget, stateBytes]
      exact Nat.mul_le_mul_right _ (by decide)
  | .oneOf ranges => by
      have hclass := classBytes_le backward ranges
      rw [bytes, budget]
      omega
  | .anchor => by
      rw [bytes, budget, stateBytes]
  | .capture part => by
      have hpart := bytes_le_budget backward part
      rw [bytes, budget, stateBytes]
      split <;> omega
  | .repetition min max part => by
      have hround := bytes_le_budget backward part
      rw [budget]
      refine (bytes_repetition_le backward min max part).trans (Nat.add_le_add_left ?_ 72)
      exact Nat.mul_le_mul_left _ (Nat.add_le_add_left hround 40)
  | .sequence parts => by
      rw [bytes, budget]
      exact allBytes_le_budget backward parts
  | .choice parts => by
      have hparts := allBytes_le_budget backward parts
      rw [bytes, budget]
      split
      · rename_i words hwords
        have hbytes := wordsBytes_le backward words
        have hsum := sum_map_le_of_mapM word_le_budget hwords
        rw [sum_map_budget] at hsum
        omega
      · rw [stateBytes, forkBytes, stateBytes, jumpBytes]
        omega

theorem allBytes_le_budget (backward : Bool) : ∀ parts : List AutomatonPart,
    allBytes backward parts ≤ budgetOfAll parts
  | [] => by
      rw [allBytes, budgetOfAll]
  | part :: parts => by
      rw [allBytes, budgetOfAll]
      exact Nat.add_le_add (bytes_le_budget backward part) (allBytes_le_budget backward parts)

end

/-! ## Rearranging within the budget -/

theorem sum_rangeBytes_joinRange_le (range : Nat × Nat) (rest : List (Nat × Nat)) :
    ((joinRange range rest).map rangeBytes).sum ≤ rangeBytes range + (rest.map rangeBytes).sum := by
  induction rest generalizing range with
  | nil => simp [joinRange]
  | cons next rest ih =>
      rw [joinRange]
      split
      · have hjoined : rangeBytes (range.1, Nat.max range.2 next.2) ≤
            rangeBytes range + rangeBytes next := by
          have hmax : Nat.max range.2 next.2 = max range.2 next.2 := rfl
          rw [rangeBytes, rangeBytes, rangeBytes, hmax]
          omega
        have hrest := ih (range.1, Nat.max range.2 next.2)
        rw [map_cons, sum_cons]
        omega
      · simp

theorem sum_rangeBytes_canonicalRanges_le (ranges : List (Nat × Nat)) :
    ((canonicalRanges ranges).map rangeBytes).sum ≤ (ranges.map rangeBytes).sum := by
  have hjoined : ∀ sorted : List (Nat × Nat),
      ((sorted.foldr joinRange []).map rangeBytes).sum ≤ (sorted.map rangeBytes).sum := by
    intro sorted
    induction sorted with
    | nil => simp
    | cons range sorted ih =>
        have hrange := sum_rangeBytes_joinRange_le range (sorted.foldr joinRange [])
        rw [foldr_cons, map_cons, sum_cons]
        omega
  have hsorted := ((mergeSort_perm ranges fun a b => decide (a.1 ≤ b.1)).map rangeBytes).sum_nat
  rw [canonicalRanges, ← hsorted]
  exact hjoined _

theorem budget_ofRanges_le (ranges : List (Nat × Nat)) :
    (ofRanges ranges).budget ≤ 256 + (ranges.map rangeBytes).sum := by
  have hranges := sum_rangeBytes_canonicalRanges_le ranges
  rw [ofRanges]
  split
  · rename_i low high hone
    rw [hone] at hranges
    split
    · -- A single character needs at most four bytes.
      have hchar : utf8Length [Char.ofNat low] ≤ 4 := Char.utf8Size_le_four _
      have hlength : Nat.max (utf8Length [Char.ofNat low]) 1 ≤ 4 := Nat.max_le.2 ⟨hchar, by decide⟩
      have hrange : 160 ≤ rangeBytes (low, high) := by
        rw [rangeBytes]
        omega
      rw [map_singleton, sum_singleton] at hranges
      rw [budget]
      omega
    · rw [budget]
      omega
  · rw [budget]
    omega

theorem budgetOfAll_joinTexts_le (parts : List AutomatonPart) :
    budgetOfAll (joinTexts parts) ≤ budgetOfAll parts := by
  have hkeep : ∀ part rest, budgetOfAll (joinTexts rest) ≤ budgetOfAll rest →
      budgetOfAll (part :: joinTexts rest) ≤ budgetOfAll (part :: rest) := by
    intro part rest h
    rw [budgetOfAll_cons, budgetOfAll_cons]
    exact Nat.add_le_add_left h _
  induction parts with
  | nil => simp [joinTexts]
  | cons part parts ih =>
      cases part with
      | text s =>
          rw [joinTexts]
          split
          · rename_i t more hjoined
            have hlength : Nat.max (utf8Length (s ++ t)) 1 ≤
                Nat.max (utf8Length s) 1 + Nat.max (utf8Length t) 1 := by
              rw [utf8Length_append]
              simp only [Nat.max_def]
              split <;> split <;> split <;> omega
            rw [hjoined] at ih
            simp only [budgetOfAll_cons, budget] at ih ⊢
            omega
          · split
            · rw [budgetOfAll_cons]
              omega
            · exact hkeep _ _ ih
      | oneOf ranges => exact hkeep _ _ ih
      | anchor => exact hkeep _ _ ih
      | capture part => exact hkeep _ _ ih
      | repetition min max part => exact hkeep _ _ ih
      | sequence parts => exact hkeep _ _ ih
      | choice parts => exact hkeep _ _ ih

theorem budget_ofSequence_le (parts : List AutomatonPart) :
    (ofSequence parts).budget ≤ 80 + budgetOfAll parts := by
  have hspread : ∀ spread : AutomatonPart → List AutomatonPart,
      (∀ part, budgetOfAll (spread part) = part.budget) →
        budgetOfAll (joinTexts (parts.flatMap spread)) ≤ budgetOfAll parts := by
    intro spread h
    refine (budgetOfAll_joinTexts_le _).trans (Nat.le_of_eq ?_)
    induction parts with
    | nil => simp
    | cons part parts ih => rw [flatMap_cons, budgetOfAll_append, budgetOfAll_cons, h, ih]
  rw [ofSequence]
  generalize hjoined : joinTexts (parts.flatMap _) = joined
  have hle : budgetOfAll joined ≤ budgetOfAll parts := by
    rw [← hjoined]
    apply hspread
    intro part
    cases part <;> simp [budget]
  split
  · simp [budget]
  · rw [budgetOfAll_cons, budgetOfAll_nil] at hle
    omega
  · rw [budget]
    omega

theorem character_le_budget (part : AutomatonPart) (range : Nat × Nat)
    (h : character? part = some range) : rangeBytes range ≤ 84 + part.budget := by
  unfold character? at h
  split at h
  · rename_i c
    obtain rfl : (c.toNat, c.toNat) = range := by simpa using h
    have hlength : 1 ≤ Nat.max (utf8Length [c]) 1 := Nat.le_max_right _ _
    rw [budget, rangeBytes]
    omega
  · simp at h

theorem ranges_le_budget (part : AutomatonPart) (ranges : List (Nat × Nat))
    (h : ranges? part = some ranges) : (ranges.map rangeBytes).sum ≤ 84 + part.budget := by
  unfold ranges? at h
  split at h
  · rename_i own
    obtain rfl : own = ranges := by simpa using h
    rw [budget]
    omega
  · simp at h

theorem sequence_le_budget (part : AutomatonPart) (parts : List AutomatonPart)
    (h : sequence? part = some parts) : 164 + budgetOfAll parts ≤ 164 + part.budget := by
  unfold sequence? at h
  split at h
  · rename_i inner
    obtain rfl : inner = parts := by simpa using h
    rw [budget]
  · simp at h

theorem budget_ofAlternatives_le (parts : List AutomatonPart) :
    (ofAlternatives parts).budget ≤ 256 + (84 * parts.length + budgetOfAll parts) := by
  rw [ofAlternatives]
  split
  · rename_i ranges hcharacters
    have hsum := sum_map_le_of_mapM character_le_budget hcharacters
    have hranges := budget_ofRanges_le ranges
    rw [sum_map_budget] at hsum
    omega
  · split
    · rename_i ranges hclasses
      have hsum := sum_map_le_of_mapM ranges_le_budget hclasses
      have hranges := budget_ofRanges_le ranges.flatten
      rw [sum_map_budget] at hsum
      rw [map_flatten, sum_flatten, map_map] at hranges
      exact hranges.trans (Nat.add_le_add_left hsum 256)
    · rw [budget]
      omega

/-- What sequences begin with, and what is left of each of them behind it. -/
theorem budgetOfAll_lifted_le (common : Nat) (sequences : List (List AutomatonPart)) :
    budgetOfAll ((sequences.headD []).take common) +
        (84 * sequences.length +
          budgetOfAll (sequences.map fun parts => ofSequence (parts.drop common))) ≤
      (sequences.map fun parts => 164 + budgetOfAll parts).sum := by
  have hsplit : ∀ parts : List AutomatonPart,
      budgetOfAll (parts.take common) + budgetOfAll (parts.drop common) = budgetOfAll parts := by
    intro parts
    rw [← budgetOfAll_append, take_append_drop]
  have hleft : ∀ others : List (List AutomatonPart), 84 * others.length +
      budgetOfAll (others.map fun parts => ofSequence (parts.drop common)) ≤
        (others.map fun parts => 164 + budgetOfAll parts).sum := by
    intro others
    induction others with
    | nil => simp
    | cons parts others ih =>
        have hparts := budget_ofSequence_le (parts.drop common)
        have hpart := hsplit parts
        simp only [length_cons, map_cons, budgetOfAll_cons, sum_cons]
        omega
  cases sequences with
  | nil => simp
  | cons first others =>
      have hfirst := budget_ofSequence_le (first.drop common)
      have hwhole := hsplit first
      have hothers := hleft others
      simp only [headD_cons, length_cons, map_cons, budgetOfAll_cons, sum_cons]
      omega

theorem budget_ofChoice_le (parts : List AutomatonPart) :
    (ofChoice parts).budget ≤ 336 + (164 * parts.length + budgetOfAll parts) := by
  have halternatives := budget_ofAlternatives_le parts
  unfold ofChoice
  split
  · rw [budget]
    simp
  · simp
    omega
  · split
    · omega
    · rename_i sequences hsequences
      dsimp only
      split
      · rw [budget]
        omega
      · rw [budget]
        omega
      · rename_i common _ _
        have hsum := sum_map_le_of_mapM sequence_le_budget hsequences
        have hlifted := budgetOfAll_lifted_le common sequences
        have hleft := budget_ofAlternatives_le
          (sequences.map fun parts => ofSequence (parts.drop common))
        have hwhole := budget_ofSequence_le ((sequences.headD []).take common ++
          [ofAlternatives (sequences.map fun parts => ofSequence (parts.drop common))])
        rw [sum_map_budget] at hsum
        rw [length_map] at hleft
        rw [budgetOfAll_append, budgetOfAll_cons, budgetOfAll_nil] at hwhole
        omega

theorem budget_ofRepetition_le (min : Nat) (max : Option Nat) (part : AutomatonPart) :
    (ofRepetition min max part).budget ≤ 72 + rounds min max * (40 + part.budget) := by
  have hone : 1 ≤ rounds min max := Nat.le_max_left _ _
  have hlaid := Nat.mul_le_mul_right (40 + part.budget) hone
  unfold ofRepetition
  split
  rename_i least most hbounds
  have hrounds : rounds least most ≤ rounds min max := by
    split at hbounds
    · obtain ⟨rfl, rfl⟩ : Nat.min min 1 = least ∧ some (Nat.min (max.getD 1) 1) = most := by
        simpa using hbounds
      have hidle : rounds (Nat.min min 1) (some (Nat.min (max.getD 1) 1)) = 1 :=
        Nat.max_eq_left (Nat.max_le.2 ⟨Nat.min_le_right _ _, Nat.min_le_right _ _⟩)
      rw [hidle]
      exact hone
    · obtain ⟨rfl, rfl⟩ : min = least ∧ max = most := by simpa using hbounds
      exact Nat.le_refl _
  split
  · rw [budget]
    simp
    omega
  · split
    · omega
    · rw [budget]
      have hround := Nat.mul_le_mul_right (40 + part.budget) hrounds
      omega

end AutomatonPart

/-! ## The budget of a pattern -/

open AutomatonPart

theorem sum_rangeBytes_codePoints_le (items : List ClassItem) :
    ((items.map ClassItem.codePoints).map rangeBytes).sum ≤
      1024 * (items.map ClassItem.extent).sum := by
  have hitem : ∀ item : ClassItem, rangeBytes item.codePoints ≤ 1024 * item.extent := by
    intro item
    cases item with
    | single c =>
        simp only [ClassItem.codePoints, ClassItem.extent, rangeBytes]
        omega
    | range low high =>
        simp only [ClassItem.extent, rangeBytes]
        omega
  induction items with
  | nil => simp
  | cons item items ih =>
      have hfirst := hitem item
      simp only [map_cons, sum_cons]
      omega

theorem Pattern.length_branchParts (bs : List Pattern) :
    (Pattern.branchParts bs).length = bs.length := by
  induction bs with
  | nil => rfl
  | cons b bs ih => rw [Pattern.branchParts, length_cons, length_cons, ih]

mutual

/-- The part of a node has a budget for every character of it. -/
theorem Node.budget_automaton_le : ∀ (n : Node) (siblings : Bool), n.WellFormed →
    (n.automaton siblings).budget ≤ 1024 * n.extent
  | .literal c, _, _ => by
      have hsize : c.utf8Size ≤ 4 := Char.utf8Size_le_four c
      have hlength : Nat.max (utf8Length [c]) 1 ≤ 4 := Nat.max_le.2 ⟨hsize, by decide⟩
      rw [Node.automaton, budget, Node.extent]
      omega
  | .endAnchor, _, _ => by
      rw [Node.automaton, budget, Node.extent]
      decide
  | .oneOf items, _, _ => by
      have hclass := budget_ofRanges_le (items.map ClassItem.codePoints)
      have hitems := sum_rangeBytes_codePoints_le items
      rw [Node.automaton, Node.extent]
      omega
  | .repetition min max body, _, h => by
      rw [Node.WellFormed] at h
      have hbody := Pattern.budget_parts_le body (Pattern.hasSiblings body) h.2
      have hsequence := budget_ofSequence_le (Pattern.parts (Pattern.hasSiblings body) body)
      have hone : 72 * 1 ≤ 72 * rounds min max := Nat.mul_le_mul_left 72 (Nat.le_max_left _ _)
      rw [Node.automaton, Node.extent]
      generalize hround : (if Pattern.isAtom body then
        ofSequence (Pattern.parts (Pattern.hasSiblings body) body) else
        .capture (ofSequence (Pattern.parts (Pattern.hasSiblings body) body))) = round
      have hle : 40 + round.budget ≤ 184 + 1024 * Pattern.extent body := by
        rw [← hround]
        split
        · omega
        · rw [budget]
          omega
      calc (ofRepetition min max round).budget
          _ ≤ 72 + rounds min max * (40 + round.budget) := budget_ofRepetition_le min max round
          _ ≤ 72 + rounds min max * (184 + 1024 * Pattern.extent body) :=
            Nat.add_le_add_left (Nat.mul_le_mul_left _ hle) 72
          _ ≤ rounds min max * (256 + 1024 * Pattern.extent body) := by
            rw [Nat.mul_add, Nat.mul_add]
            omega
          _ ≤ rounds min max * (1024 * (1 + Pattern.extent body)) :=
            Nat.mul_le_mul_left _ (by omega)
          _ = 1024 * (rounds min max * (1 + Pattern.extent body)) := Nat.mul_left_comm _ _ _
  | .alternation branches, siblings, h => by
      rw [Node.WellFormed] at h
      have hsome := length_pos_iff.2 h.1
      have hbranches := Pattern.budget_branchParts_le branches h.2
      have hchoice := budget_ofChoice_le (Pattern.branchParts branches)
      rw [Pattern.length_branchParts] at hchoice
      rw [Node.automaton, Node.extent]
      split
      · rw [budget]
        omega
      · omega
  | .group inner, _, h => by
      rw [Node.WellFormed] at h
      have hinner := Pattern.budget_parts_le inner (Pattern.hasSiblings inner) h
      have hsequence := budget_ofSequence_le (Pattern.parts (Pattern.hasSiblings inner) inner)
      rw [Node.automaton, budget, Node.extent]
      omega

theorem Pattern.budget_parts_le : ∀ (p : List Node) (siblings : Bool), Pattern.WellFormed p →
    budgetOfAll (Pattern.parts siblings p) ≤ 1024 * Pattern.extent p
  | [], _, _ => by
      simp [Pattern.parts]
  | n :: p, siblings, h => by
      rw [Pattern.wellFormed_cons] at h
      have hnode := n.budget_automaton_le siblings h.1
      have hrest := Pattern.budget_parts_le p siblings h.2
      rw [Pattern.parts, budgetOfAll_cons, Pattern.extent]
      omega

/-- The bar of a branch pays for the way into it. -/
theorem Pattern.budget_branchParts_le : ∀ bs : List (List Node), Pattern.WellFormedEach bs →
    640 * bs.length + budgetOfAll (Pattern.branchParts bs) ≤ 1024 * Pattern.extentOfEach bs
  | [], _ => by
      simp [Pattern.branchParts]
  | b :: bs, h => by
      rw [Pattern.WellFormedEach] at h
      have hbranch := Pattern.budget_parts_le b (Pattern.hasSiblings b) h.1
      have hsequence := budget_ofSequence_le (Pattern.parts (Pattern.hasSiblings b) b)
      have hrest := Pattern.budget_branchParts_le bs h.2
      rw [Pattern.branchParts, budgetOfAll_cons, Pattern.extentOfEach, length_cons]
      omega

end

/-- An automaton has at most 1024 bytes for every character of its pattern, counts rolled
out, and some around it. -/
theorem Pattern.automatonBytes_le {p : Pattern} (h : Pattern.WellFormed p) :
    Pattern.automatonBytes p ≤ 272 + 1024 * Pattern.extent p := by
  have hparts := Pattern.budget_parts_le p (Pattern.hasSiblings p) h
  have hsequence := budget_ofSequence_le (Pattern.parts (Pattern.hasSiblings p) p)
  have hsize : ∀ backward, (Pattern.automaton p).bytes backward ≤ 80 + 1024 * Pattern.extent p := by
    intro backward
    have hbytes := bytes_le_budget backward (Pattern.automaton p)
    rw [Pattern.automaton] at hbytes ⊢
    omega
  have hforward := hsize false
  have hbackward := hsize true
  have haround : surroundingBytes false = 192 ∧ surroundingBytes true = 128 := by decide
  rw [Pattern.automatonBytes]
  exact Nat.max_le.2 ⟨by omega, by omega⟩

end Guided
