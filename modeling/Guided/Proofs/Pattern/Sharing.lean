import Guided.Pattern.AutomatonSize
import Guided.Proofs.Pattern.NormalForm
import Guided.Proofs.Text.Utf8
import Guided.Proofs.Text.Utf8Ranges
import Mathlib.Algebra.BigOperators.Group.List.Basic
import Mathlib.Algebra.BigOperators.Ring.List
import Mathlib.Algebra.Order.BigOperators.Group.List
import Mathlib.Algebra.Order.Group.Nat
import Mathlib.Algebra.Ring.Nat

/-!
# Automata that share beginnings

A class and a choice of texts are laid out as trees of what is left of their words behind
common beginnings. Every letter of every word is left behind at most once, so that such a
tree is never larger than its words.

## Main definitions

* `ongoing`: the words that are not empty.
* `rangeBytes`: what a range of a class is held to need.

## Main statements

* `sum_map_tailsAfter_le`: what is left behind the different first letters.
* `classBytes_le`: the size of a class, from its ranges.
* `wordsBytes_le`: the size of a choice of texts, from their lengths.
-/
namespace Guided

open List

theorem totalBytes_eq_sum (sizes : List Nat) : totalBytes sizes = sizes.sum :=
  sum_eq_foldl_nat.symm

/-! ## What is left behind first letters -/

section Words

variable {α : Type}

/-- The words that are not empty. -/
def ongoing (words : List (List α)) : List (List α) := words.filter fun word => !word.isEmpty

@[simp] theorem ongoing_nil : ongoing ([] : List (List α)) = [] := rfl

@[simp] theorem ongoing_cons_nil (words : List (List α)) : ongoing ([] :: words) = ongoing words :=
  rfl

@[simp] theorem ongoing_cons_cons (a : α) (word : List α) (words : List (List α)) :
    ongoing ((a :: word) :: words) = (a :: word) :: ongoing words := rfl

theorem sum_length_tail_ongoing (words : List (List α)) :
    ((ongoing words).map fun word => word.tail.length).sum + (ongoing words).length =
      (words.map length).sum := by
  induction words with
  | nil => rfl
  | cons word words ih =>
      cases word with
      | nil => simpa using ih
      | cons a word =>
          simp only [ongoing_cons_cons, map_cons, sum_cons, tail_cons, length_cons]
          omega

variable [BEq α]

theorem eraseDups_sublist (xs : List α) : xs.eraseDups <+ xs := by
  match xs with
  | [] => simp
  | x :: xs =>
      rw [eraseDups_cons]
      exact ((eraseDups_sublist _).trans filter_sublist).cons_cons x
termination_by xs.length
decreasing_by exact Nat.lt_succ_of_le (length_filter_le _ _)

theorem length_heads_le (words : List (List α)) :
    (heads words).length ≤ (ongoing words).length := by
  have hfirsts : (words.filterMap head?).length = (ongoing words).length := by
    induction words with
    | nil => rfl
    | cons word words ih =>
        cases word with
        | nil => simpa [filterMap_cons] using ih
        | cons a word => simpa [filterMap_cons] using ih
  rw [← hfirsts, heads]
  exact (eraseDups_sublist _).length_le

/-- Something is left at every place of a tree. -/
theorem ongoing_ne_nil_of_mem_sequenceTree {depth : Nat} {words rest : List (List α)}
    (h : rest ∈ sequenceTree depth words) : ongoing rest ≠ [] := by
  induction depth generalizing words with
  | zero => simp [sequenceTree] at h
  | succ depth ih =>
      rw [sequenceTree] at h
      split at h
      · simp at h
      · rename_i hleft
        rcases mem_cons.1 h with rfl | h
        · intro hnil
          apply hleft
          simpa [ongoing, filter_eq_nil_iff] using hnil
        · obtain ⟨letter, -, h⟩ := mem_flatMap.1 h
          exact ih h

variable [LawfulBEq α]

/-- Among different things at most one is a given one. -/
theorem sum_map_ite_beq_le {xs : List α} (h : xs.Nodup) (a : α) (n : Nat) :
    (xs.map fun x => if a == x then n else 0).sum ≤ n := by
  induction xs with
  | nil => simp
  | cons x xs ih =>
      rw [nodup_cons] at h
      rw [map_cons, sum_cons]
      by_cases hx : a == x
      · have hzero : ∀ k ∈ xs.map fun y => if a == y then n else 0, k = 0 := by
          intro k hk
          obtain ⟨y, hy, rfl⟩ := mem_map.1 hk
          have hay : (a == y) = false := by
            rw [beq_eq_false_iff_ne]
            rintro rfl
            exact h.1 (eq_of_beq hx ▸ hy)
          rw [hay]
          rfl
        rw [if_pos hx, eq_replicate_of_mem hzero, sum_replicate_nat]
        omega
      · rw [if_neg hx, Nat.zero_add]
        exact ih h.2

/-- Different first letters leave parts of different words. -/
theorem sum_map_tailsAfter_le (f : List α → Nat) {letters : List α} (h : letters.Nodup)
    (words : List (List α)) :
    (letters.map fun letter => ((tailsAfter letter words).map f).sum).sum ≤
      ((ongoing words).map fun word => f word.tail).sum := by
  induction words with
  | nil => simp [tailsAfter]
  | cons word words ih =>
      cases word with
      | nil => simpa [tailsAfter] using ih
      | cons a word =>
          have hstep : ∀ letter, ((tailsAfter letter ((a :: word) :: words)).map f).sum =
              (if a == letter then f word else 0) + ((tailsAfter letter words).map f).sum := by
            intro letter
            by_cases ha : a == letter
            · simp [tailsAfter, ha]
            · simp [tailsAfter, ha]
          have honce : (letters.map fun letter => if a == letter then f word else 0).sum ≤
              f word := sum_map_ite_beq_le h a (f word)
          simp only [hstep, sum_map_add, ongoing_cons_cons, map_cons, sum_cons, tail_cons]
          exact Nat.add_le_add honce ih

/-- At every place of a tree each word that goes on loses a letter. -/
theorem sum_length_ongoing_sequenceTree_le (depth : Nat) (words : List (List α)) :
    ((sequenceTree depth words).map fun rest => (ongoing rest).length).sum ≤
      (words.map length).sum := by
  induction depth generalizing words with
  | zero => simp [sequenceTree]
  | succ depth ih =>
      rw [sequenceTree]
      split
      · simp
      · have hrest : ((heads words).map fun letter =>
            ((sequenceTree depth (tailsAfter letter words)).map
              fun rest => (ongoing rest).length).sum).sum ≤
              ((heads words).map fun letter => ((tailsAfter letter words).map length).sum).sum :=
          sum_le_sum fun letter _ => ih _
        have hsplit := sum_map_tailsAfter_le length (nodup_eraseDups (words.filterMap head?)) words
        have htotal := sum_length_tail_ongoing words
        rw [heads] at hrest
        rw [map_cons, sum_cons, flatMap_def, map_flatten, sum_flatten, map_map, map_map, heads]
        simp only [Function.comp_def]
        omega

/-- Backward, the beginnings of the words are shared. -/
theorem sum_length_heads_sequenceTree_le (depth : Nat) (words : List (List α)) :
    ((sequenceTree depth words).map fun rest => (heads rest).length).sum ≤
      (words.map length).sum :=
  (sum_le_sum fun rest _ => length_heads_le rest).trans
    (sum_length_ongoing_sequenceTree_le depth words)

/-- Forward, a place of the tree is a state with a transition for each first letter. -/
theorem sum_branchBytes_sequenceTree_le (depth : Nat) (words : List (List α)) :
    ((sequenceTree depth words).eraseDups.map fun rest => branchBytes (heads rest).length).sum ≤
      40 * (words.map length).sum :=
  calc ((sequenceTree depth words).eraseDups.map fun rest => branchBytes (heads rest).length).sum
      _ ≤ ((sequenceTree depth words).map fun rest => branchBytes (heads rest).length).sum :=
        ((eraseDups_sublist _).map _).sum_le_sum fun _ _ => Nat.zero_le _
      _ ≤ ((sequenceTree depth words).map fun rest => 40 * (ongoing rest).length).sum := by
        apply sum_le_sum
        intro rest hrest
        have hsome := length_pos_iff.2 (ongoing_ne_nil_of_mem_sequenceTree hrest)
        have hheads := length_heads_le rest
        rw [branchBytes, stateBytes, transitionBytes]
        omega
      _ = 40 * ((sequenceTree depth words).map fun rest => (ongoing rest).length).sum :=
        sum_map_mul_left ..
      _ ≤ 40 * (words.map length).sum :=
        Nat.mul_le_mul_left 40 (sum_length_ongoing_sequenceTree_le depth words)

end Words

/-! ## Classes -/

/-- The size of what a range needs, whatever else belongs to the class. -/
def rangeBytes (range : Nat × Nat) : Nat := min (160 * max (range.2 + 1 - range.1) 1) 2600

theorem sum_length_sequences_le (ranges : List (Nat × Nat)) :
    40 * ((ranges.flatMap fun range => utf8Sequences range.1 range.2).map length).sum ≤
      (ranges.map rangeBytes).sum := by
  induction ranges with
  | nil => simp
  | cons range ranges ih =>
      have hrange := sum_length_utf8Sequences_le range.1 range.2
      simp only [flatMap_cons, map_append, sum_append_nat, map_cons, sum_cons]
      rw [rangeBytes]
      omega

/-- A class is no larger than what its ranges need by themselves. -/
theorem classBytes_le (backward : Bool) (ranges : List (Nat × Nat)) :
    classBytes backward ranges ≤ 64 + (ranges.map rangeBytes).sum := by
  have hsequences := sum_length_sequences_le ranges
  have hcount : (ranges.flatMap fun range => utf8Sequences range.1 range.2).length ≤
      ((ranges.flatMap fun range => utf8Sequences range.1 range.2).map length).sum := by
    rw [← length_map length]
    apply length_le_sum_of_one_le
    intro n hn
    obtain ⟨sequence, hmem, rfl⟩ := mem_map.1 hn
    obtain ⟨range, -, hmem⟩ := mem_flatMap.1 hmem
    exact length_pos_of_mem_utf8Sequences hmem
  rw [classBytes]
  dsimp only
  generalize (ranges.flatMap fun range => utf8Sequences range.1 range.2) = sequences
    at hsequences hcount ⊢
  split
  · -- ASCII needs no sequences, only a transition for each range.
    have hranges : ∀ range ∈ ranges, 8 ≤ rangeBytes range := by
      intro range _
      rw [rangeBytes]
      omega
    have hsum := sum_le_sum (f := fun _ => 8) hranges
    rw [map_const', sum_replicate_nat] at hsum
    rw [branchBytes, stateBytes, transitionBytes]
    omega
  · split
    · have hstates := sum_length_heads_sequenceTree_le 4 sequences
      rw [totalBytes_eq_sum, forkBytes, stateBytes, jumpBytes]
      omega
    · have hstates := sum_branchBytes_sequenceTree_le 4 sequences
      rw [totalBytes_eq_sum, stateBytes]
      omega

/-! ## Choices of texts -/

/-- What a word is held to need in a tree of words. -/
def wordBytes {α : Type} (word : List α) : Nat := 76 * word.length + 4

section Runs

variable {α : Type}

theorem flatten_wordRuns (words : List (List α)) : (wordRuns words).flatten = ongoing words := by
  induction words with
  | nil => rfl
  | cons word words ih =>
      cases word with
      | nil => simpa [wordRuns] using ih
      | cons a word =>
          rw [ongoing_cons_cons, ← ih]
          simp only [wordRuns, isEmpty_cons, Bool.false_eq_true, if_false]
          split
          · rename_i hnil
            simp [hnil]
          · rename_i run runs hruns
            simp [hruns]

theorem ongoing_ne_nil_of_mem_wordRuns {words run : List (List α)} (h : run ∈ wordRuns words)
    (hrun : run ≠ []) : ongoing run ≠ [] := by
  obtain ⟨word, hword⟩ := exists_mem_of_ne_nil run hrun
  have hwords : word ∈ ongoing words := flatten_wordRuns words ▸ mem_flatten.2 ⟨run, h, hword⟩
  exact ne_nil_of_mem (mem_filter.2 ⟨hword, (mem_filter.1 hwords).2⟩)

theorem length_wordRuns (words : List (List α)) :
    (wordRuns words).length = (words.filter isEmpty).length + 1 := by
  induction words with
  | nil => rfl
  | cons word words ih =>
      cases word with
      | nil => simpa [wordRuns] using ih
      | cons a word =>
          simp only [wordRuns, isEmpty_cons, Bool.false_eq_true, if_false]
          split
          · rename_i hnil
            simp [hnil] at ih
          · rename_i run runs hruns
            simpa [hruns] using ih

/-- A word that is left out counts as its end. -/
theorem sum_wordBytes (words : List (List α)) : (words.map wordBytes).sum =
    ((ongoing words).map wordBytes).sum + 4 * (words.filter isEmpty).length := by
  induction words with
  | nil => rfl
  | cons word words ih =>
      cases word with
      | nil =>
          simp only [map_cons, sum_cons, ongoing_cons_nil, wordBytes, length_nil, isEmpty_nil,
            filter_cons_of_pos, length_cons]
          omega
      | cons a word =>
          simp only [map_cons, sum_cons, ongoing_cons_cons, isEmpty_cons, Bool.false_eq_true,
            not_false_eq_true, filter_cons_of_neg]
          omega

theorem sum_wordBytes_ongoing (words : List (List α)) : ((ongoing words).map wordBytes).sum =
    ((ongoing words).map fun word => wordBytes word.tail).sum + 76 * (ongoing words).length := by
  induction words with
  | nil => rfl
  | cons word words ih =>
      cases word with
      | nil => simpa using ih
      | cons a word =>
          simp only [ongoing_cons_cons, map_cons, sum_cons, length_cons, tail_cons, wordBytes]
            at ih ⊢
          omega

/-- Empty words that come first are passed over. -/
theorem dropWhile_isEmpty (words : List (List α)) :
    ongoing (words.dropWhile isEmpty) = ongoing words ∧
      (words.dropWhile isEmpty ≠ [] → ongoing words ≠ []) ∧
      ((words.dropWhile isEmpty).filter isEmpty).length +
        (if words.head?.any isEmpty then 1 else 0) ≤ (words.filter isEmpty).length := by
  induction words with
  | nil => simp
  | cons word words ih =>
      cases word with
      | nil =>
          obtain ⟨hongoing, hsome, hends⟩ := ih
          refine ⟨by simpa using hongoing, by simpa using hsome, ?_⟩
          simp
          omega
      | cons a word => simp

variable [BEq α] [LawfulBEq α]

/-- The words of a run, if what is left of them is within bounds. -/
theorem run_le {run : List (List α)} (hrun : ongoing run ≠ [])
    {left : List (List α) → Nat} (hleft : ∀ words, left words ≤ (words.map wordBytes).sum) :
    36 + ((if (heads run).length = 1 then stateBytes else branchBytes (heads run).length) +
        ((heads run).map fun first => left (tailsAfter first run)).sum) ≤
      (run.map wordBytes).sum := by
  have hsome : 0 < (ongoing run).length := length_pos_iff.2 hrun
  have hheads := length_heads_le run
  have hrest : ((heads run).map fun first => left (tailsAfter first run)).sum ≤
      ((ongoing run).map fun word => wordBytes word.tail).sum :=
    (sum_le_sum fun first _ => hleft _).trans
      (sum_map_tailsAfter_le wordBytes (nodup_eraseDups _) run)
  have hstate : (if (heads run).length = 1 then stateBytes else branchBytes (heads run).length) ≤
      32 + 8 * (heads run).length := by
    rw [branchBytes, stateBytes, transitionBytes]
    split <;> omega
  rw [sum_wordBytes, sum_wordBytes_ongoing]
  omega

/-- A tree of words is no larger than what its words need by themselves. -/
theorem wordTreeBytes_le (depth : Nat) (words : List (List α)) :
    wordTreeBytes depth words ≤ (words.map wordBytes).sum := by
  induction depth generalizing words with
  | zero => simp [wordTreeBytes]
  | succ depth ih =>
      obtain ⟨hongoing, hsome, hends⟩ := dropWhile_isEmpty words
      rw [wordTreeBytes]
      dsimp only
      split
      · exact Nat.zero_le _
      · rename_i hleft
        have hflatten : ((wordRuns (words.dropWhile isEmpty)).filter fun run =>
            !run.isEmpty).flatten = ongoing words := by
          rw [flatten_filter_not_isEmpty, flatten_wordRuns, hongoing]
        have hcount := length_wordRuns (words.dropWhile isEmpty)
        obtain ⟨runs, hruns⟩ : ∃ runs, runs = (wordRuns (words.dropWhile isEmpty)).filter
            fun run => !run.isEmpty := ⟨_, rfl⟩
        rw [← hruns] at hflatten ⊢
        have hongoingRun : ∀ run ∈ runs, ongoing run ≠ [] := by
          intro run hrun
          rw [hruns, mem_filter] at hrun
          exact ongoing_ne_nil_of_mem_wordRuns hrun.1 (by simpa using hrun.2)
        have hparts := sum_le_sum fun run hrun => run_le (hongoingRun run hrun) ih
        have hwords : (runs.map fun run => (run.map wordBytes).sum).sum =
            ((ongoing words).map wordBytes).sum := by
          rw [← hflatten, map_flatten, sum_flatten, map_map]
          rfl
        have hpos : 0 < runs.length := by
          apply length_pos_iff.2
          rintro rfl
          exact hsome (by simpa using hleft) hflatten.symm
        rw [sum_map_add, map_const', sum_replicate_nat, hwords] at hparts
        rw [totalBytes_eq_sum, sum_wordBytes, forkBytes, stateBytes, jumpBytes]
        simp only [totalBytes_eq_sum]
        rw [stateBytes] at hparts
        omega

end Runs

/-- A choice of texts is no larger than what they need by themselves. -/
theorem wordsBytes_le (backward : Bool) (words : List (List Char)) : wordsBytes backward words ≤
    32 + (words.map fun word => 76 * utf8Length word + 4).sum := by
  rw [wordsBytes, stateBytes]
  dsimp only
  apply Nat.add_le_add_left
  refine (wordTreeBytes_le _ _).trans (Nat.le_of_eq ?_)
  rw [map_map]
  congr 1
  apply map_congr_left
  intro word _
  cases backward with
  | false => simp [wordBytes, length_utf8Bytes]
  | true => simp [wordBytes, length_utf8Bytes]

end Guided
