import Guided.Constraint.Postprocess
import Guided.Proofs.Constraint.Evaluation
import Guided.Proofs.Pattern.Budget
import Guided.Proofs.Pattern.Nesting
import Guided.Proofs.Pattern.Spelling

/-!
# Finishing a variable

A pattern is followed without limits as long as its variable is being generated, and matched
as a whole, within limits, once the variable is finished. A pattern without counts cannot be
too large for that, but it can be nested too deep: reading allows more groups than there are
levels to match them.

## Main definitions

* `nested`, `nestedChars`: a character in so many groups.

## Main statements

* `Regex.checkLimits_of_parse`: patterns without counts only have to mind their nesting.
* `Regex.finished_without_fault_iff`: what becomes of their leaves once a variable is finished.
* `Regex.nested_accepted_unmatchable`: a pattern that is read and followed, and not matched.
-/
namespace Guided

/-- A pattern without counts has the size to be matched, whatever text it has been read from. -/
theorem Pattern.automatonBytes_le_of_ofChars {s : List Char} {p : Pattern}
    (h : Pattern.ofChars s = .ok p) (hcounts : Pattern.Uncounted p) :
    Pattern.automatonBytes p ≤ maxAutomatonBytes := by
  have hbytes := Pattern.automatonBytes_le (Pattern.wellFormed_of_ofChars h)
  have hextent := Pattern.extent_le_of_ofChars h hcounts
  have hlength : s.length ≤ maxPatternLength := (Pattern.ofChars_eq_ok_iff.1 h).1
  rw [maxPatternLength] at hlength
  rw [maxAutomatonBytes]
  omega

section Parsed

variable {source : String} {r : Regex}

theorem Regex.checkLimits_of_parse (h : Regex.parse source = .ok r)
    (hcounts : Pattern.Uncounted r.pattern) : Pattern.checkLimits r.pattern =
      if Pattern.nesting r.pattern + anchorNesting ≤ maxNesting then .ok ()
      else .error .nesting := by
  have hsize := Pattern.automatonBytes_le_of_ofChars (Regex.parse_eq_ok_iff.1 h).2 hcounts
  rw [Pattern.checkLimits, if_neg (Nat.not_lt.2 hsize)]
  split <;> split <;> first | rfl | omega

theorem Regex.fullMatch_of_parse (h : Regex.parse source = .ok r)
    (hcounts : Pattern.Uncounted r.pattern) (text : String) : r.fullMatch text =
      if Pattern.nesting r.pattern + anchorNesting ≤ maxNesting then
        .ok (Pattern.matchesAll r.pattern text.toList)
      else .error (.internal (.matchLimit .nesting)) := by
  rw [Regex.fullMatch, Pattern.fullMatch, Regex.checkLimits_of_parse h hcounts]
  split
  · rename_i hlimit
    split at hlimit
    · simp at hlimit
    · simp_all
  · rename_i hlimit
    split at hlimit
    · simp_all
    · simp at hlimit

/-- Every group that reading counts comes with at most four of the levels. -/
theorem Regex.nesting_le_of_groupDepth_le (h : Regex.parse source = .ok r)
    (hgroups : Pattern.groupDepth r.pattern ≤ 60) :
    Pattern.nesting r.pattern + anchorNesting ≤ maxNesting := by
  have hnesting := Pattern.nesting_le_of_ofChars (Regex.parse_eq_ok_iff.1 h).2
  rw [anchorNesting, maxNesting]
  omega

variable {W : Type} {id inputId : NodeId} {name text : String} {s : ProgramState}

/-- An internal fault of the leaf on a finished variable is one of whole-text matching. -/
theorem Constraint.forward_pattern_fault_iff (hvar : s.find? name = some ⟨text, true⟩)
    (scheduler : Scheduler W) (fault : InternalFault) :
    ((Constraint.pattern id inputId name r).forward s scheduler).1 = .error (.internal fault) ↔
      r.fullMatch text = .error (.internal fault) := by
  have heval : PatternLeaf.evaluate ⟨name, r⟩ id s = (r.fullMatch text).map Eval.ofBool := by
    simp [PatternLeaf.evaluate, hvar]
  rw [Constraint.forward_pattern hvar, heval]
  cases r.fullMatch text with
  | error e => simp [Except.map]
  | ok b => simp [Except.map]

theorem Constraint.postprocess_pattern_fault_iff (hvar : s.find? name = some ⟨text, true⟩)
    (scheduler : Scheduler W) (fault : InternalFault) :
    ((Constraint.pattern id inputId name r).postprocess s scheduler).1 =
        .error (.internal fault) ↔ r.fullMatch text = .error (.internal fault) := by
  have hpost : ((Constraint.pattern id inputId name r : Constraint W).postprocess s scheduler).1 =
      PatternLeaf.postprocess ⟨name, r⟩ s := rfl
  rw [hpost, PatternLeaf.postprocess, hvar]
  dsimp only
  rcases r.fullMatch text with e | (b | b)
  · simp
  · simp
  · simp

/-- **Finishing a variable.** A pattern without counts that has been read, such as any whose
text has no bounds in braces (`Pattern.uncounted_of_ofChars`), is matched against whole texts,
and tells which ones it accepts, exactly if its printed form between the anchors has no more
levels than are matched; sixty groups inside one another never have more. If it has more, its
leaf ends in an internal fault once its variable is finished, and so does its final value;
there is no other internal fault. -/
theorem Regex.finished_without_fault_iff (h : Regex.parse source = .ok r)
    (hcounts : Pattern.Uncounted r.pattern) :
    (∀ text : String,
      (∃ b, r.fullMatch text = .ok b ∧ (b = true ↔ Pattern.Accepts r.pattern text.toList)) ↔
        Pattern.nesting r.pattern + anchorNesting ≤ maxNesting) ∧
    (Pattern.groupDepth r.pattern ≤ 60 →
      Pattern.nesting r.pattern + anchorNesting ≤ maxNesting) ∧
    ∀ {id inputId : NodeId} {name text : String} {s : ProgramState},
      s.find? name = some ⟨text, true⟩ → ∀ (scheduler : Scheduler W) (fault : InternalFault),
        (((Constraint.pattern id inputId name r).forward s scheduler).1 =
            .error (.internal fault) ↔
          maxNesting < Pattern.nesting r.pattern + anchorNesting ∧
            fault = .matchLimit .nesting) ∧
        (((Constraint.pattern id inputId name r).postprocess s scheduler).1 =
            .error (.internal fault) ↔
          maxNesting < Pattern.nesting r.pattern + anchorNesting ∧
            fault = .matchLimit .nesting) := by
  have hmatch := Regex.fullMatch_of_parse h hcounts
  have hfault : ∀ text fault, r.fullMatch text = .error (.internal fault) ↔
      maxNesting < Pattern.nesting r.pattern + anchorNesting ∧ fault = .matchLimit .nesting := by
    intro text fault
    rw [hmatch text, ← Nat.not_le]
    split
    · simp [*]
    · simp [*, eq_comm]
  refine ⟨?_, Regex.nesting_le_of_groupDepth_le h, ?_⟩
  · intro text
    constructor
    · rintro ⟨b, hb, -⟩
      rw [hmatch text] at hb
      split at hb
      · assumption
      · simp at hb
    · intro hlevels
      have hb := hmatch text
      rw [if_pos hlevels] at hb
      exact ⟨_, hb, Regex.fullMatch_iff (Regex.wellFormed_of_parse h) hb⟩
  · intro id inputId name text s hvar scheduler fault
    rw [Constraint.forward_pattern_fault_iff hvar, Constraint.postprocess_pattern_fault_iff hvar,
      hfault]
    exact ⟨Iff.rfl, Iff.rfl⟩

end Parsed

/-- The pattern `a+b`: its leaf has no internal fault on a finished variable. -/
theorem Regex.finished_without_fault_leaf :
    (∃ b, Regex.fullMatch ⟨"a+b", [.repetition 1 none [.literal 'a'], .literal 'b']⟩ "aab" = .ok b ∧
      (b = true ↔ Pattern.Accepts [.repetition 1 none [.literal 'a'], .literal 'b']
        "aab".toList)) ∧
    ∀ fault, (Sample.leaf.forward ((ProgramState.start "").withVariable "X" "aab" true) .empty).1 ≠
      .error (.internal fault) := by
  have hparse : Regex.parse "a+b" =
      .ok ⟨"a+b", [.repetition 1 none [.literal 'a'], .literal 'b']⟩ := by rfl
  have hcounts : Pattern.Uncounted [.repetition 1 none [.literal 'a'], .literal 'b'] := by
    simp [Node.Uncounted, rounds]
  obtain ⟨hmatch, hgroups, hleaf⟩ :=
    Regex.finished_without_fault_iff (W := Unit) hparse hcounts
  have hlevels := hgroups (by decide)
  refine ⟨(hmatch "aab").2 hlevels, ?_⟩
  intro fault hfault
  have hvar : ((ProgramState.start "").withVariable "X" "aab" true).find? "X" =
      some ⟨"aab", true⟩ := by rfl
  exact Nat.not_lt.2 hlevels ((hleaf hvar .empty fault).1.1 hfault).1

/-! ## Groups beyond the levels -/

/-- A character in so many groups. -/
def nested : Nat → Pattern
  | 0 => [.literal 'a']
  | n + 1 => [.group (nested n)]

/-- The text of a character in so many groups. -/
def nestedChars : Nat → List Char
  | 0 => ['a']
  | n + 1 => '(' :: nestedChars n ++ [')']

theorem length_nestedChars (n : Nat) : (nestedChars n).length = 2 * n + 1 := by
  induction n with
  | zero => rfl
  | succ n ih =>
      simp only [nestedChars, List.length_append, List.length_cons, List.length_nil, ih]
      omega

theorem nesting_nested (n : Nat) : Pattern.nesting (nested n) = n := by
  induction n with
  | zero => rfl
  | succ n ih =>
      have hinner : Pattern.sequenceNesting (Pattern.hasSiblings (nested n)) (nested n) = n := ih
      have halone : Pattern.hasSiblings [Node.group (nested n)] = false := rfl
      rw [nested, Pattern.nesting, halone, Pattern.sequenceNesting, Pattern.sequenceNesting,
        Node.nesting, hinner, if_neg Bool.false_ne_true, Nat.zero_add, Nat.add_comm]
      exact Nat.max_eq_left (Nat.zero_le _)

theorem groupDepth_nested (n : Nat) : Pattern.groupDepth (nested n) = n := by
  induction n with
  | zero => rfl
  | succ n ih => simp [nested, Node.groupDepth, ih]

theorem spelled_nested (n : Nat) : PatternSpelled (nested n) (nestedChars n) := by
  have halone : ∀ {node : Node} {s : List Char}, AtomSpelled node s → PatternSpelled [node] s := by
    intro node s h
    have hitem := SequenceSpelled.cons (.once h) .nil not_startsQuantifier_nil
    rw [List.append_nil] at hitem
    exact .ofBranches (.single hitem)
  induction n with
  | zero => exact halone (.raw (by decide))
  | succ n ih => exact halone (.group ih)

/-- As many groups as reading allows are read. -/
theorem Regex.parse_nested {n : Nat} (h : n ≤ maxGroupDepth) :
    Regex.parse (String.ofList (nestedChars n)) =
      .ok ⟨String.ofList (nestedChars n), nested n⟩ := by
  have hlength : (nestedChars n).length ≤ maxPatternLength := by
    rw [maxGroupDepth] at h
    rw [length_nestedChars, maxPatternLength]
    omega
  have hdepth : Pattern.groupDepth (nested n) ≤ maxGroupDepth := by
    rw [groupDepth_nested]
    exact h
  rw [Regex.parse_eq_ok_iff, String.toList_ofList]
  exact ⟨rfl, Pattern.ofChars_of_spelled (spelled_nested n) hlength hdepth⟩

theorem not_mem_nestedChars {c : Char} (h : c ∉ ['(', 'a', ')']) (n : Nat) :
    c ∉ nestedChars n := by
  induction n with
  | zero => simp_all [nestedChars]
  | succ n ih => simp_all [nestedChars]

/-- **Accepted, and not matched.** A character in 249 groups, without any counts, is a text
that is read, and its residuals are followed; but it is not matched against anything. -/
theorem Regex.nested_accepted_unmatchable :
    '{' ∉ (String.ofList (nestedChars 249)).toList ∧
      Regex.parse (String.ofList (nestedChars 249)) =
        .ok ⟨String.ofList (nestedChars 249), nested 249⟩ ∧
      ∀ text, Regex.fullMatch ⟨String.ofList (nestedChars 249), nested 249⟩ text =
        .error (.internal (.matchLimit .nesting)) := by
  have hparse := Regex.parse_nested (n := 249) (by decide)
  have hbraces : '{' ∉ (String.ofList (nestedChars 249)).toList := by
    rw [String.toList_ofList]
    exact not_mem_nestedChars (by decide) 249
  refine ⟨hbraces, hparse, ?_⟩
  intro text
  have hcounts := Pattern.uncounted_of_ofChars (Regex.parse_eq_ok_iff.1 hparse).2
    (Unbraced.of_not_mem hbraces)
  rw [Regex.fullMatch_of_parse hparse hcounts, nesting_nested]
  rfl

end Guided
