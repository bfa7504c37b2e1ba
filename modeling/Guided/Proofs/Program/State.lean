import Guided.Program.State

/-!
# What an update changes

An update of a variable changes that variable, publishing changes the results, and a leaf
that is made to retain something changes that leaf. Everything else is as before.

## Main statements

* `ProgramState.find?_updateVariable_grows`: texts that go on.
* `ProgramState.exists_eq_of_withResult`, `ProgramState.pattern?_setPattern_of_ne`: what
  stays.
-/
namespace Guided

namespace ProgramState

variable (s : ProgramState)

theorem find?_withToken_self (name token : String) :
    (s.withToken name token).find? name =
      some ⟨((s.find? name).getD Variable.fresh).text ++ token,
        ((s.find? name).getD Variable.fresh).finished⟩ := by
  rw [withToken, find?_updateVariable_self]

/-- An update that lets the text of its variable go on lets every text go on. -/
theorem find?_updateVariable_grows (name : String) (f : Variable → Variable)
    (hgrow : ∀ v, ∃ more, (f v).text = v.text ++ more) {other : String} {v : Variable}
    (hv : s.find? other = some v) :
    ∃ w, (s.updateVariable name f).find? other = some w ∧ ∃ more, w.text = v.text ++ more := by
  by_cases hname : other = name
  · subst hname
    refine ⟨f v, ?_, hgrow v⟩
    rw [find?_updateVariable_self, hv, Option.getD_some]
  · refine ⟨v, ?_, "", by simp⟩
    rw [s.find?_updateVariable_of_ne hname, hv]

/-- An update starts variables and does not take them back. -/
theorem find?_eq_none_of_updateVariable {name other : String} {f : Variable → Variable}
    (h : (s.updateVariable name f).find? other = none) : s.find? other = none := by
  by_cases hname : other = name
  · rw [hname, find?_updateVariable_self] at h
    simp at h
  · rwa [s.find?_updateVariable_of_ne hname] at h

/-- Publishing changes the results and nothing else. -/
theorem exists_eq_of_withResult {key : CallKey} {v : Value} {next : ProgramState}
    (h : s.withResult key v = .ok next) : ∃ results, next = { s with results } := by
  rw [withResult] at h
  cases hpublish : s.results.publish key v with
  | error e => simp [hpublish, Except.map] at h
  | ok results =>
      simp only [hpublish, Except.map, Except.ok.injEq] at h
      exact ⟨results, h.symm⟩

/-- A leaf made to retain something leaves alone what other leaves retain. -/
theorem pattern?_setPattern_of_ne {leaf other : NodeId} (h : other ≠ leaf) (st : PatternState) :
    (s.setPattern leaf st).pattern? other = s.pattern? other := by
  have hfilter : ∀ patterns : List (NodeId × PatternState),
      (patterns.filter (·.1 != leaf)).lookup other = patterns.lookup other := by
    intro patterns
    induction patterns with
    | nil => rfl
    | cons entry patterns ih =>
        by_cases hentry : entry.1 = leaf
        · have hne : other ≠ entry.1 := by
            intro heq
            exact h (heq.trans hentry)
          rw [List.filter_cons_of_neg (by simpa using hentry), ih, List.lookup_cons]
          simp only [beq_eq_false_iff_ne.2 hne]
        · rw [List.filter_cons_of_pos (by simpa using hentry), List.lookup_cons, List.lookup_cons,
            ih]
  simp only [pattern?, setPattern, List.lookup_cons, beq_eq_false_iff_ne.2 h, hfilter]

end ProgramState

end Guided
