import Guided.Proofs.Constraint.Evaluation
import Guided.Proofs.Program.State

/-!
# Pattern leaves that follow their variable

What a leaf retains is good for a text if it describes a beginning of that text. Then the
leaf says about the text what it says when it follows the text from its beginning, both
when it advances and when it only looks.

## Main definitions

* `PatternState.Covers`: a retained state that describes a beginning of a text.
* `PatternLeaf.evaluateFresh`: the result of a leaf from the whole text.

## Main statements

* `PatternLeaf.follow_of_covers`, `PatternLeaf.viable_of_covers`: a covering state changes
  nothing.
* `Constraint.pattern?_advance_of_mem`: what advancing leaves makes them retain.
-/
namespace Guided

theorem utf8ByteSize_ofList (s : List Char) :
    (String.ofList s).utf8ByteSize = utf8Length s := by
  induction s with
  | nil => rfl
  | cons c s ih =>
      rw [String.ofList_cons, String.utf8ByteSize_append, String.utf8ByteSize_singleton, ih,
        utf8Length_cons]

theorem utf8Length_toList (s : String) : utf8Length s.toList = s.utf8ByteSize := by
  rw [← utf8ByteSize_ofList, String.ofList_toList]

/-- The retained state is the one after a beginning of the text. -/
def PatternState.Covers (st : PatternState) (leaf : PatternLeaf) (text : String) : Prop :=
  ∃ begun rest, text = begun ++ rest ∧ st = leaf.followFresh begun

namespace PatternState

variable {st : PatternState} {leaf : PatternLeaf} {text : String}

theorem covers_followFresh (leaf : PatternLeaf) (text : String) :
    (leaf.followFresh text).Covers leaf text := ⟨text, "", by simp, rfl⟩

/-- A text may grow under a retained state. -/
theorem Covers.append (h : st.Covers leaf text) (more : String) :
    st.Covers leaf (text ++ more) := by
  obtain ⟨begun, rest, htext, hst⟩ := h
  exact ⟨begun, rest ++ more, by rw [htext, String.append_assoc], hst⟩

/-- A covering state that consumed as many bytes as there are has consumed the text. -/
theorem Covers.eq_followFresh (h : st.Covers leaf text)
    (hsize : st.consumed = text.utf8ByteSize) : st = leaf.followFresh text := by
  obtain ⟨begun, rest, htext, hst⟩ := h
  have hbegun : st.consumed = begun.utf8ByteSize := by rw [hst, PatternLeaf.followFresh]
  have hzero : rest.utf8ByteSize = 0 := by
    rw [htext, String.utf8ByteSize_append] at hsize
    omega
  rw [String.utf8ByteSize_eq_zero_iff] at hzero
  rw [htext, hzero, String.append_empty, hst]

end PatternState

namespace PatternLeaf

variable {leaf : PatternLeaf} {text : String}

/-- Following on from a covering state is following from the beginning. -/
theorem follow_of_covers {retained : Option PatternState}
    (h : ∀ st, retained = some st → st.Covers leaf text) :
    leaf.follow retained text = leaf.followFresh text := by
  cases retained with
  | none => rfl
  | some st =>
      obtain ⟨begun, rest, htext, hst⟩ := h st rfl
      have hdrop : dropBytes? st.consumed text.toList = some rest.toList := by
        rw [hst, htext, PatternLeaf.followFresh, String.toList_append, ← utf8Length_toList]
        exact dropBytes?_append begun.toList rest.toList
      have hres : st.residual.bind (Pattern.residual · rest.toList) =
          leaf.regex.residual text := by
        rw [hst, htext, PatternLeaf.followFresh, Regex.residual, Regex.residual,
          String.toList_append, Pattern.residual_append]
      simp only [PatternLeaf.follow, hdrop, hres, PatternLeaf.followFresh]

/-- A covering state answers as the whole text does. -/
theorem viable_of_covers {retained : Option PatternState}
    (h : ∀ st, retained = some st → st.Covers leaf text) :
    leaf.viable retained text = (leaf.regex.residual text).isSome := by
  cases retained with
  | none => rfl
  | some st =>
      by_cases hsize : st.consumed = text.utf8ByteSize
      · rw [(h st rfl).eq_followFresh hsize]
        simp [PatternLeaf.viable, PatternLeaf.followFresh]
      · simp [PatternLeaf.viable, PatternLeaf.followFresh, hsize]

/-- The result of a leaf computed from the whole text of its variable: a finished text has
to match, an unfinished one must not be rejected. -/
def evaluateFresh (leaf : PatternLeaf) (state : ProgramState) : Except Error Eval :=
  match state.find? leaf.variableName with
  | none => .ok .pending
  | some v =>
      if v.finished then (leaf.regex.fullMatch v.text).map Eval.ofBool
      else .ok (.ofBool (leaf.regex.residual v.text).isSome)

theorem evaluate_eq_evaluateFresh {id : NodeId} {state : ProgramState}
    (h : ∀ v, state.find? leaf.variableName = some v →
      ∀ st, state.pattern? id = some st → st.Covers leaf v.text) :
    leaf.evaluate id state = leaf.evaluateFresh state := by
  cases hv : state.find? leaf.variableName with
  | none => simp only [PatternLeaf.evaluate, evaluateFresh, hv]
  | some v =>
      simp only [PatternLeaf.evaluate, evaluateFresh, hv, viable_of_covers (h v hv)]

end PatternLeaf

namespace Constraint

variable {W : Type} {earlier : ProgramState} {variableName text : String}

/-- The state after one node has been advanced, which does nothing to a node that is not a
pattern leaf on the variable. -/
def advanceOne (earlier : ProgramState) (variableName text : String) (state : ProgramState)
    (c : Constraint W) : ProgramState :=
  match c.pattern? with
  | some leaf =>
      if leaf.variableName = variableName then
        state.setPattern c.id (leaf.follow (earlier.pattern? c.id) text)
      else state
  | none => state

theorem advance_nil (state : ProgramState) :
    advance ([] : List (Constraint W)) earlier variableName text state = state := rfl

theorem advance_cons (c : Constraint W) (leaves : List (Constraint W)) (state : ProgramState) :
    advance (c :: leaves) earlier variableName text state =
      advance leaves earlier variableName text
        (advanceOne earlier variableName text state c) := rfl

theorem advanceOne_of_leaf {c : Constraint W} {leaf : PatternLeaf} {state : ProgramState}
    (hc : c.pattern? = some leaf) (hname : leaf.variableName = variableName) :
    advanceOne earlier variableName text state c =
      state.setPattern c.id (leaf.follow (earlier.pattern? c.id) text) := by
  simp only [advanceOne, hc, if_pos hname]

/-- Advancing changes what leaves retain and nothing else. -/
theorem exists_advance_eq (earlier : ProgramState) (variableName text : String)
    (leaves : List (Constraint W)) (state : ProgramState) :
    ∃ patterns, advance leaves earlier variableName text state = { state with patterns } := by
  induction leaves generalizing state with
  | nil => exact ⟨state.patterns, rfl⟩
  | cons c leaves ih =>
      obtain ⟨patterns, hrest⟩ := ih (advanceOne earlier variableName text state c)
      refine ⟨patterns, ?_⟩
      rw [advance_cons, hrest, advanceOne]
      split
      · split <;> rfl
      · rfl

/-- A node that is not advanced retains what it did. -/
theorem pattern?_advance_of_forall_ne (leaves : List (Constraint W)) (state : ProgramState)
    {id : NodeId}
    (h : ∀ c ∈ leaves, ∀ leaf, c.pattern? = some leaf → leaf.variableName = variableName →
      c.id ≠ id) :
    (advance leaves earlier variableName text state).pattern? id = state.pattern? id := by
  induction leaves generalizing state with
  | nil => rw [advance_nil]
  | cons c leaves ih =>
      rw [advance_cons, ih _ fun d hd => h d (List.mem_cons_of_mem _ hd), advanceOne]
      split
      · rename_i leaf hleaf
        split
        · rename_i hname
          have hne := h c List.mem_cons_self leaf hleaf hname
          exact state.pattern?_setPattern_of_ne hne.symm _
        · rfl
      · rfl

/-- A leaf that is advanced retains what follows from what it retained in the earlier
state. -/
theorem pattern?_advance_of_mem {leaves : List (Constraint W)} {c : Constraint W}
    {leaf : PatternLeaf} (hids : ∀ d ∈ leaves, ∀ e ∈ leaves, d.id = e.id → d = e)
    (hc : c ∈ leaves) (hleaf : c.pattern? = some leaf)
    (hname : leaf.variableName = variableName) (state : ProgramState) :
    (advance leaves earlier variableName text state).pattern? c.id =
      some (leaf.follow (earlier.pattern? c.id) text) := by
  induction leaves generalizing state with
  | nil => simp at hc
  | cons d leaves ih =>
      rw [advance_cons]
      by_cases hmem : c ∈ leaves
      · exact ih (fun e he f hf => hids e (List.mem_cons_of_mem _ he) f (List.mem_cons_of_mem _ hf))
          hmem _
      · have hcd : c = d := (List.mem_cons.1 hc).resolve_right hmem
        have hothers : ∀ e ∈ leaves, ∀ leaf, e.pattern? = some leaf →
            leaf.variableName = variableName → e.id ≠ c.id := by
          intro e he _ _ _ hid
          exact hmem (hids e (List.mem_cons_of_mem _ he) c hc hid ▸ he)
        rw [pattern?_advance_of_forall_ne leaves _ hothers, ← hcd,
          advanceOne_of_leaf hleaf hname, ProgramState.pattern?_setPattern_self]

end Constraint

end Guided
