import Guided.Constraint.Postprocess
import Guided.Proofs.Constraint.Evaluation

/-!
# Final values after a verdict

The final value of a variable comes from the first node of the walk that decides it,
whatever made the verdict true. A verdict vouches for a published result of every call and
for a whole-text match of every pattern, with either answer; so after a verdict the only
thing that can stand in the way of a final value is a first node that is a pattern and does
not match.

## Main definitions

* `Constraint.owner?`: the node that decides a variable.
* `Constraint.OwnerMatches`: it is not a pattern that fails to match.

## Main statements

* `Constraint.Built.finalValues_of_matches`, `Constraint.Built.finalValues_of_mismatch`: the
  two ways it can go.
-/
namespace Guided

namespace Constraint

variable {W : Type} {nodes : List (Constraint W)} {root c : Constraint W} {s : ProgramState}
  {name text : String} {v : Value}

/-- The node that decides a variable, if there is one. -/
def owner? (root : Constraint W) (name : String) : Option (Constraint W) :=
  (root.owners name).head?

/-- If the variable is decided by a pattern, the whole text matches it. -/
def OwnerMatches (root : Constraint W) (name text : String) : Prop :=
  ∀ c leaf, root.owner? name = some c → c.pattern? = some leaf →
    leaf.regex.fullMatch text = .ok true

theorem mem_walk_of_owner? (h : root.owner? name = some c) :
    c ∈ root.walk ∧ c.owns name = true := by
  have hmem : c ∈ root.owners name := List.mem_of_mem_head? h
  exact List.mem_filter.1 hmem

/-- A node that decides a variable is a pattern on it or a call. -/
theorem pattern_or_call_of_owns (h : c.owns name = true) :
    (∃ leaf, c.pattern? = some leaf ∧ c.operator = .pattern leaf ∧ leaf.variableName = name) ∨
      ∃ inlineCall, c.operator = .call inlineCall := by
  obtain ⟨id, operator, inputs⟩ := c
  cases operator with
  | pattern leaf => exact .inl ⟨leaf, rfl, rfl, by simpa [owns, Constraint.operator] using h⟩
  | call inlineCall => exact .inr ⟨inlineCall, rfl⟩
  | all | any | negation | reference | constant => simp [owns, Constraint.operator] at h

/-- After a verdict, a pattern on a finished variable has been matched as a whole. -/
theorem exists_fullMatch_of_result (hvar : s.find? name = some ⟨text, true⟩)
    (h : root.result s.leafResult = .ok (.value v)) (hc : Occurs c root) {leaf : PatternLeaf}
    (hop : c.operator = .pattern leaf) (hname : leaf.variableName = name) :
    ∃ b, leaf.regex.fullMatch text = .ok b := by
  obtain ⟨w, hlook⟩ := exists_look_of_decided h hc (by simp [isConnective, hop])
  simp only [hop, ProgramState.leafResult, PatternLeaf.evaluate, hname, hvar, if_true] at hlook
  cases hmatch : leaf.regex.fullMatch text with
  | error e => simp [hmatch, Except.map] at hlook
  | ok b => exact ⟨b, rfl⟩

/-- After a verdict, a call has a published result. -/
theorem exists_callResult_of_result (h : root.result s.leafResult = .ok (.value v))
    (hc : Occurs c root) {inlineCall : InlineCall W} (hop : c.operator = .call inlineCall) :
    ∃ w, callResult c.id s = .value w := by
  obtain ⟨w, hlook⟩ := exists_look_of_decided h hc (by simp [isConnective, hop])
  simp only [hop, ProgramState.leafResult, Except.ok.injEq] at hlook
  exact ⟨w, hlook⟩

/-- The value that a pattern on a finished variable gives: its text, if it matches. -/
theorem postprocess_of_pattern (hvar : s.find? name = some ⟨text, true⟩) {leaf : PatternLeaf}
    (hop : c.operator = .pattern leaf) (hname : leaf.variableName = name) {b : Bool}
    (hmatch : leaf.regex.fullMatch text = .ok b) (scheduler : Scheduler W) :
    (c.postprocess s scheduler).1 =
      if b then .ok (.string text) else .error (.violated text name leaf.regex.source) := by
  simp only [postprocess, hop, PatternLeaf.postprocess, hname, hvar, hmatch]
  cases b <;> rfl

theorem postprocess_of_call {inlineCall : InlineCall W} (hop : c.operator = .call inlineCall)
    (hresult : callResult c.id s = .value v) (scheduler : Scheduler W) :
    (c.postprocess s scheduler).1 = .ok v := by
  simp only [postprocess, hop, InlineCall.postprocess, hresult]

/-- The final value of one variable is that of the node that decides it. -/
theorem finalValues_singleton_of_owner (howner : root.owner? name = some c)
    (scheduler : Scheduler W) :
    (root.finalValues s [name] scheduler).1 =
      (c.postprocess s scheduler).1.map fun v => [(name, v)] := by
  have hhead : (root.owners name).head? = some c := howner
  simp only [finalValues, finalValue, hhead]
  rcases c.postprocess s scheduler with ⟨_ | v, scheduler⟩ <;> rfl

theorem finalValues_singleton_of_no_owner (howner : root.owner? name = none)
    (hvar : s.find? name = some ⟨text, true⟩) (scheduler : Scheduler W) :
    (root.finalValues s [name] scheduler).1 = .ok [(name, .string text)] := by
  have hhead : (root.owners name).head? = none := howner
  simp only [finalValues, finalValue, hhead, hvar]
  rfl

/-- After a verdict there is a final value, unless a pattern that does not match decides. -/
theorem Built.finalValues_of_matches (hb : Built nodes) (hroot : root ∈ nodes)
    (hvar : s.find? name = some ⟨text, true⟩) (h : root.result s.leafResult = .ok (.value v))
    (hmatches : root.OwnerMatches name text) (scheduler : Scheduler W) :
    ∃ w, (root.finalValues s [name] scheduler).1 = .ok [(name, w)] := by
  cases howner : root.owner? name with
  | none => exact ⟨_, finalValues_singleton_of_no_owner howner hvar scheduler⟩
  | some c =>
      obtain ⟨hwalk, howns⟩ := mem_walk_of_owner? howner
      have hoccurs := (hb.mem_walk_iff hroot).1 hwalk
      rw [finalValues_singleton_of_owner howner]
      rcases pattern_or_call_of_owns howns with ⟨leaf, hleaf, hop, hname⟩ | ⟨inlineCall, hop⟩
      · have hmatch := hmatches c leaf howner hleaf
        exact ⟨.string text, by rw [postprocess_of_pattern hvar hop hname hmatch]; rfl⟩
      · obtain ⟨w, hw⟩ := exists_callResult_of_result h hoccurs hop
        exact ⟨w, by rw [postprocess_of_call hop hw]; rfl⟩

/-- After a verdict, a pattern that decides and does not match is an error. -/
theorem Built.finalValues_of_mismatch (hb : Built nodes) (hroot : root ∈ nodes)
    (hvar : s.find? name = some ⟨text, true⟩) (h : root.result s.leafResult = .ok (.value v))
    (hmismatch : ¬ root.OwnerMatches name text) :
    ∃ c leaf, root.owner? name = some c ∧ c.pattern? = some leaf ∧
      leaf.regex.fullMatch text = .ok false ∧ ∀ scheduler : Scheduler W,
        (root.finalValues s [name] scheduler).1 =
          .error (.violated text name leaf.regex.source) := by
  simp only [OwnerMatches, Classical.not_forall] at hmismatch
  obtain ⟨c, leaf, howner, hleaf, hnot⟩ := hmismatch
  obtain ⟨hwalk, howns⟩ := mem_walk_of_owner? howner
  have hoccurs := (hb.mem_walk_iff hroot).1 hwalk
  rcases pattern_or_call_of_owns howns with ⟨own, hown, hop, hname⟩ | ⟨inlineCall, hop⟩
  · obtain rfl : own = leaf := Option.some.inj (hown.symm.trans hleaf)
    obtain ⟨b, hmatch⟩ := exists_fullMatch_of_result hvar h hoccurs hop hname
    obtain rfl : b = false := by
      cases b with
      | false => rfl
      | true => exact absurd hmatch hnot
    refine ⟨c, own, howner, hleaf, hmatch, ?_⟩
    intro scheduler
    rw [finalValues_singleton_of_owner howner, postprocess_of_pattern hvar hop hname hmatch]
    rfl
  · simp [pattern?, hop] at hleaf

end Constraint

end Guided
