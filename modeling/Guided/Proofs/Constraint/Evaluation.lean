import Guided.Constraint.Evaluation
import Guided.Proofs.Constraint.Construction

/-!
# Evaluation is plain evaluation

Evaluation keeps the results of nodes under their identities and asks for nested runs on
the way. Neither changes the result: on nodes made by the constructors it is the one that
recursion over the tree gives when every occurrence of a node is evaluated anew.

## Main definitions

* `ProgramState.leafResult`: what a state says about a leaf.
* `Constraint.result`: plain recursion over a constraint.

## Main statements

* `Built.forward_eq_result`: evaluation is plain evaluation.
* `Constraint.evaluate_congr`: states that agree on every leaf evaluate alike.
-/
namespace Guided

variable {W : Type}

/-- What a state says about a leaf. A connective is not a leaf. -/
def ProgramState.leafResult (state : ProgramState) (id : NodeId) :
    Operator W → Except Error Eval
  | .reference name =>
      match state.find? name with
      | some v => .ok (.value (.string v.text))
      | none => .ok .pending
  | .constant v => .ok (.value v)
  | .pattern leaf => leaf.evaluate id state
  | .call _ => .ok (callResult id state)
  | .all | .any | .negation => .ok .pending

/-- The result of a node whose inputs have been decided: connectives combine the truth of
their inputs, and a leaf has a result of its own. -/
def Operator.combine (operator : Operator W) (own : Except Error Eval) (truths : List Bool) :
    Except Error Eval :=
  match operator with
  | .all => .ok (.ofBool (truths.all (·)))
  | .any => .ok (.ofBool (truths.any (·)))
  | .negation => .ok (.ofBool !(truths.headD false))
  | _ => own

theorem Operator.apply_fst (operator : Operator W) (id : NodeId) (state : ProgramState)
    (truths : List Bool) (scheduler : Scheduler W) :
    (operator.apply id state truths scheduler).1 =
      operator.combine (state.leafResult id operator) truths := by
  cases operator with
  | reference name =>
      simp only [Operator.apply, Operator.combine, ProgramState.leafResult]
      cases state.find? name <;> rfl
  | _ => rfl

mutual

/-- The result of a node by recursion alone, from the results of leaves. -/
def Constraint.result (look : NodeId → Operator W → Except Error Eval) :
    Constraint W → Except Error Eval
  | .node id operator inputs =>
      match Constraint.resultAll look inputs with
      | .error e => .error e
      | .ok evals =>
          if evals.any Eval.isPending then .ok .pending
          else operator.combine (look id operator) (evals.filterMap Eval.truth?)

/-- The results of nodes from left to right, up to the first error. -/
def Constraint.resultAll (look : NodeId → Operator W → Except Error Eval) :
    List (Constraint W) → Except Error (List Eval)
  | [] => .ok []
  | c :: rest =>
      match Constraint.result look c with
      | .error e => .error e
      | .ok eval =>
          match Constraint.resultAll look rest with
          | .error e => .error e
          | .ok evals => .ok (eval :: evals)

end

namespace Constraint

variable {nodes : List (Constraint W)} {state : ProgramState}

/-- Results kept under identities are those of the nodes they belong to. -/
def MemoSound (nodes : List (Constraint W)) (state : ProgramState)
    (memo : List (NodeId × Eval)) : Prop :=
  ∀ c ∈ nodes, ∀ eval, memo.lookup c.id = some eval → c.result state.leafResult = .ok eval

/-- Keeping the result of a node keeps the memo sound, since no other node has its
identity. -/
theorem Built.memoSound_cons (hb : Built nodes) {c : Constraint W} (hc : c ∈ nodes)
    {memo : List (NodeId × Eval)} (hmemo : MemoSound nodes state memo) {eval : Eval}
    (h : c.result state.leafResult = .ok eval) :
    MemoSound nodes state ((c.id, eval) :: memo) := by
  intro d hd eval' hlook
  rw [List.lookup_cons] at hlook
  by_cases hid : d.id = c.id
  · obtain rfl := hb.eq_of_id_eq hd hc hid
    simp only [beq_self_eq_true, Option.some.injEq] at hlook
    rw [h, hlook]
  · simp only [beq_eq_false_iff_ne.2 hid] at hlook
    exact hmemo d hd eval' hlook

/-- The step of evaluation: a result is kept as the node's own. -/
theorem Built.remember_spec (hb : Built nodes) {c : Constraint W} (hc : c ∈ nodes)
    {memo : List (NodeId × Eval)} (hmemo : MemoSound nodes state memo)
    {result : Except Error Eval × Scheduler W} (h : result.1 = c.result state.leafResult) :
    (Session.remember memo c.id result).1 = c.result state.leafResult ∧
      MemoSound nodes state (Session.remember memo c.id result).2.memo := by
  obtain ⟨answer, scheduler⟩ := result
  cases answer with
  | error e => exact ⟨h, hmemo⟩
  | ok eval => exact ⟨h, hb.memoSound_cons hc hmemo h.symm⟩

/-- Nodes evaluated one after the other give what recursion gives, if each of them does. -/
theorem evaluateAll_spec (cs : List (Constraint W)) (session : Session W)
    (hmemo : MemoSound nodes state session.memo)
    (hspec : ∀ c ∈ cs, ∀ session : Session W, MemoSound nodes state session.memo →
      (evaluate state c session).1 = c.result state.leafResult ∧
        MemoSound nodes state (evaluate state c session).2.memo) :
    (evaluateAll state cs session).1 = resultAll state.leafResult cs ∧
      MemoSound nodes state (evaluateAll state cs session).2.memo := by
  induction cs generalizing session with
  | nil => exact ⟨by simp only [evaluateAll, resultAll], by simpa only [evaluateAll] using hmemo⟩
  | cons c cs ih =>
      obtain ⟨hhead, hmemo⟩ := hspec c List.mem_cons_self session hmemo
      simp only [evaluateAll, resultAll]
      rw [← hhead]
      generalize evaluate state c session = first at hmemo ⊢
      obtain ⟨_ | eval, session'⟩ := first
      · exact ⟨rfl, hmemo⟩
      · obtain ⟨htail, hmemo⟩ := ih session' hmemo fun d hd => hspec d (List.mem_cons_of_mem _ hd)
        dsimp only
        rw [← htail]
        generalize evaluateAll state cs session' = others at hmemo ⊢
        obtain ⟨_ | evals, session''⟩ := others
        · exact ⟨rfl, hmemo⟩
        · exact ⟨rfl, hmemo⟩

/-- Evaluation with a sound memo gives the result of plain recursion and keeps the memo
sound. -/
theorem Built.evaluate_spec (hb : Built nodes) {c : Constraint W} (hc : c ∈ nodes)
    (session : Session W) (hmemo : MemoSound nodes state session.memo) :
    (evaluate state c session).1 = c.result state.leafResult ∧
      MemoSound nodes state (evaluate state c session).2.memo := by
  induction c using inputs_induction generalizing session with
  | h id operator inputs ih =>
      rw [evaluate]
      cases hlook : session.memo.lookup id with
      | some eval => exact ⟨(hmemo _ hc eval hlook).symm, hmemo⟩
      | none =>
          obtain ⟨hall, hmemo⟩ := evaluateAll_spec inputs session hmemo fun d hd =>
            ih d hd (hb.input_mem hc hd)
          have hresult : (node id operator inputs).result state.leafResult =
              match resultAll state.leafResult inputs with
              | .error e => .error e
              | .ok evals =>
                  if evals.any Eval.isPending then .ok .pending
                  else operator.combine (state.leafResult id operator)
                    (evals.filterMap Eval.truth?) := by
            rw [result]
          dsimp only
          rw [← hall] at hresult
          generalize evaluateAll state inputs session = run at hmemo hresult ⊢
          obtain ⟨_ | evals, session'⟩ := run
          · exact ⟨hresult.symm, hmemo⟩
          · refine hb.remember_spec hc hmemo ?_
            rw [hresult]
            dsimp only
            split
            · rfl
            · exact operator.apply_fst id state _ _

/-- Evaluating a constraint gives the result of plain recursion. -/
theorem Built.forward_eq_result (hb : Built nodes) {root : Constraint W} (hroot : root ∈ nodes)
    (scheduler : Scheduler W) :
    (root.forward state scheduler).1 = root.result state.leafResult :=
  (hb.evaluate_spec hroot ⟨[], scheduler⟩ (by simp [MemoSound])).1

/-! ## States that agree -/

theorem evaluateAll_congr {state' : ProgramState} (cs : List (Constraint W))
    (session : Session W)
    (h : ∀ c ∈ cs, ∀ session : Session W, evaluate state c session = evaluate state' c session) :
    evaluateAll state cs session = evaluateAll state' cs session := by
  induction cs generalizing session with
  | nil => simp only [evaluateAll]
  | cons c cs ih =>
      have hrest : ∀ session : Session W,
          evaluateAll state cs session = evaluateAll state' cs session :=
        fun session => ih session fun d hd => h d (List.mem_cons_of_mem _ hd)
      simp only [evaluateAll, h c List.mem_cons_self session, hrest]

/-- States in which every node below a root does the same evaluate the root alike, with the
same nested runs asked for. -/
theorem evaluate_congr {state' : ProgramState} (root : Constraint W) (session : Session W)
    (h : ∀ c, Occurs c root → ∀ truths scheduler,
      c.operator.apply c.id state truths scheduler =
        c.operator.apply c.id state' truths scheduler) :
    evaluate state root session = evaluate state' root session := by
  induction root using inputs_induction generalizing session with
  | h id operator inputs ih =>
      have hinputs : ∀ session : Session W,
          evaluateAll state inputs session = evaluateAll state' inputs session :=
        fun session => evaluateAll_congr inputs session fun c hc session =>
          ih c hc session fun d hd => h d (.input _ c hc hd)
      have hown := h (node id operator inputs) .here
      simp only [Constraint.operator, Constraint.id] at hown
      simp only [evaluate, hinputs, hown]

theorem resultAll_congr {look look' : NodeId → Operator W → Except Error Eval}
    (cs : List (Constraint W)) (h : ∀ c ∈ cs, c.result look = c.result look') :
    resultAll look cs = resultAll look' cs := by
  induction cs with
  | nil => simp only [resultAll]
  | cons c cs ih =>
      have hrest := ih fun d hd => h d (List.mem_cons_of_mem _ hd)
      simp only [resultAll, h c List.mem_cons_self, hrest]

/-- The result depends on the leaves that occur. -/
theorem result_congr {look look' : NodeId → Operator W → Except Error Eval}
    (root : Constraint W)
    (h : ∀ c, Occurs c root → look c.id c.operator = look' c.id c.operator) :
    root.result look = root.result look' := by
  induction root using inputs_induction with
  | h id operator inputs ih =>
      have hinputs := resultAll_congr inputs fun c hc => ih c hc fun d hd => h d (.input _ c hc hd)
      have hown := h (node id operator inputs) .here
      simp only [Constraint.operator, Constraint.id] at hown
      simp only [result, hinputs, hown]

/-! ## Results that are not open -/

theorem resultAll_of_decided {look : NodeId → Operator W → Except Error Eval}
    {cs : List (Constraint W)} {evals : List Eval} (h : resultAll look cs = .ok evals)
    (hopen : evals.any Eval.isPending = false) :
    ∀ c ∈ cs, ∃ v, c.result look = .ok (.value v) := by
  induction cs generalizing evals with
  | nil => simp
  | cons c cs ih =>
      simp only [resultAll] at h
      split at h
      · simp at h
      · rename_i eval heval
        split at h
        · simp at h
        · rename_i evals' hevals
          obtain rfl := Except.ok.inj h
          simp only [List.any_cons, Bool.or_eq_false_iff] at hopen
          intro d hd
          rcases List.mem_cons.1 hd with rfl | hd
          · cases eval with
            | pending => simp [Eval.isPending] at hopen
            | value v => exact ⟨v, heval⟩
          · exact ih hevals hopen.2 d hd

/-- A result that is not open rests on results that are not open: nothing that occurs is
pending or fails. -/
theorem decided_of_occurs {look : NodeId → Operator W → Except Error Eval}
    {root : Constraint W} {v : Value} (h : root.result look = .ok (.value v))
    {c : Constraint W} (hc : Occurs c root) : ∃ w, c.result look = .ok (.value w) := by
  induction hc generalizing v with
  | here => exact ⟨v, h⟩
  | input root d hmem _ ih =>
      obtain ⟨id, operator, inputs⟩ := root
      simp only [result] at h
      split at h
      · simp at h
      · rename_i evals hevals
        split at h
        · simp at h
        · rename_i hopen
          obtain ⟨w, hw⟩ := resultAll_of_decided hevals (Bool.eq_false_iff.2 hopen) d hmem
          exact ih hw

/-- A leaf that is not open has the result that is looked up. -/
theorem look_eq_of_decided {look : NodeId → Operator W → Except Error Eval}
    {c : Constraint W} {v : Value} (h : c.result look = .ok (.value v))
    (hleaf : c.isConnective = false) : look c.id c.operator = .ok (.value v) := by
  obtain ⟨id, operator, inputs⟩ := c
  simp only [result] at h
  split at h
  · simp at h
  · split at h
    · simp at h
    · cases operator with
      | all => simp [isConnective, Constraint.operator] at hleaf
      | any => simp [isConnective, Constraint.operator] at hleaf
      | negation => simp [isConnective, Constraint.operator] at hleaf
      | reference | constant | pattern | call => exact h

/-- Below a result that is not open, every leaf has a value. -/
theorem exists_look_of_decided {look : NodeId → Operator W → Except Error Eval}
    {root : Constraint W} {v : Value} (h : root.result look = .ok (.value v))
    {c : Constraint W} (hc : Occurs c root) (hleaf : c.isConnective = false) :
    ∃ w, look c.id c.operator = .ok (.value w) := by
  obtain ⟨w, hw⟩ := decided_of_occurs h hc
  exact ⟨w, look_eq_of_decided hw hleaf⟩

/-- Nothing but the pattern decides, once the variable has been started. -/
theorem forward_pattern {id inputId : NodeId} {name : String} {r : Regex} {v : Variable}
    (hvar : state.find? name = some v) (scheduler : Scheduler W) :
    (Constraint.pattern id inputId name r).forward state scheduler =
      (PatternLeaf.evaluate ⟨name, r⟩ id state, scheduler) := by
  have hinput : ∀ session : Session W, session.memo = [] →
      evaluateAll state [reference inputId name] session =
        (.ok [.value (.string v.text)],
          ⟨[(inputId, .value (.string v.text))], session.scheduler⟩) := by
    intro session hmemo
    simp [evaluateAll, reference, evaluate, hmemo, Operator.apply, hvar, Session.remember]
  rw [forward, pattern, evaluate]
  simp only [List.lookup_nil, hinput ⟨[], scheduler⟩ rfl]
  cases hleaf : PatternLeaf.evaluate ⟨name, r⟩ id state with
  | error e => simp [Session.remember, Operator.apply, Eval.isPending, hleaf]
  | ok eval => simp [Session.remember, Operator.apply, Eval.isPending, hleaf]

end Constraint

end Guided
