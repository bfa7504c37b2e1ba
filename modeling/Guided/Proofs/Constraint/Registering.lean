import Guided.Proofs.Constraint.Asking
import Guided.Proofs.Constraint.Listing
import Guided.Proofs.Constraint.Satisfaction
import Guided.Proofs.Constraint.Waiting

/-!
# Evaluating shared nodes

A node that is used in several places is evaluated once. Evaluating it again in each place
would come to the same: the result would be the same, and the runs that it asks for would be
there already. No input is left out either way, so that in the end every call has its request,
behind the requests that were there and in the order in which the calls are listed.

## Main definitions

* `Scheduler.withWaiting`: a scheduler with more requests that wait.
* `Constraint.calls`: the calls of the walk.
* `Constraint.evaluateAnew`: evaluation without a memo.
* `ProgramState.Awaits`: what a leaf is pending for.

## Main statements

* `Scheduler.askAll_eq_withWaiting`: what asking for several runs leaves.
* `Constraint.Built.forward_snd`: what evaluation leaves of the scheduler.
* `Constraint.Built.forward_shared`: evaluation of a graph with shared nodes.
-/
namespace Guided

variable {W : Type}

/-! ## Requests that are added -/

namespace Scheduler

variable {s : Scheduler W} {prompt : String} {calls : List (NodeId × InlineCall W)}

/-- Behind the requests that are there one waiting request for each of some calls. -/
def withWaiting (s : Scheduler W) (prompt : String) (calls : List (NodeId × InlineCall W)) :
    Scheduler W where
  order := s.order ++ calls.map fun call => ⟨call.1, prompt⟩
  requests := s.requests ++ calls.mapIdx fun i call =>
    ⟨⟨call.1, prompt⟩, s.nextTicket + i, call.2.query, call.2.captures, .waiting, none⟩
  nextTicket := s.nextTicket + calls.length

/-- Those of several calls that have no request. -/
def unasked (s : Scheduler W) (prompt : String) (calls : List (NodeId × InlineCall W)) :
    List (NodeId × InlineCall W) :=
  calls.filter fun call => (s.request? ⟨call.1, prompt⟩).isNone

theorem withWaiting_nil (s : Scheduler W) (prompt : String) : s.withWaiting prompt [] = s := by
  simp [withWaiting]

theorem withWaiting_cons (s : Scheduler W) (prompt : String) (call : NodeId × InlineCall W)
    (calls : List (NodeId × InlineCall W)) :
    s.withWaiting prompt (call :: calls) =
      (s.withWaiting prompt [call]).withWaiting prompt calls := by
  simp [withWaiting, List.mapIdx_cons, Nat.add_assoc, Nat.add_comm 1]

theorem ask_of_none {call : NodeId × InlineCall W}
    (h : s.request? ⟨call.1, prompt⟩ = none) : s.ask prompt call = s.withWaiting prompt [call] := by
  rw [ask, register_of_none h]
  rfl

/-- **Asking for several runs** adds requests for those that have none. -/
theorem askAll_eq_withWaiting (h : (calls.map Prod.fst).Nodup) :
    s.askAll prompt calls = s.withWaiting prompt (s.unasked prompt calls) := by
  induction calls generalizing s with
  | nil => exact (s.withWaiting_nil prompt).symm
  | cons call calls ih =>
      rw [List.map_cons, List.nodup_cons] at h
      rw [askAll_cons, ih h.2]
      cases hr : s.request? ⟨call.1, prompt⟩ with
      | some r =>
          have hsame : s.ask prompt call = s := register_of_request? hr _ _
          rw [hsame, unasked, unasked, List.filter_cons_of_neg (by simp [hr])]
      | none =>
          -- The request that is added now is none of those that the others look for.
          have hothers : (s.ask prompt call).unasked prompt calls = s.unasked prompt calls := by
            refine List.filter_congr fun other hother => ?_
            have hne : call.1 ≠ other.1 := fun heq => h.1 (heq ▸ List.mem_map_of_mem hother)
            rw [ask, request?_register, if_neg (by simp [hne]), Option.or_none]
          have hunasked : s.unasked prompt (call :: calls) = call :: s.unasked prompt calls :=
            List.filter_cons_of_pos (by simp [hr])
          rw [hothers, hunasked, withWaiting_cons, ask_of_none hr]

end Scheduler

namespace Constraint

variable {root c : Constraint W} {nodes out cs : List (Constraint W)} {state : ProgramState}
  {prompt : String} {session : Session W}

/-! ## The calls of a constraint -/

/-- The call of a node with the identity of the node. -/
def namedCall? (c : Constraint W) : Option (NodeId × InlineCall W) := c.call?.map (c.id, ·)

/-- The calls of a constraint, in the order of their nodes. -/
def calls (root : Constraint W) : List (NodeId × InlineCall W) := root.walk.filterMap namedCall?

theorem namedCall?_eq_some_iff {call : NodeId × InlineCall W} :
    c.namedCall? = some call ↔ c.id = call.1 ∧ c.call? = some call.2 := by
  obtain ⟨id, inlineCall⟩ := call
  simp only [namedCall?, Option.map_eq_some_iff, Prod.mk.injEq]
  constructor
  · rintro ⟨other, hcall, hid, rfl⟩
    exact ⟨hid, hcall⟩
  · rintro ⟨hid, hcall⟩
    exact ⟨inlineCall, hcall, hid, rfl⟩

/-- The calls name the runs that are asked for. -/
theorem map_calls (root : Constraint W) (prompt : String) :
    root.calls.map (fun call => (⟨call.1, prompt⟩ : CallKey)) = root.callKeys prompt := by
  rw [calls, callKeys]
  induction root.walk with
  | nil => rfl
  | cons c cs ih =>
      cases hcall : c.call? with
      | none =>
          rw [List.filterMap_cons_none (by simp [namedCall?, hcall]),
            List.filter_cons_of_neg (by simp [hcall]), ih]
      | some inlineCall =>
          rw [List.filterMap_cons_some (b := (c.id, inlineCall)) (by simp [namedCall?, hcall]),
            List.filter_cons_of_pos (by simp [hcall]), List.map_cons, List.map_cons, ih]

theorem Built.mem_calls_iff (hb : Built nodes) (hroot : root ∈ nodes)
    {call : NodeId × InlineCall W} : call ∈ root.calls ↔ root.Calls call := by
  simp only [calls, Calls, List.mem_filterMap, namedCall?_eq_some_iff, hb.mem_walk_iff hroot]

/-- Calls are told apart by their nodes. -/
theorem Built.nodup_calls (hb : Built nodes) (hroot : root ∈ nodes) :
    (root.calls.map Prod.fst).Nodup := by
  have hsublist : ∀ cs : List (Constraint W),
      ((cs.filterMap namedCall?).map Prod.fst).Sublist (cs.map Constraint.id) := by
    intro cs
    induction cs with
    | nil => exact .slnil
    | cons c cs ih =>
        cases hnamed : c.namedCall? with
        | none =>
            rw [List.filterMap_cons_none hnamed]
            exact ih.cons _
        | some call =>
            rw [List.filterMap_cons_some hnamed, List.map_cons, List.map_cons,
              (namedCall?_eq_some_iff.1 hnamed).1]
            exact ih.cons_cons _
  exact (hb.nodup_walk hroot).sublist (hsublist root.walk)

theorem Built.nodup_callKeys (hb : Built nodes) (hroot : root ∈ nodes) (prompt : String) :
    (root.callKeys prompt).Nodup := by
  rw [← map_calls, ← Function.comp_def (fun id => (⟨id, prompt⟩ : CallKey)) Prod.fst,
    ← List.map_map]
  exact (hb.nodup_calls hroot).map fun id id' heq => congrArg CallKey.site heq

/-- Asking again for what has been asked for changes nothing, so that asking for all
occurrences of calls is asking for each call once. -/
theorem Built.askAll_noteAll (hb : Built nodes) (hout : ∀ d ∈ out, d ∈ nodes)
    (hcs : ∀ d ∈ cs, d ∈ nodes) (s : Scheduler W) (prompt : String) :
    s.askAll prompt ((noteAll out cs).filterMap namedCall?) =
      (s.askAll prompt (out.filterMap namedCall?)).askAll prompt (cs.filterMap namedCall?) := by
  induction cs generalizing out with
  | nil => rfl
  | cons c cs ih =>
      rw [List.forall_mem_cons] at hcs
      rw [noteAll_cons, ih (forall_mem_note hout hcs.1) hcs.2]
      by_cases hlisted : listed out c.id
      · have hmem := hb.mem_of_listed hout hcs.1 hlisted
        rw [note_of_listed hlisted]
        cases hnamed : c.namedCall? with
        | none => rw [List.filterMap_cons_none hnamed]
        | some call =>
            have hasked : call ∈ out.filterMap namedCall? := List.mem_filterMap.2 ⟨c, hmem, hnamed⟩
            have hsame : (s.askAll prompt (out.filterMap namedCall?)).askAll prompt [call] =
                s.askAll prompt (out.filterMap namedCall?) :=
              Scheduler.askAll_of_isSome
                (by simpa using Scheduler.isSome_request?_askAll hasked)
            rw [List.filterMap_cons_some hnamed, ← List.singleton_append,
              Scheduler.askAll_append, hsame]
      · rw [note_of_new hlisted, ← Scheduler.askAll_append, ← Scheduler.askAll_append,
          ← List.filterMap_append, ← List.filterMap_append, List.append_assoc,
          List.singleton_append]

theorem Built.askAll_preorder (hb : Built nodes) (hroot : root ∈ nodes) (s : Scheduler W)
    (prompt : String) :
    s.askAll prompt (root.preorder.filterMap namedCall?) = s.askAll prompt root.calls := by
  have hbelow : ∀ d ∈ root.preorder, d ∈ nodes :=
    fun d hd => hb.mem_of_occurs hroot (mem_preorder_iff.1 hd)
  rw [calls, hb.walk_eq_noteAll hroot, hb.askAll_noteAll (by simp) hbelow]
  rfl

/-! ## Evaluation -/

/-- A node that makes a call has no inputs, so that its own call comes behind theirs as well
as before them. -/
theorem namedCalls_node {id : NodeId} {operator : Operator W} {inputs : List (Constraint W)}
    (form : Constructed (node id operator inputs)) :
    (node id operator inputs).preorder.filterMap namedCall? =
      (preorderAll inputs).filterMap namedCall? ++ (node id operator inputs).namedCall?.toList := by
  rw [preorder]
  cases form with
  | call id inlineCall => rfl
  | all | any | negation | reference | constant | pattern =>
      rw [List.filterMap_cons_none rfl]
      exact (List.append_nil _).symm

/-- A node that waits for an input has no call of its own. -/
theorem namedCall?_of_pending {id : NodeId} {operator : Operator W} {inputs : List (Constraint W)}
    (form : Constructed (node id operator inputs)) {evals : List Eval}
    (hnone : inputs = [] → evals = []) (hopen : evals.any Eval.isPending = true) :
    (node id operator inputs).namedCall? = none := by
  cases form with
  | call => simp [hnone rfl] at hopen
  | all | any | negation | reference | constant | pattern => rfl

/-- A node asks for its own call and for nothing else. -/
theorem apply_snd (id : NodeId) (operator : Operator W) (inputs : List (Constraint W))
    (state : ProgramState) (truths : List Bool) (scheduler : Scheduler W) :
    (operator.apply id state truths scheduler).2 =
      scheduler.askAll state.prompt (node id operator inputs).namedCall?.toList := by
  cases operator with
  | reference name =>
      rw [Operator.apply]
      split <;> rfl
  | all | any | negation | constant | pattern | call => rfl

theorem Built.evaluateAll_snd (hb : Built nodes) (hcs : ∀ c ∈ cs, c ∈ nodes)
    (hmemo : MemoAsked nodes state.prompt session)
    (h : ∀ c ∈ cs, ∀ session : Session W, MemoAsked nodes state.prompt session → ∀ eval,
      (evaluate state c session).1 = .ok eval → (evaluate state c session).2.scheduler =
        session.scheduler.askAll state.prompt (c.preorder.filterMap namedCall?))
    {evals : List Eval} (hok : (evaluateAll state cs session).1 = .ok evals) :
    (evaluateAll state cs session).2.scheduler =
      session.scheduler.askAll state.prompt ((preorderAll cs).filterMap namedCall?) := by
  induction cs generalizing session evals with
  | nil => rw [evaluateAll, preorderAll, List.filterMap_nil, Scheduler.askAll_nil]
  | cons c cs ih =>
      rw [List.forall_mem_cons] at hcs h
      have hfirst := h.1 session hmemo
      have hmemo' : MemoAsked nodes state.prompt (evaluate state c session).2 :=
        (hb.evaluate_asked hcs.1 hmemo).1
      rw [evaluateAll] at hok ⊢
      generalize evaluate state c session = first at hfirst hmemo' hok ⊢
      obtain ⟨_ | eval, session'⟩ := first
      · simp at hok
      · have hrest : ∀ evals, (evaluateAll state cs session').1 = .ok evals →
            (evaluateAll state cs session').2.scheduler =
              session'.scheduler.askAll state.prompt ((preorderAll cs).filterMap namedCall?) :=
          fun evals => ih hcs.2 hmemo' h.2
        dsimp only at hok ⊢
        generalize evaluateAll state cs session' = others at hrest hok ⊢
        obtain ⟨_ | evals', session''⟩ := others
        · simp at hok
        · rw [hrest evals' rfl, hfirst eval rfl, preorderAll, List.filterMap_append,
            Scheduler.askAll_append]

/-- An evaluation that does not fail has asked for the calls of all occurrences below the
node, in their order. -/
theorem Built.evaluate_snd (hb : Built nodes) (hc : c ∈ nodes)
    (hmemo : MemoAsked nodes state.prompt session) {eval : Eval}
    (hok : (evaluate state c session).1 = .ok eval) :
    (evaluate state c session).2.scheduler =
      session.scheduler.askAll state.prompt (c.preorder.filterMap namedCall?) := by
  induction c using inputs_induction generalizing session eval with
  | h id operator inputs ih =>
      rw [evaluate] at hok ⊢
      cases hlook : session.memo.lookup id with
      | some eval =>
          -- The node has been evaluated, and what is below it has been asked for.
          refine (Scheduler.askAll_of_isSome ?_).symm
          intro call hcall
          obtain ⟨d, hd, hnamed⟩ := List.mem_filterMap.1 hcall
          exact hmemo _ hc (by rw [Constraint.id, hlook]; rfl) call
            ⟨d, mem_preorder_iff.1 hd, namedCall?_eq_some_iff.1 hnamed⟩
      | none =>
          have hform := hb.constructed hc
          have hinputs : ∀ evals, (evaluateAll state inputs session).1 = .ok evals →
              (evaluateAll state inputs session).2.scheduler =
                session.scheduler.askAll state.prompt ((preorderAll inputs).filterMap namedCall?) :=
            fun evals => hb.evaluateAll_snd (fun d hd => hb.input_mem hc hd) hmemo
              fun d hd session hmemo eval => ih d hd (hb.input_mem hc hd) hmemo
          have hnone : inputs = [] → ∀ evals, (evaluateAll state inputs session).1 = .ok evals →
              evals = [] := by
            rintro rfl
            simp [evaluateAll]
          simp only [hlook] at hok
          rw [namedCalls_node hform, Scheduler.askAll_append]
          dsimp only
          generalize evaluateAll state inputs session = run at hinputs hnone hok ⊢
          obtain ⟨_ | evals, session'⟩ := run
          · simp at hok
          · rw [← hinputs evals rfl]
            dsimp only
            split
            · rename_i hopen
              rw [namedCall?_of_pending hform (fun hnil => hnone hnil evals rfl) hopen]
              rfl
            · rw [← apply_snd id operator inputs state (evals.filterMap Eval.truth?)]
              generalize operator.apply id state (evals.filterMap Eval.truth?)
                session'.scheduler = applied
              obtain ⟨_ | eval, scheduler⟩ := applied <;> rfl

/-- **What evaluation leaves of the scheduler**, if it does not fail: each call that had no
request has one now. -/
theorem Built.forward_snd (hb : Built nodes) (hroot : root ∈ nodes) {scheduler : Scheduler W}
    {eval : Eval} (h : (root.forward state scheduler).1 = .ok eval) :
    (root.forward state scheduler).2 =
      scheduler.withWaiting state.prompt (scheduler.unasked state.prompt root.calls) := by
  rw [← Scheduler.askAll_eq_withWaiting (hb.nodup_calls hroot), ← hb.askAll_preorder hroot]
  exact hb.evaluate_snd hroot (memoAsked_nil nodes state.prompt scheduler) h

end Constraint

/-! ## Evaluation without a memo -/

mutual

/-- Evaluate a node after its inputs, wherever it occurs and however often. -/
def Constraint.evaluateAnew {W : Type} (state : ProgramState) :
    Constraint W → Scheduler W → Except Error Eval × Scheduler W
  | .node id operator inputs, scheduler =>
      match Constraint.evaluateAllAnew state inputs scheduler with
      | (.error e, scheduler) => (.error e, scheduler)
      | (.ok evals, scheduler) =>
          if evals.any Eval.isPending then (.ok .pending, scheduler)
          else operator.apply id state (evals.filterMap Eval.truth?) scheduler

/-- Evaluate nodes from left to right up to the first error. -/
def Constraint.evaluateAllAnew {W : Type} (state : ProgramState) :
    List (Constraint W) → Scheduler W → Except Error (List Eval) × Scheduler W
  | [], scheduler => (.ok [], scheduler)
  | c :: rest, scheduler =>
      match Constraint.evaluateAnew state c scheduler with
      | (.error e, scheduler) => (.error e, scheduler)
      | (.ok eval, scheduler) =>
          match Constraint.evaluateAllAnew state rest scheduler with
          | (.error e, scheduler) => (.error e, scheduler)
          | (.ok evals, scheduler) => (.ok (eval :: evals), scheduler)

end

namespace Constraint

variable {root c : Constraint W} {nodes cs : List (Constraint W)} {state : ProgramState}
  {look : NodeId → Operator W → Except Error Eval}

theorem exists_resultAll_of_ok (h : ∀ c ∈ cs, ∃ eval, c.result look = .ok eval) :
    ∃ evals, resultAll look cs = .ok evals := by
  induction cs with
  | nil => exact ⟨[], rfl⟩
  | cons c cs ih =>
      rw [List.forall_mem_cons] at h
      obtain ⟨eval, heval⟩ := h.1
      obtain ⟨evals, hevals⟩ := ih h.2
      exact ⟨eval :: evals, by rw [resultAll, heval, hevals]⟩

/-- Only leaves fail. -/
theorem exists_result_of_ok (root : Constraint W)
    (h : ∀ c, Occurs c root → c.isConnective = false → ∃ eval, look c.id c.operator = .ok eval) :
    ∃ eval, root.result look = .ok eval := by
  induction root using inputs_induction with
  | h id operator inputs ih =>
      have hinputs : ∀ c ∈ inputs, ∃ eval, c.result look = .ok eval :=
        fun c hc => ih c hc fun d hd => h d (.input _ c hc hd)
      obtain ⟨evals, hevals⟩ := exists_resultAll_of_ok hinputs
      have hown := h _ .here
      rw [result, hevals]
      dsimp only
      split
      · exact ⟨_, rfl⟩
      · cases operator with
        | all | any | negation => exact ⟨_, rfl⟩
        | reference | constant | pattern | call => exact hown rfl

theorem evaluateAllAnew_eq
    (h : ∀ c ∈ cs, ∀ scheduler, c.evaluateAnew state scheduler =
      (c.result state.leafResult, scheduler.askAll state.prompt (c.preorder.filterMap namedCall?)))
    (hok : ∀ c ∈ cs, ∃ eval, c.result state.leafResult = .ok eval) (scheduler : Scheduler W) :
    evaluateAllAnew state cs scheduler =
      (resultAll state.leafResult cs,
        scheduler.askAll state.prompt ((preorderAll cs).filterMap namedCall?)) := by
  induction cs generalizing scheduler with
  | nil => rfl
  | cons c cs ih =>
      rw [List.forall_mem_cons] at h hok
      obtain ⟨eval, heval⟩ := hok.1
      obtain ⟨evals, hevals⟩ := exists_resultAll_of_ok hok.2
      rw [evaluateAllAnew, h.1, heval]
      dsimp only
      rw [ih h.2 hok.2, hevals, resultAll, heval, hevals, preorderAll, List.filterMap_append,
        Scheduler.askAll_append]

/-- Evaluation without a memo asks for calls at each of their occurrences. -/
theorem evaluateAnew_eq (root : Constraint W) (form : ∀ c, Occurs c root → Constructed c)
    (hok : ∀ c, Occurs c root → ∃ eval, c.result state.leafResult = .ok eval)
    (scheduler : Scheduler W) :
    root.evaluateAnew state scheduler =
      (root.result state.leafResult,
        scheduler.askAll state.prompt (root.preorder.filterMap namedCall?)) := by
  induction root using inputs_induction generalizing scheduler with
  | h id operator inputs ih =>
      have hinputsOk : ∀ c ∈ inputs, ∃ eval, c.result state.leafResult = .ok eval :=
        fun c hc => hok c (.input _ c hc .here)
      have hinputs := evaluateAllAnew_eq
        (fun c hc => ih c hc (fun d hd => form d (.input _ c hc hd))
          fun d hd => hok d (.input _ c hc hd)) hinputsOk
      have hform := form _ .here
      obtain ⟨evals, hevals⟩ := exists_resultAll_of_ok hinputsOk
      have hnone : inputs = [] → evals = [] := by
        rintro rfl
        simpa [resultAll] using hevals.symm
      rw [evaluateAnew, hinputs, result, hevals, namedCalls_node hform, Scheduler.askAll_append]
      dsimp only
      split
      · rename_i hopen
        rw [namedCall?_of_pending hform hnone hopen]
        rfl
      · exact Prod.ext (operator.apply_fst id state _ _) (apply_snd id operator inputs state _ _)

end Constraint

/-! ## What is pending -/

/-- What a leaf is pending for: a variable that has not been started, or a result that has
not been published. -/
def ProgramState.Awaits (s : ProgramState) (id : NodeId) : Operator W → Prop
  | .reference name => s.find? name = none
  | .pattern leaf => s.find? leaf.variableName = none
  | .call _ => s.results.get? ⟨id, s.prompt⟩ = none
  | .constant _ | .all | .any | .negation => False

namespace Constraint

variable {root : Constraint W} {nodes : List (Constraint W)} {state : ProgramState}
  {look : NodeId → Operator W → Except Error Eval}

/-- Whole-text matching has an answer for every pattern on a finished variable. -/
def Matchable (root : Constraint W) (state : ProgramState) : Prop :=
  ∀ c, Occurs c root → ∀ leaf, c.pattern? = some leaf →
    ∀ v, state.find? leaf.variableName = some v → v.finished = true →
      ∃ b, leaf.regex.fullMatch v.text = .ok b

/-- Then no leaf fails. -/
theorem Matchable.exists_leafResult (h : root.Matchable state) {c : Constraint W}
    (hc : Occurs c root) : ∃ eval, state.leafResult c.id c.operator = .ok eval := by
  obtain ⟨id, operator, inputs⟩ := c
  cases operator with
  | all | any | negation | constant | call => exact ⟨_, rfl⟩
  | reference name =>
      rw [Constraint.operator, ProgramState.leafResult]
      split <;> exact ⟨_, rfl⟩
  | pattern leaf =>
      rw [Constraint.operator, ProgramState.leafResult, PatternLeaf.evaluate]
      split
      · exact ⟨_, rfl⟩
      · rename_i v hv
        split
        · rename_i hfinished
          obtain ⟨b, hmatch⟩ := h _ hc leaf rfl v hv hfinished
          exact ⟨.ofBool b, by rw [hmatch, Except.map]⟩
        · exact ⟨_, rfl⟩

theorem leafResult_eq_pending_iff {c : Constraint W} (hleaf : c.isConnective = false) :
    state.leafResult c.id c.operator = .ok .pending ↔ state.Awaits c.id c.operator := by
  obtain ⟨id, operator, inputs⟩ := c
  cases operator with
  | all | any | negation => simp [isConnective, Constraint.operator] at hleaf
  | constant v => simp [Constraint.operator, ProgramState.leafResult, ProgramState.Awaits]
  | reference name =>
      rw [Constraint.operator, ProgramState.leafResult, ProgramState.Awaits]
      cases state.find? name <;> simp
  | call inlineCall =>
      rw [Constraint.operator, ProgramState.leafResult, ProgramState.Awaits, callResult,
        Constraint.id]
      cases state.results.get? ⟨id, state.prompt⟩ <;> simp
  | pattern leaf =>
      rw [Constraint.operator, ProgramState.leafResult, ProgramState.Awaits, PatternLeaf.evaluate]
      cases state.find? leaf.variableName with
      | none => simp
      | some v =>
          dsimp only
          split
          · cases leaf.regex.fullMatch v.text <;> simp [Except.map, Eval.ofBool]
          · simp [Eval.ofBool]

theorem isConnective_of_awaits {c : Constraint W} (h : state.Awaits c.id c.operator) :
    c.isConnective = false := by
  obtain ⟨id, operator, inputs⟩ := c
  cases operator with
  | all | any | negation | constant => exact h.elim
  | reference | pattern | call => rfl

/-- A result is pending if and only if a leaf is. -/
theorem result_eq_pending_iff {eval : Eval} (h : root.result state.leafResult = .ok eval) :
    eval = .pending ↔ ∃ c, Occurs c root ∧ state.Awaits c.id c.operator := by
  constructor
  · rintro rfl
    by_contra hnone
    refine result_ne_pending root ?_ h
    intro c hc hleaf hpending
    exact hnone ⟨c, hc, (leafResult_eq_pending_iff hleaf).1 hpending⟩
  · rintro ⟨c, hc, hawaits⟩
    cases eval with
    | pending => rfl
    | value v =>
        have hleaf := isConnective_of_awaits hawaits
        obtain ⟨w, hw⟩ := exists_look_of_decided h hc hleaf
        rw [(leafResult_eq_pending_iff hleaf).2 hawaits] at hw
        simp at hw

/-- A connective that is decided is true or false. -/
theorem exists_bool_of_connective {v : Value} (h : root.result look = .ok (.value v))
    (hroot : root.isConnective = true) : ∃ b, v = .bool b := by
  obtain ⟨id, operator, inputs⟩ := root
  rw [result] at h
  split at h
  · simp at h
  · split at h
    · simp at h
    · cases operator with
      | all | any | negation => exact ⟨_, (Eval.value.inj (Except.ok.inj h)).symm⟩
      | reference | constant | pattern | call =>
          simp [isConnective, Constraint.operator] at hroot

/-- **Evaluation of a graph with shared nodes**, if whole-text matching has an answer wherever
it is asked. It is evaluation without a memo. It is pending exactly if a leaf below the root
is; otherwise it is the truth of the formula over what the leaves show, or the own value of a
root that is a leaf. In any case each call below the root has its request afterwards: those
that had none have been added once, in the order in which calls are listed. -/
theorem Built.forward_shared (hb : Built nodes) (hroot : root ∈ nodes) (state : ProgramState)
    (scheduler : Scheduler W) (hmatch : root.Matchable state) :
    root.forward state scheduler = root.evaluateAnew state scheduler ∧
      (∃ eval, (root.forward state scheduler).1 = .ok eval ∧
        (eval = .pending ↔ ∃ c, Occurs c root ∧ state.Awaits c.id c.operator) ∧
        (eval ≠ .pending →
          (root.isConnective = true →
            ∃ b, eval = .ofBool b ∧ (b = true ↔ root.Holds (Shows state.leafResult))) ∧
          (root.isConnective = false → state.leafResult root.id root.operator = .ok eval))) ∧
      (root.forward state scheduler).2 =
        scheduler.withWaiting state.prompt (scheduler.unasked state.prompt root.calls) ∧
      (∀ call, root.Calls call →
        ((root.forward state scheduler).2.request? ⟨call.1, state.prompt⟩).isSome) ∧
      (root.calls.map fun call => (⟨call.1, state.prompt⟩ : CallKey)) =
        root.callKeys state.prompt ∧
      (root.callKeys state.prompt).Nodup := by
  have hform : ∀ c, Occurs c root → Constructed c :=
    fun c hc => hb.constructed_of_occurs hroot hc
  have hleaves : ∀ c, Occurs c root → ∃ eval, c.result state.leafResult = .ok eval :=
    fun c hc => exists_result_of_ok c fun d hd _ => hmatch.exists_leafResult (hd.trans hc)
  obtain ⟨eval, heval⟩ := hleaves root .here
  have hresult : (root.forward state scheduler).1 = root.result state.leafResult :=
    hb.forward_eq_result hroot scheduler
  have hok : (root.forward state scheduler).1 = .ok eval := hresult.trans heval
  have hpending := result_eq_pending_iff heval
  refine ⟨?_, ⟨eval, hok, hpending, ?_⟩, hb.forward_snd hroot hok, ?_, root.map_calls _,
    hb.nodup_callKeys hroot _⟩
  · rw [evaluateAnew_eq root hform hleaves, hb.askAll_preorder hroot]
    refine Prod.ext hresult ?_
    rw [hb.forward_snd hroot hok, Scheduler.askAll_eq_withWaiting (hb.nodup_calls hroot)]
  · intro hdecided
    cases eval with
    | pending => exact absurd rfl hdecided
    | value v =>
        refine ⟨?_, look_eq_of_decided heval⟩
        intro hconnective
        obtain ⟨b, rfl⟩ := exists_bool_of_connective heval hconnective
        obtain ⟨w, hw, htruth⟩ := exists_result_of_shows state.leafResult root hform
          fun c hc hleaf => exists_look_of_decided heval hc hleaf
        obtain rfl : w = .bool b := Eval.value.inj (Except.ok.inj (hw.symm.trans heval))
        exact ⟨b, rfl, htruth⟩
  · intro call hcall
    have hkey : (⟨call.1, state.prompt⟩ : CallKey) ∈ root.callKeys state.prompt := by
      rw [← map_calls]
      exact List.mem_map.2 ⟨call, (hb.mem_calls_iff hroot).2 hcall, rfl⟩
    exact hb.isSome_request?_forward hroot hok _ hkey

end Constraint

namespace Sample

/-- An alternative that is decided before the call is looked at. -/
def decided : Constraint Journal := .constant ⟨"yes", 2⟩ (.bool true)

/-- The negation of the call. -/
def denied : Constraint Journal := .negation ⟨"not", 3⟩ called

/-- The call twice, behind an alternative that decides. -/
def twice : Constraint Journal := .any ⟨"any", 4⟩ [decided, denied, called]

theorem built_twice : Constraint.Built [twice, denied, decided, called] := by
  have hdecided : Constraint.Built [decided, called] :=
    .make decided [called] (.constant _ _)
      (by simp [decided, Constraint.constant, Constraint.inputs])
      (by simp [decided, called, Constraint.constant, Constraint.call, Constraint.id]) built_called
  have hdenied : Constraint.Built [denied, decided, called] :=
    .make denied [decided, called] (.negation _ _)
      (by simp [denied, Constraint.negation, Constraint.inputs])
      (by simp [denied, decided, called, Constraint.negation, Constraint.constant, Constraint.call,
        Constraint.id]) hdecided
  exact .make twice [denied, decided, called] (.any _ _)
    (by simp [twice, Constraint.any, Constraint.inputs])
    (by simp [twice, denied, decided, called, Constraint.any, Constraint.negation,
      Constraint.constant, Constraint.call, Constraint.id]) hdenied

theorem matchable_twice (state : ProgramState) : twice.Matchable state := by
  have hpattern : ∀ c ∈ [twice, denied, decided, called], c.pattern? = none := by
    simp [twice, denied, decided, called, Constraint.any, Constraint.negation,
      Constraint.constant, Constraint.call, Constraint.pattern?, Constraint.operator]
  intro c hc leaf hleaf
  rw [hpattern c (built_twice.mem_of_occurs List.mem_cons_self hc)] at hleaf
  simp at hleaf

theorem calls_twice :
    ∃ inlineCall, called.call? = some inlineCall ∧ twice.calls = [(⟨"good", 1⟩, inlineCall)] := by
  have hwalk : twice.walk = [twice, decided, denied, called] := by
    simp [twice, denied, decided, called, Constraint.walk, Constraint.walkFrom, Constraint.listed,
      Constraint.any, Constraint.negation, Constraint.constant, Constraint.call, Constraint.id]
  refine ⟨_, rfl, ?_⟩
  rw [Constraint.calls, hwalk]
  rfl

end Sample

/-- A call that occurs twice and could be spared has one request in the end. -/
theorem Constraint.forward_shared_twice :
    ∃ r : Request Journal, r.key = ⟨⟨"good", 1⟩, ""⟩ ∧ r.state = .waiting ∧
      (Sample.twice.forward (.start "") .empty).2 = ⟨[⟨⟨"good", 1⟩, ""⟩], [r], 1⟩ ∧
      Sample.twice.forward (.start "") .empty = Sample.twice.evaluateAnew (.start "") .empty := by
  obtain ⟨hanew, -, hscheduler, -, -⟩ := Sample.built_twice.forward_shared List.mem_cons_self
    (.start "") .empty (Sample.matchable_twice _)
  obtain ⟨inlineCall, -, hcalls⟩ := Sample.calls_twice
  refine ⟨⟨⟨⟨"good", 1⟩, ""⟩, 0, inlineCall.query, inlineCall.captures, .waiting, none⟩, rfl, rfl,
    ?_, hanew⟩
  rw [hscheduler, hcalls]
  rfl

end Guided
