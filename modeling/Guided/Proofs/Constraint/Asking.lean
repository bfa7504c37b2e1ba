import Guided.Constraint.Postprocess
import Guided.Proofs.Constraint.Construction
import Guided.Proofs.Request.Rounds
import Guided.Query.Scripted

/-!
# What evaluation asks for

Evaluating a constraint asks for the nested runs of calls that occur in it and does nothing
else to the scheduler. Which runs it asks for, and its answer, do not depend on what the
scheduler holds, so that requests of others cannot be seen by it. On a graph made by the
constructors an evaluation that does not fail has asked for every call.

## Main definitions

* `Scheduler.askAll`: asking for several runs.
* `Constraint.Asks`: an evaluation that only asks for runs.

## Main statements

* `Constraint.exists_askAll_forward`: evaluation only asks for runs of its own calls.
* `Constraint.Built.isSome_request?_forward`: all calls have been asked for.
-/
namespace Guided

variable {W : Type}

/-! ## Asking for several runs -/

namespace Scheduler

/-- Ask for the run of a call, which comes with the identity of its node. -/
def ask (prompt : String) (s : Scheduler W) (call : NodeId × InlineCall W) : Scheduler W :=
  s.register ⟨call.1, prompt⟩ call.2.query call.2.captures

/-- Ask for the runs of several calls, one after the other. -/
def askAll (prompt : String) (s : Scheduler W) (calls : List (NodeId × InlineCall W)) :
    Scheduler W :=
  calls.foldl (ask prompt) s

variable {s : Scheduler W} {prompt : String} {calls : List (NodeId × InlineCall W)}

@[simp] theorem askAll_nil (prompt : String) (s : Scheduler W) : s.askAll prompt [] = s := rfl

theorem askAll_cons (prompt : String) (s : Scheduler W) (call : NodeId × InlineCall W)
    (calls : List (NodeId × InlineCall W)) :
    s.askAll prompt (call :: calls) = (s.ask prompt call).askAll prompt calls := rfl

theorem askAll_append (prompt : String) (s : Scheduler W)
    (calls more : List (NodeId × InlineCall W)) :
    s.askAll prompt (calls ++ more) = (s.askAll prompt calls).askAll prompt more :=
  List.foldl_append

/-- Requests that are there stay as they are. -/
theorem request?_askAll {key : CallKey} {r : Request W} (h : s.request? key = some r)
    (prompt : String) (calls : List (NodeId × InlineCall W)) :
    (s.askAll prompt calls).request? key = some r := by
  induction calls generalizing s with
  | nil => exact h
  | cons call calls ih =>
      rw [askAll_cons]
      refine ih ?_
      rw [ask, request?_register, h, Option.some_or]

theorem isSome_request?_askAll {call : NodeId × InlineCall W} (h : call ∈ calls) :
    ((s.askAll prompt calls).request? ⟨call.1, prompt⟩).isSome := by
  induction calls generalizing s with
  | nil => simp at h
  | cons first calls ih =>
      rw [askAll_cons]
      rcases List.mem_cons.1 h with rfl | h
      · obtain ⟨r, hr⟩ : ∃ r, (s.ask prompt call).request? ⟨call.1, prompt⟩ = some r := by
          rw [ask, request?_register, if_pos rfl]
          cases s.request? ⟨call.1, prompt⟩ with
          | none => exact ⟨_, rfl⟩
          | some r => exact ⟨r, rfl⟩
        rw [request?_askAll hr]
        rfl
      · exact ih h

/-- Asking once more for what is there changes nothing. -/
theorem askAll_of_isSome (h : ∀ call ∈ calls, (s.request? ⟨call.1, prompt⟩).isSome) :
    s.askAll prompt calls = s := by
  induction calls with
  | nil => rfl
  | cons call calls ih =>
      rw [List.forall_mem_cons] at h
      obtain ⟨r, hr⟩ := Option.isSome_iff_exists.1 h.1
      rw [askAll_cons, ask, register_of_request? hr]
      exact ih h.2

theorem askAll_askAll (prompt : String) (s : Scheduler W)
    (calls : List (NodeId × InlineCall W)) :
    (s.askAll prompt calls).askAll prompt calls = s.askAll prompt calls :=
  askAll_of_isSome fun _ h => isSome_request?_askAll h

end Scheduler

theorem Bench.Works.askAll {n : Nat} {b b' : Bench W} (h : Bench.Works n b b') (prompt : String)
    (calls : List (NodeId × InlineCall W)) :
    Bench.Works n b { b' with scheduler := b'.scheduler.askAll prompt calls } := by
  induction calls generalizing b' with
  | nil => exact h
  | cons call calls ih =>
      exact ih (.ask n b b' ⟨call.1, prompt⟩ call.2.query call.2.captures h)

/-! ## Evaluation -/

/-- A pattern is beyond a limit of whole-text matching. -/
def Error.AtLimit (err : Error) : Prop := ∃ limit, err = .internal (.matchLimit limit)

theorem Regex.atLimit_of_fullMatch {r : Regex} {text : String} {err : Error}
    (h : r.fullMatch text = .error err) : err.AtLimit := by
  rw [Regex.fullMatch, Pattern.fullMatch] at h
  split at h
  · rename_i limit _
    exact ⟨limit, (Except.error.inj h).symm⟩
  · simp at h

theorem PatternLeaf.atLimit_of_evaluate {leaf : PatternLeaf} {id : NodeId}
    {state : ProgramState} {err : Error} (h : leaf.evaluate id state = .error err) :
    err.AtLimit := by
  rw [PatternLeaf.evaluate] at h
  split at h
  · simp at h
  · rename_i v _
    split at h
    · cases hmatch : leaf.regex.fullMatch v.text with
      | error e =>
          rw [hmatch] at h
          obtain rfl : e = err := Except.error.inj h
          exact Regex.atLimit_of_fullMatch hmatch
      | ok b => simp [hmatch, Except.map] at h
    · simp at h

namespace Constraint

/-- The call of a node that occurs in a constraint. -/
def Calls (root : Constraint W) (call : NodeId × InlineCall W) : Prop :=
  ∃ c, Occurs c root ∧ c.id = call.1 ∧ c.call? = some call.2

/-- What is evaluated asks for runs of some calls and does nothing else to the scheduler, and
it fails only where a pattern is beyond a limit. What it asks for and its answer depend on what
has been evaluated before, and not on the scheduler. -/
def Asks {α : Type} (prompt : String) (P : NodeId × InlineCall W → Prop)
    (run : Session W → Except Error α × Session W) : Prop :=
  ∀ memo, ∃ answer memo' calls, (∀ call ∈ calls, P call) ∧
    (∀ err, answer = .error err → err.AtLimit) ∧
      ∀ scheduler, run ⟨memo, scheduler⟩ = (answer, ⟨memo', scheduler.askAll prompt calls⟩)

theorem Asks.mono {α : Type} {prompt : String} {P Q : NodeId × InlineCall W → Prop}
    {run : Session W → Except Error α × Session W} (h : Asks prompt P run)
    (himp : ∀ call, P call → Q call) : Asks prompt Q run := by
  intro memo
  obtain ⟨answer, memo', calls, hcalls, hrest⟩ := h memo
  exact ⟨answer, memo', calls, fun call hmem => himp call (hcalls call hmem), hrest⟩

variable {state : ProgramState} {root c : Constraint W}

theorem asks_evaluateAll {P : NodeId × InlineCall W → Prop} (cs : List (Constraint W))
    (h : ∀ c ∈ cs, Asks state.prompt P (evaluate state c)) :
    Asks state.prompt P (evaluateAll state cs) := by
  induction cs with
  | nil =>
      intro memo
      exact ⟨.ok [], memo, [], by simp, by simp, fun scheduler => by simp [evaluateAll]⟩
  | cons c cs ih =>
      intro memo
      rw [List.forall_mem_cons] at h
      obtain ⟨answer, memo₁, calls, hcalls, hlimit, heq⟩ := h.1 memo
      obtain ⟨answers, memo₂, more, hmore, hlimits, heqs⟩ := ih h.2 memo₁
      cases answer with
      | error err =>
          refine ⟨.error err, memo₁, calls, hcalls, ?_, fun scheduler => ?_⟩
          · intro e he
            exact hlimit e (by rw [Except.error.inj he])
          · simp only [evaluateAll, heq]
      | ok eval =>
          refine ⟨answers.map (eval :: ·), memo₂, calls ++ more, ?_, ?_, fun scheduler => ?_⟩
          · intro call hmem
            exact (List.mem_append.1 hmem).elim (hcalls call) (hmore call)
          · intro e he
            cases answers with
            | error err => exact hlimits e (by rw [Except.error.inj he])
            | ok evals => simp [Except.map] at he
          · simp only [evaluateAll, heq, heqs, Scheduler.askAll_append]
            cases answers <;> rfl

/-- What a node does once its inputs have been decided. -/
theorem exists_askAll_apply (id : NodeId) (operator : Operator W) (inputs : List (Constraint W))
    (state : ProgramState) (truths : List Bool) :
    ∃ answer calls, (∀ call ∈ calls, (node id operator inputs).Calls call) ∧
      (∀ err, answer = .error err → err.AtLimit) ∧
        ∀ scheduler, operator.apply id state truths scheduler =
          (answer, scheduler.askAll state.prompt calls) := by
  cases operator with
  | call inlineCall =>
      refine ⟨_, [(id, inlineCall)], ?_, by simp, fun scheduler => rfl⟩
      simpa using ⟨_, .here, rfl, rfl⟩
  | reference name =>
      cases hfind : state.find? name with
      | none =>
          exact ⟨.ok .pending, [], by simp, by simp, fun scheduler => by
            simp only [Operator.apply, hfind, Scheduler.askAll_nil]⟩
      | some v =>
          exact ⟨.ok (.value (.string v.text)), [], by simp, by simp, fun scheduler => by
            simp only [Operator.apply, hfind, Scheduler.askAll_nil]⟩
  | pattern leaf =>
      exact ⟨leaf.evaluate id state, [], by simp, fun err => leaf.atLimit_of_evaluate,
        fun scheduler => rfl⟩
  | all | any | negation | constant => exact ⟨_, [], by simp, by simp, fun scheduler => rfl⟩

/-- Evaluating a node asks for runs of calls that occur in it. -/
theorem asks_evaluate (state : ProgramState) (c : Constraint W) :
    Asks state.prompt c.Calls (evaluate state c) := by
  induction c using inputs_induction with
  | h id operator inputs ih =>
      have hinputs : Asks state.prompt (node id operator inputs).Calls
          (evaluateAll state inputs) := by
        refine asks_evaluateAll inputs fun c hc => (ih c hc).mono ?_
        rintro call ⟨d, hd, hcall⟩
        exact ⟨d, .input _ c hc hd, hcall⟩
      intro memo
      cases hlook : memo.lookup id with
      | some eval =>
          refine ⟨.ok eval, memo, [], by simp, by simp, fun scheduler => ?_⟩
          simp only [evaluate, hlook, Scheduler.askAll_nil]
      | none =>
          obtain ⟨answer, memo₁, calls, hcalls, hlimit, heq⟩ := hinputs memo
          cases answer with
          | error err =>
              refine ⟨.error err, memo₁, calls, hcalls, ?_, fun scheduler => ?_⟩
              · intro e he
                exact hlimit e (by rw [Except.error.inj he])
              · simp only [evaluate, hlook, heq]
          | ok evals =>
              by_cases hopen : evals.any Eval.isPending = true
              · refine ⟨.ok .pending, (id, .pending) :: memo₁, calls, hcalls, by simp,
                  fun scheduler => ?_⟩
                simp only [evaluate, hlook, heq, hopen, if_true, Session.remember]
              · obtain ⟨own, asked, hasked, hownLimit, happly⟩ :=
                  exists_askAll_apply id operator inputs state (evals.filterMap Eval.truth?)
                have hboth : ∀ call ∈ calls ++ asked, (node id operator inputs).Calls call :=
                  fun call hmem => (List.mem_append.1 hmem).elim (hcalls call) (hasked call)
                cases own with
                | error err =>
                    refine ⟨.error err, memo₁, calls ++ asked, hboth, ?_, fun scheduler => ?_⟩
                    · intro e he
                      exact hownLimit e (by rw [Except.error.inj he])
                    · simp only [evaluate, hlook, heq, hopen, if_false, happly, Session.remember,
                        Scheduler.askAll_append, Bool.false_eq_true]
                | ok eval =>
                    refine ⟨.ok eval, (id, eval) :: memo₁, calls ++ asked, hboth, by simp,
                      fun scheduler => ?_⟩
                    simp only [evaluate, hlook, heq, hopen, if_false, happly, Session.remember,
                      Scheduler.askAll_append, Bool.false_eq_true]

/-- **Evaluation and the scheduler.** It asks for runs of its own calls, the same ones whatever
the scheduler holds, and its answer does not depend on the scheduler. -/
theorem exists_askAll_forward (root : Constraint W) (state : ProgramState) :
    ∃ answer calls, (∀ call ∈ calls, root.Calls call) ∧
      (∀ err, answer = .error err → err.AtLimit) ∧
        ∀ scheduler, root.forward state scheduler =
          (answer, scheduler.askAll state.prompt calls) := by
  obtain ⟨answer, memo', calls, hcalls, hlimit, heq⟩ := asks_evaluate state root []
  exact ⟨answer, calls, hcalls, hlimit, fun scheduler => by rw [forward, heq]⟩

/-- So does taking the final value of a variable. -/
theorem exists_askAll_finalValues (root : Constraint W) (state : ProgramState) (name : String) :
    ∃ answer calls, (∀ call ∈ calls, root.Calls call) ∧
      ∀ scheduler, root.finalValues state [name] scheduler =
        (answer, scheduler.askAll state.prompt calls) := by
  cases howner : (root.owners name).head? with
  | none =>
      exact ⟨_, [], by simp, fun scheduler => by simp only [finalValues, finalValue, howner]; rfl⟩
  | some c =>
      have hoccurs : Occurs c root :=
        occurs_of_mem_walk (List.mem_filter.1 (List.mem_of_mem_head? howner)).1
      obtain ⟨id, operator, inputs⟩ := c
      have hpost : ∃ answer calls, (∀ call ∈ calls, root.Calls call) ∧
          ∀ scheduler, (node id operator inputs).postprocess state scheduler =
            (answer, scheduler.askAll state.prompt calls) := by
        cases operator with
        | call inlineCall =>
            refine ⟨_, [(id, inlineCall)], ?_, fun scheduler => rfl⟩
            simpa using ⟨_, hoccurs, rfl, rfl⟩
        | all | any | negation | reference | constant | pattern =>
            exact ⟨_, [], by simp, fun scheduler => rfl⟩
      obtain ⟨answer, calls, hcalls, heq⟩ := hpost
      refine ⟨answer.map fun v => [(name, v)], calls, hcalls, fun scheduler => ?_⟩
      simp only [finalValues, finalValue, howner, heq]
      cases answer <;> rfl

/-! ## Every call is asked for -/

variable {nodes : List (Constraint W)} {session : Session W} {prompt : String}

/-- Nodes that have been evaluated have asked for the calls that occur in them. -/
def MemoAsked (nodes : List (Constraint W)) (prompt : String) (session : Session W) : Prop :=
  ∀ c ∈ nodes, (session.memo.lookup c.id).isSome → ∀ call, c.Calls call →
    (session.scheduler.request? ⟨call.1, prompt⟩).isSome

theorem memoAsked_nil (nodes : List (Constraint W)) (prompt : String)
    (scheduler : Scheduler W) : MemoAsked nodes prompt ⟨[], scheduler⟩ := by
  intro c _ hlook
  simp at hlook

/-- A request that is there before an evaluation is there after it. -/
theorem Asks.isSome_request? {α : Type} {P : NodeId × InlineCall W → Prop}
    {run : Session W → Except Error α × Session W} (h : Asks prompt P run) (session : Session W)
    (key : CallKey) (hkey : (session.scheduler.request? key).isSome) :
    ((run session).2.scheduler.request? key).isSome := by
  obtain ⟨answer, memo', calls, -, -, heq⟩ := h session.memo
  obtain ⟨r, hr⟩ := Option.isSome_iff_exists.1 hkey
  rw [heq session.scheduler, Scheduler.request?_askAll hr]
  rfl

theorem asks_inputs (state : ProgramState) (cs : List (Constraint W)) :
    Asks state.prompt (fun _ => True) (evaluateAll state cs) :=
  asks_evaluateAll cs fun c _ => (asks_evaluate state c).mono fun _ _ => trivial

/-- Nodes evaluated one after the other have asked for all calls, if each of them has. -/
theorem evaluateAll_asked (cs : List (Constraint W))
    (hmemo : MemoAsked nodes state.prompt session)
    (h : ∀ c ∈ cs, ∀ session : Session W, MemoAsked nodes state.prompt session →
      MemoAsked nodes state.prompt (evaluate state c session).2 ∧
        ∀ eval, (evaluate state c session).1 = .ok eval → ∀ call, c.Calls call →
          ((evaluate state c session).2.scheduler.request? ⟨call.1, state.prompt⟩).isSome) :
    MemoAsked nodes state.prompt (evaluateAll state cs session).2 ∧
      ∀ evals, (evaluateAll state cs session).1 = .ok evals → ∀ c ∈ cs, ∀ call, c.Calls call →
        ((evaluateAll state cs session).2.scheduler.request? ⟨call.1, state.prompt⟩).isSome := by
  induction cs generalizing session with
  | nil => exact ⟨by simpa only [evaluateAll] using hmemo, by simp⟩
  | cons c cs ih =>
      rw [List.forall_mem_cons] at h
      obtain ⟨hmemo₁, hhead⟩ := h.1 session hmemo
      obtain ⟨hmemo₂, htail⟩ := ih hmemo₁ h.2
      have hlater := (asks_inputs state cs).isSome_request? (evaluate state c session).2
      rw [evaluateAll]
      generalize evaluate state c session = first at *
      obtain ⟨_ | eval, session₁⟩ := first
      · exact ⟨hmemo₁, by simp⟩
      · dsimp only at *
        generalize evaluateAll state cs session₁ = others at *
        obtain ⟨_ | evals, session₂⟩ := others
        · exact ⟨hmemo₂, by simp⟩
        · refine ⟨hmemo₂, fun _ _ => List.forall_mem_cons.2 ⟨?_, htail evals rfl⟩⟩
          exact fun call hcall => hlater _ (hhead eval rfl call hcall)

/-- A call below a node is its own or below one of its inputs. -/
theorem calls_node_iff {id : NodeId} {operator : Operator W} {inputs : List (Constraint W)}
    {call : NodeId × InlineCall W} : (node id operator inputs).Calls call ↔
      (id = call.1 ∧ operator = .call call.2) ∨ ∃ c ∈ inputs, c.Calls call := by
  have hown : (node id operator inputs).call? = some call.2 ↔ operator = .call call.2 := by
    cases operator <;> simp [call?, Constraint.operator]
  constructor
  · rintro ⟨d, hd, hid, hcall⟩
    cases hd with
    | here => exact .inl ⟨hid, hown.1 hcall⟩
    | input _ c hc hbelow => exact .inr ⟨c, hc, d, hbelow, hid, hcall⟩
  · rintro (⟨hid, hcall⟩ | ⟨c, hc, d, hbelow, hcall⟩)
    · exact ⟨_, .here, hid, hown.2 hcall⟩
    · exact ⟨d, .input _ c hc hbelow, hcall⟩

/-- Keeping the result of a node keeps the invariant, since no other node has its identity. -/
theorem Built.remember_asked (hb : Built nodes) (hc : c ∈ nodes) {memo : List (NodeId × Eval)}
    {before : Scheduler W} (hmemo : MemoAsked nodes prompt ⟨memo, before⟩)
    {result : Except Error Eval × Scheduler W}
    (hlater : ∀ key, (before.request? key).isSome → (result.2.request? key).isSome)
    (hcalls : ∀ eval, result.1 = .ok eval → ∀ call, c.Calls call →
      (result.2.request? ⟨call.1, prompt⟩).isSome) :
    MemoAsked nodes prompt (Session.remember memo c.id result).2 ∧
      ∀ eval, (Session.remember memo c.id result).1 = .ok eval → ∀ call, c.Calls call →
        ((Session.remember memo c.id result).2.scheduler.request? ⟨call.1, prompt⟩).isSome := by
  obtain ⟨_ | eval, scheduler⟩ := result
  · exact ⟨fun d hd hlook call hcall => hlater _ (hmemo d hd hlook call hcall), hcalls⟩
  · refine ⟨?_, hcalls⟩
    intro d hd hlook call hcall
    by_cases hid : d.id = c.id
    · obtain rfl := hb.eq_of_id_eq hd hc hid
      exact hcalls eval rfl call hcall
    · refine hlater _ (hmemo d hd ?_ call hcall)
      simpa only [Session.remember, List.lookup_cons, beq_eq_false_iff_ne.2 hid] using hlook

/-- A node that has been evaluated has asked for its calls. -/
theorem Built.evaluate_asked (hb : Built nodes) (hc : c ∈ nodes)
    (hmemo : MemoAsked nodes state.prompt session) :
    MemoAsked nodes state.prompt (evaluate state c session).2 ∧
      ∀ eval, (evaluate state c session).1 = .ok eval → ∀ call, c.Calls call →
        ((evaluate state c session).2.scheduler.request? ⟨call.1, state.prompt⟩).isSome := by
  induction c using inputs_induction generalizing session with
  | h id operator inputs ih =>
      rw [evaluate]
      cases hlook : session.memo.lookup id with
      | some eval =>
          exact ⟨hmemo, fun _ _ => hmemo _ hc (by rw [Constraint.id, hlook]; rfl)⟩
      | none =>
          obtain ⟨hmemo₁, hinputs⟩ := evaluateAll_asked inputs hmemo fun d hd session =>
            ih d hd (hb.input_mem hc hd)
          have hnone : inputs = [] → ∀ evals, (evaluateAll state inputs session).1 = .ok evals →
              evals = [] := by
            rintro rfl
            simp [evaluateAll]
          generalize evaluateAll state inputs session = run at *
          obtain ⟨_ | evals, memo₁, before⟩ := run
          · exact ⟨hmemo₁, by simp⟩
          · obtain ⟨answer, calls, -, -, happly⟩ := exists_askAll_apply id operator inputs state
              (evals.filterMap Eval.truth?)
            have hlater : ∀ key, (before.request? key).isSome →
                ((operator.apply id state (evals.filterMap Eval.truth?) before).2.request?
                  key).isSome := by
              intro key hkey
              obtain ⟨r, hr⟩ := Option.isSome_iff_exists.1 hkey
              rw [happly, Scheduler.request?_askAll hr]
              rfl
            dsimp only
            split
            · -- An input is pending, so that the node has inputs and is not a call.
              rename_i hopen
              refine hb.remember_asked hc hmemo₁ (fun _ hkey => hkey) fun _ _ call hcall => ?_
              rcases calls_node_iff.1 hcall with ⟨-, rfl⟩ | ⟨d, hd, hcall⟩
              · have hform := hb.constructed hc
                cases hform
                simp [hnone rfl evals rfl] at hopen
              · exact hinputs evals rfl d hd call hcall
            · refine hb.remember_asked hc hmemo₁ hlater fun _ _ call hcall => ?_
              rcases calls_node_iff.1 hcall with ⟨rfl, rfl⟩ | ⟨d, hd, hcall⟩
              · have hmem : call ∈ [call] := List.mem_cons_self
                exact Scheduler.isSome_request?_askAll hmem
              · exact hlater _ (hinputs evals rfl d hd call hcall)

/-- **Every call is asked for.** An evaluation that gives a result, be it open or not, has asked
for all nested runs of the graph. -/
theorem Built.isSome_request?_forward (hb : Built nodes) (hroot : root ∈ nodes)
    {scheduler : Scheduler W} {eval : Eval} (h : (root.forward state scheduler).1 = .ok eval) :
    ∀ key ∈ root.callKeys state.prompt,
      ((root.forward state scheduler).2.request? key).isSome := by
  have hasked := (hb.evaluate_asked hroot (memoAsked_nil nodes state.prompt scheduler)).2 eval h
  intro key hkey
  simp only [callKeys, List.mem_map, List.mem_filter] at hkey
  obtain ⟨c, ⟨hc, hcall⟩, rfl⟩ := hkey
  obtain ⟨inlineCall, hcall⟩ := Option.isSome_iff_exists.1 hcall
  exact hasked (c.id, inlineCall) ⟨c, occurs_of_mem_walk hc, rfl, hcall⟩

/-- An evaluation of a graph without calls asks for nothing. -/
theorem Built.forward_snd_of_callKeys (hb : Built nodes) (hroot : root ∈ nodes)
    (h : root.callKeys state.prompt = []) (scheduler : Scheduler W) :
    (root.forward state scheduler).2 = scheduler := by
  obtain ⟨answer, calls, hcalls, -, heq⟩ := root.exists_askAll_forward state
  have hnone : calls = [] := by
    refine List.eq_nil_iff_forall_not_mem.2 fun call hmem => ?_
    obtain ⟨c, hc, -, hcall⟩ := hcalls call hmem
    have hkey : ⟨c.id, state.prompt⟩ ∈ root.callKeys state.prompt :=
      List.mem_map.2 ⟨c, List.mem_filter.2 ⟨(hb.mem_walk_iff hroot).2 hc, by simp [hcall]⟩, rfl⟩
    simp [h] at hkey
  rw [heq, hnone, Scheduler.askAll_nil]

end Constraint

/-! ## A small graph

The graph of one call, for the cases of general statements that later modules show. -/
namespace Sample

/-- A call of a query with a fixed result. -/
def called : Constraint Journal :=
  .call ⟨"good", 1⟩
    ⟨.scripted "good" [] none "" (.fixed [(resultName, .bool true)]), "X", []⟩

theorem callKeys_called (prompt : String) : called.callKeys prompt = [⟨⟨"good", 1⟩, prompt⟩] := by
  simp [called, Constraint.callKeys, Constraint.walk, Constraint.walkFrom, Constraint.call,
    Constraint.listed, Constraint.call?, Constraint.operator, Constraint.id]

theorem built_called : Constraint.Built [called] :=
  .make called [] (.call _ _) (by simp [called, Constraint.call, Constraint.inputs]) (by simp) .none

end Sample

end Guided
