import Guided.Proofs.Engine.Log
import Guided.Proofs.Engine.Simulation

/-!
# Engines that share a scheduler

A round works on everybody's requests, and some of them fail. A run asks only about requests of
its own calls, and what a round makes of those does not depend on the others. So a run on a
bench with any history gives what it gives on a fresh one, as long as none of its own calls has
been asked for.

## Main definitions

* `Bench.Agree`: two benches with the same requests for some runs.

## Main statements

* `Bench.Agree.runPending`, `Bench.Agree.askAll`: what keeps benches in agreement.
* `Bench.Reached.run`: a run of an engine is a history like any other.
* `Engine.run_eq_fresh`: the requests of others cannot be seen.
-/
namespace Guided

variable {W : Type}

/-! ## Benches in agreement -/

/-- A request without the ticket that tells it apart. -/
def Request.untagged (r : Request W) : Request W := { r with ticket := 0 }

/-- What a round makes of a request does not depend on its ticket. -/
theorem Request.untagged_worked (w : W) (r : Request W) :
    (r.worked w).untagged = r.untagged.worked w := by
  obtain ⟨key, ticket, query, captures, state, promise⟩ := r
  cases state with
  | running | finished => rfl
  | waiting =>
      simp only [worked, untagged, Scheduler.started, if_true]
      cases (query.invoke captures w).1.resolution? <;> rfl

theorem Request.query_worked (w : W) (r : Request W) : (r.worked w).query = r.query := by
  rw [worked]
  split
  · rename_i hstate
    rw [Scheduler.closed, Scheduler.started, if_pos hstate]
    cases (r.query.invoke r.captures w).1.resolution? <;> rfl
  · rfl

theorem Request.query_eq_of_untagged {r r' : Request W} (h : r.untagged = r'.untagged) :
    r.query = r'.query := by
  have hquery : r.untagged.query = r'.untagged.query := congrArg _ h
  exact hquery

theorem Request.promise_eq_of_untagged {r r' : Request W} (h : r.untagged = r'.untagged) :
    r.promise = r'.promise := by
  have hpromise : r.untagged.promise = r'.untagged.promise := congrArg _ h
  exact hpromise

/-- Two benches without a cache that have the same requests for some runs, up to their tickets,
and whose queries for them do not depend on the world. -/
structure Bench.Agree (keys : List CallKey) (b b' : Bench W) : Prop where
  left : b.Reached
  right : b'.Reached
  requests : ∀ key ∈ keys, (b.scheduler.request? key).map Request.untagged =
    (b'.scheduler.request? key).map Request.untagged
  steady : ∀ key ∈ keys, ∀ r, b.scheduler.request? key = some r → r.query.Steady

namespace Bench.Agree

variable {keys : List CallKey} {b b' : Bench W}

/-- A request in one bench has its like in the other. -/
theorem exists_request? (h : Agree keys b b') {key : CallKey} (hkey : key ∈ keys) :
    (b.scheduler.request? key = none ∧ b'.scheduler.request? key = none) ∨
      ∃ r r', b.scheduler.request? key = some r ∧ b'.scheduler.request? key = some r' ∧
        r.untagged = r'.untagged ∧ r.query.Steady ∧ r'.query.Steady := by
  have heq := h.requests key hkey
  cases hr : b.scheduler.request? key with
  | none =>
      rw [hr, Option.map_none, eq_comm, Option.map_eq_none_iff] at heq
      exact .inl ⟨rfl, heq⟩
  | some r =>
      rw [hr, Option.map_some, eq_comm, Option.map_eq_some_iff] at heq
      obtain ⟨r', hr', huntagged⟩ := heq
      have hquery : r'.query = r.query := Request.query_eq_of_untagged huntagged
      have hsteady := h.steady key hkey r hr
      exact .inr ⟨r, r', rfl, hr', huntagged.symm, hsteady, hquery ▸ hsteady⟩

theorem resolution?_eq (h : Agree keys b b') {key : CallKey} (hkey : key ∈ keys) :
    b.scheduler.resolution? key = b'.scheduler.resolution? key := by
  rcases h.exists_request? hkey with ⟨hr, hr'⟩ | ⟨r, r', hr, hr', huntagged, -, -⟩
  · rw [Scheduler.resolution?, Scheduler.resolution?, hr, hr']
  · rw [Scheduler.resolution?, Scheduler.resolution?, hr, hr']
    exact Request.promise_eq_of_untagged huntagged

/-- Rounds keep benches in agreement, whatever else they work on. -/
theorem runPending (h : Agree keys b b') : Agree keys b.runPending.2 b'.runPending.2 := by
  have hround : ∀ key ∈ keys,
      (b.runPending.2.scheduler.request? key = none ∧
        b'.runPending.2.scheduler.request? key = none) ∨
      ∃ r r' : Request W, b.runPending.2.scheduler.request? key = some (r.worked b.world) ∧
        b'.runPending.2.scheduler.request? key = some (r'.worked b.world) ∧
        r.untagged = r'.untagged ∧ r.query.Steady := by
    intro key hkey
    rcases h.exists_request? hkey with ⟨hr, hr'⟩ | ⟨r, r', hr, hr', huntagged, hsteady, hsteady'⟩
    · exact .inl ⟨request?_runPending_of_none hr, request?_runPending_of_none hr'⟩
    · exact .inr ⟨r, r',
        request?_runPending h.left.idle_eq h.left.cache_eq h.left.sound hr hsteady b.world,
        request?_runPending h.right.idle_eq h.right.cache_eq h.right.sound hr' hsteady' b.world,
        huntagged, hsteady⟩
  refine ⟨.round b h.left, .round b' h.right, fun key hkey => ?_, fun key hkey q hq => ?_⟩
  · rcases hround key hkey with ⟨hr, hr'⟩ | ⟨r, r', hr, hr', huntagged, -⟩
    · rw [hr, hr']
    · rw [hr, hr', Option.map_some, Option.map_some, Request.untagged_worked,
        Request.untagged_worked, huntagged]
  · rcases hround key hkey with ⟨hr, -⟩ | ⟨r, r', hr, -, -, hsteady⟩
    · simp [hr] at hq
    · rw [hr, Option.some.injEq] at hq
      rwa [← hq, Request.query_worked]

/-- So does asking for the same runs. -/
theorem ask (h : Agree keys b b') (prompt : String) {call : NodeId × InlineCall W}
    (hsteady : call.2.query.Steady) :
    Agree keys { b with scheduler := b.scheduler.ask prompt call }
      { b' with scheduler := b'.scheduler.ask prompt call } := by
  refine ⟨.ask b _ _ _ h.left, .ask b' _ _ _ h.right, fun key hkey => ?_, fun key hkey q hq => ?_⟩
  · have heq := h.requests key hkey
    simp only [Scheduler.ask, Scheduler.request?_register]
    rcases h.exists_request? hkey with ⟨hr, hr'⟩ | ⟨r, r', hr, hr', huntagged, -, -⟩
    · rw [hr, hr', Option.none_or, Option.none_or]
      split <;> rfl
    · rw [hr, hr', Option.some_or, Option.some_or, Option.map_some, Option.map_some, huntagged]
  · simp only [Scheduler.ask, Scheduler.request?_register] at hq
    cases hr : b.scheduler.request? key with
    | some r =>
        rw [hr, Option.some_or, Option.some.injEq] at hq
        exact hq ▸ h.steady key hkey r hr
    | none =>
        rw [hr, Option.none_or] at hq
        split at hq
        · rw [← Option.some.inj hq]
          exact hsteady
        · simp at hq

theorem askAll (h : Agree keys b b') (prompt : String) {calls : List (NodeId × InlineCall W)}
    (hsteady : ∀ call ∈ calls, call.2.query.Steady) :
    Agree keys { b with scheduler := b.scheduler.askAll prompt calls }
      { b' with scheduler := b'.scheduler.askAll prompt calls } := by
  induction calls generalizing b b' with
  | nil => exact h
  | cons call calls ih =>
      rw [List.forall_mem_cons] at hsteady
      exact ih (h.ask prompt hsteady.1) hsteady.2

end Bench.Agree

/-! ## Runs on benches in agreement -/

section Runs

variable {root : Constraint W} {keys : List CallKey} {name : String} {s t : ProgramState}
  {b b' : Bench W}

namespace Constraint

/-- Everything a constraint calls depends on its bindings alone. -/
def Steady (root : Constraint W) : Prop := ∀ call, root.Calls call → call.2.query.Steady

theorem Steady.exists_forwardOn_eq (hsteady : root.Steady) (h : Bench.Agree keys b b')
    (s : ProgramState) : ∃ answer b₁ b₁', root.forwardOn s b = (answer, b₁) ∧
      root.forwardOn s b' = (answer, b₁') ∧ Bench.Agree keys b₁ b₁' := by
  obtain ⟨answer, calls, hcalls, -, heq⟩ := root.exists_askAll_forward s
  rw [forwardOn, forwardOn, heq, heq]
  exact ⟨answer, _, _, rfl, rfl,
    h.askAll s.prompt fun call hcall => hsteady call (hcalls call hcall)⟩

theorem Steady.finalValues_agree (hsteady : root.Steady) (h : Bench.Agree keys b b')
    (s : ProgramState) (name : String) :
    (root.finalValues s [name] b.scheduler).1 = (root.finalValues s [name] b'.scheduler).1 ∧
      Bench.Agree keys (b.withScheduler (root.finalValues s [name] b.scheduler).2)
        (b'.withScheduler (root.finalValues s [name] b'.scheduler).2) := by
  obtain ⟨answer, calls, hcalls, heq⟩ := root.exists_askAll_finalValues s name
  rw [heq, heq]
  exact ⟨rfl, h.askAll s.prompt fun call hcall => hsteady call (hcalls call hcall)⟩

/-- A round publishes the same results and meets the same failures. -/
theorem exists_settleRound_eq (h : Bench.Agree (root.callKeys s.prompt) b b') (name : String) :
    ∃ answer b₁ b₁', root.settleRound name s b = (answer, b₁) ∧
      root.settleRound name s b' = (answer, b₁') ∧ Bench.Agree (root.callKeys s.prompt) b₁ b₁' ∧
      ∀ t, answer = .ok t → t.prompt = s.prompt := by
  have hpublish := publishReady_congr
    (fun key hkey => h.runPending.resolution?_eq hkey) ⟨s, 0, 0⟩
  have hanswer : (root.settleRound name s b).1 = (root.settleRound name s b').1 := by
    simp only [settleRound, hpublish]
    rcases publishReady b'.runPending.2.scheduler (root.callKeys s.prompt) ⟨s, 0, 0⟩ with
      err | p
    · rfl
    · dsimp only
      split <;> rfl
  refine ⟨(root.settleRound name s b).1, b.runPending.2, b'.runPending.2, ?_, ?_, h.runPending,
    fun t ht => (gains_of_settleRound ht).prompt_eq⟩
  · exact Prod.ext rfl (root.settleRound_snd name s b)
  · exact Prod.ext hanswer.symm (root.settleRound_snd name s b')

theorem Steady.settleWithin_agree (hsteady : root.Steady)
    (h : Bench.Agree (root.callKeys s.prompt) b b') (name : String) (rounds left : Nat)
    (eval : Eval) :
    (root.settleWithin name rounds left eval s b).1 =
        (root.settleWithin name rounds left eval s b').1 ∧
      Bench.Agree (root.callKeys s.prompt) (root.settleWithin name rounds left eval s b).2
        (root.settleWithin name rounds left eval s b').2 := by
  induction left generalizing eval s b b' with
  | zero => cases eval <;> exact ⟨rfl, h⟩
  | succ left ih =>
      cases eval with
      | value v => exact ⟨rfl, h⟩
      | pending =>
          obtain ⟨answer, b₁, b₁', hround, hround', hafter, hprompt⟩ := exists_settleRound_eq h name
          rw [settleWithin, settleWithin, hround, hround']
          rcases answer with err | t
          · exact ⟨rfl, hafter⟩
          · obtain ⟨answer, b₂, b₂', heval, heval', hasked⟩ := hsteady.exists_forwardOn_eq hafter t
            dsimp only
            rw [heval, heval']
            rcases answer with err | eval
            · exact ⟨rfl, hasked⟩
            · rw [← hprompt t rfl] at hasked ⊢
              exact ih hasked eval

end Constraint

namespace Engine

variable {e : Engine W}

theorem judge_agree (hsteady : e.root.Steady) (h : Bench.Agree (e.root.callKeys s.prompt) b b') :
    (e.judge s b).1 = (e.judge s b').1 ∧
      Bench.Agree (e.root.callKeys s.prompt) (e.judge s b).2 (e.judge s b').2 := by
  obtain ⟨answer, b₁, b₁', heval, heval', hasked⟩ := hsteady.exists_forwardOn_eq h s
  rw [judge, judge, heval, heval']
  cases answer with
  | error err => exact ⟨rfl, hasked⟩
  | ok eval => exact hsteady.settleWithin_agree hasked _ _ _ eval

/-- The prompt stays, so that a run asks about the same runs all along. -/
theorem simulates_agree (hsteady : e.root.Steady) (prompt : String) :
    e.Simulates (fun s => s.prompt = prompt) (Bench.Agree (e.root.callKeys prompt)) where
  following s text hs := by
    obtain ⟨patterns, heq⟩ := e.root.exists_following_eq s e.variableName text
    rw [heq]
    exact hs
  finished s hs := hs
  judged s b eval t hs h := by
    rw [← hs]
    exact ((e.settles_judge s b).decided eval t h).2.prompt_eq
  judge s b b' hs h := by
    subst hs
    exact judge_agree hsteady h
  values s b b' hs h := hsteady.finalValues_agree h s e.variableName

end Engine

/-! ## Runs are histories -/

/-- What a run of an engine leaves is a bench with a longer history. -/
theorem Bench.Reached.run (hb : b.Reached) (e : Engine W) (s : ProgramState)
    (events : List TokenEvent) : (e.run s events b).2.2.Reached := by
  have hkeeps : e.root.Keeps s.prompt Bench.Reached :=
    ⟨fun b calls _ hb => hb.of_works ((Bench.Works.done b).askAll s.prompt calls),
      fun b hb => .round b hb⟩
  exact hkeeps.run hb events

end Runs

/-- **Engines that share a scheduler.** A run on a bench with any history of registrations,
rounds and forgetting gives the outcome, the final state and the log that it gives on a fresh
bench, if none of its calls has a request there and what they call depends on the bindings
alone. What others wait for, have got or have failed at cannot be seen. -/
theorem Engine.run_eq_fresh {e : Engine W} {s : ProgramState} {b : Bench W} (hb : b.Reached)
    (hfree : ∀ key ∈ e.root.callKeys s.prompt, b.scheduler.request? key = none)
    (hsteady : e.root.Steady) (events : List TokenEvent) (world : W) :
    (e.run s events b).1 = (e.run s events ⟨.empty, none, world, 0⟩).1 ∧
      (e.run s events b).2.1 = (e.run s events ⟨.empty, none, world, 0⟩).2.1 := by
  have hagree : Bench.Agree (e.root.callKeys s.prompt) b ⟨.empty, none, world, 0⟩ := by
    refine ⟨hb, .fresh world, fun key hkey => ?_, fun key hkey r hr => ?_⟩
    · rw [hfree key hkey]
      rfl
    · simp [hfree key hkey] at hr
  obtain ⟨houtcome, hlog, -⟩ := (simulates_agree hsteady s.prompt).run_eq rfl hagree events
  exact ⟨houtcome, hlog⟩

namespace Sample

/-- An engine whose constraint is one call. -/
def caller : Engine Journal := ⟨called, "X", 4, 8⟩

/-- A bench on which the query of another graph has failed and a third one waits. -/
def used : Bench Journal :=
  let failed := (Bench.runPending ⟨Scheduler.register .empty ⟨⟨"bad", 2⟩, ""⟩
    (.scripted "bad" [] none "" (.fail "no")) [], none, [], 0⟩).2
  { failed with
    scheduler :=
      failed.scheduler.register ⟨⟨"late", 3⟩, ""⟩ (.scripted "late" [] none "" .count) [] }

theorem steady_called : called.Steady := by
  rintro call ⟨c, hc, -, hcall⟩
  cases hc with
  | here =>
      rw [← Option.some.inj hcall]
      exact fun _ _ _ => rfl
  | input _ d hd _ => simp [called, Constraint.call, Constraint.inputs] at hd

end Sample

/-- A run beside a failure and a request that waits. -/
theorem Engine.run_eq_fresh_sample :
    Sample.used.scheduler.resolution? ⟨⟨"bad", 2⟩, ""⟩ = some (.failed "Internal error: no") ∧
      Sample.used.scheduler.state? ⟨⟨"late", 3⟩, ""⟩ = some .waiting ∧
      (Sample.caller.run (.start "") Sample.events Sample.used).1 =
        (Sample.caller.run (.start "") Sample.events ⟨.empty, none, [], 0⟩).1 ∧
      (Sample.caller.run (.start "") Sample.events Sample.used).2.1 =
        (Sample.caller.run (.start "") Sample.events ⟨.empty, none, [], 0⟩).2.1 := by
  have hreached : Sample.used.Reached := .ask _ _ _ _ (.round _ (.ask _ _ _ _ (.fresh [])))
  have hfree : ∀ key ∈ Sample.caller.root.callKeys "",
      Sample.used.scheduler.request? key = none := by
    rw [Sample.caller, Sample.callKeys_called, List.forall_mem_singleton]
    rfl
  exact ⟨rfl, rfl,
    Engine.run_eq_fresh hreached (s := .start "") hfree Sample.steady_called Sample.events []⟩

end Guided
