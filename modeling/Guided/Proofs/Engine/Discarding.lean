import Guided.Proofs.Constraint.Registering
import Guided.Proofs.Engine.Interference

/-!
# What a run leaves behind

A run asks for runs of its own calls and for nothing else, so that the keys that it adds to a
scheduler are keys of its graph. They are the ones that discarding forgets: the listing of the
graph that discarding goes by has every call that evaluation meets, and in the same order.

## Main definitions

* `Scheduler.Gained`: a scheduler in which only some keys have been added.

## Main statements

* `Scheduler.Gained.order_forget`: forgetting the keys that have been added.
* `Engine.discard_run`: traversals agree, and discarding leaves nothing behind.
-/
namespace Guided

variable {W : Type}

/-! ## Keys that are added -/

namespace Scheduler

variable {s s' : Scheduler W} {keys : List CallKey}

/-- A scheduler with the requests of another one and behind them requests with some keys. -/
structure Gained (keys : List CallKey) (s s' : Scheduler W) : Prop where
  sound : s'.Sound
  keys : ∃ added, s'.requests.map (·.key) = s.requests.map (·.key) ++ added ∧
    ∀ key ∈ added, key ∈ keys

theorem Sound.gained (h : s.Sound) (keys : List CallKey) : s.Gained keys s :=
  ⟨h, [], by simp, by simp⟩

theorem Gained.register (h : s.Gained keys s') {key : CallKey} (hkey : key ∈ keys)
    (query : Query W) (captures : Fields Value) :
    s.Gained keys (s'.register key query captures) := by
  refine ⟨h.sound.register key query captures, ?_⟩
  obtain ⟨added, hadded, hkeys⟩ := h.keys
  rw [Scheduler.register]
  split
  · exact ⟨added, hadded, hkeys⟩
  · refine ⟨added ++ [key], ?_, ?_⟩
    · rw [List.map_append, hadded, List.append_assoc, List.map_singleton]
    · intro other hother
      rcases List.mem_append.1 hother with hother | hother
      · exact hkeys other hother
      · rwa [List.mem_singleton.1 hother]

theorem Gained.askAll (h : s.Gained keys s') {prompt : String}
    {calls : List (NodeId × InlineCall W)} (hcalls : ∀ call ∈ calls, ⟨call.1, prompt⟩ ∈ keys) :
    s.Gained keys (s'.askAll prompt calls) := by
  induction calls generalizing s' with
  | nil => exact h
  | cons call calls ih =>
      rw [List.forall_mem_cons] at hcalls
      exact ih (h.register hcalls.1 _ _) hcalls.2

theorem Gained.of_map (h : s.Gained keys s') {f : Request W → Request W}
    (hf : Request.Progresses f) :
    s.Gained keys { s' with requests := s'.requests.map f } := by
  obtain ⟨added, hadded, hkeys⟩ := h.keys
  refine ⟨h.sound.of_map hf, added, ?_, hkeys⟩
  simpa [Function.comp_def, hf.key] using hadded

/-- **Forgetting the keys that have been added** leaves the keys that were there. -/
theorem Gained.order_forget (h : s.Gained keys s') (hs : s.Sound)
    (hfree : ∀ key ∈ keys, s.request? key = none) : (s'.forget keys).2.order = s.order := by
  obtain ⟨added, hadded, hkeys⟩ := h.keys
  have hkept : (s.requests.map (·.key)).filter (fun key => !keys.contains key) =
      s.requests.map (·.key) := by
    rw [List.filter_eq_self]
    intro key hkey
    obtain ⟨r, hr, rfl⟩ := List.mem_map.1 hkey
    by_contra hforgotten
    have hnone := hfree r.key (by simpa using hforgotten)
    rw [request?_of_mem hs.keys hr] at hnone
    simp at hnone
  have hdropped : added.filter (fun key => !keys.contains key) = [] := by
    rw [List.filter_eq_nil_iff]
    intro key hkey
    simpa using hkeys key hkey
  have hrest : (s'.drop keys).requests.map (·.key) =
      (s'.requests.map (·.key)).filter fun key => !keys.contains key := by
    rw [List.filter_map]
    rfl
  rw [forget, (h.sound.drop keys).order, hrest, hadded, List.filter_append, hkept, hdropped,
    List.append_nil, hs.order]

/-- What has been forgotten is not there to be forgotten again. -/
theorem count_forget_forget (s : Scheduler W) (keys : List CallKey) :
    ((s.forget keys).2.forget keys).1 = 0 := by
  rw [forget, forget, drop, drop, List.filter_filter]
  simp

end Scheduler

/-! ## Runs and their calls -/

namespace Constraint

variable {root : Constraint W} {nodes : List (Constraint W)}

theorem Built.mem_callKeys_of_calls (hb : Built nodes) (hroot : root ∈ nodes) (prompt : String)
    {call : NodeId × InlineCall W} (h : root.Calls call) :
    ⟨call.1, prompt⟩ ∈ root.callKeys prompt := by
  rw [← map_calls]
  exact List.mem_map.2 ⟨call, (hb.mem_calls_iff hroot).2 h, rfl⟩

theorem Built.keeps_gained (hb : Built nodes) (hroot : root ∈ nodes) (prompt : String)
    (s : Scheduler W) :
    root.Keeps prompt fun b => s.Gained (root.callKeys prompt) b.scheduler where
  askAll b calls hcalls h :=
    h.askAll fun call hcall => hb.mem_callKeys_of_calls hroot prompt (hcalls call hcall)
  round b h := by
    obtain ⟨f, hf, heq⟩ := b.exists_progress_runPending
    rw [heq]
    exact h.of_map hf

/-- Evaluation adds the keys of the calls that have no request. -/
theorem Built.order_forward (hb : Built nodes) (hroot : root ∈ nodes) {state : ProgramState}
    (hmatch : root.Matchable state) (s : Scheduler W) :
    (root.forward state s).2.order =
      s.order ++ (root.callKeys state.prompt).filter fun key => (s.request? key).isNone := by
  obtain ⟨eval, heval⟩ := exists_result_of_ok root fun c hc _ => hmatch.exists_leafResult hc
  have hok : (root.forward state s).1 = .ok eval := (hb.forward_eq_result hroot s).trans heval
  rw [hb.forward_snd hroot hok, Scheduler.withWaiting, Scheduler.unasked, ← map_calls,
    List.filter_map]
  rfl

end Constraint

namespace Engine

/-- **Traversals agree, and discarding leaves nothing behind.** The walk lists each node below
the root once, in the order of recursion; its calls are the ones collected by recursion through
connectives; and evaluation adds just their keys, in their order. So after any run on a
scheduler with no key of the graph, discarding under the same prompt leaves the keys that were
there before, and there is nothing to discard after that. -/
theorem discard_run {e : Engine W} {nodes : List (Constraint W)}
    (hb : Constraint.Built nodes) (hroot : e.root ∈ nodes) :
    (e.root.walk = Constraint.visit [] e.root ∧ (e.root.walk.map Constraint.id).Nodup ∧
        ∀ c, c ∈ e.root.walk ↔ Constraint.Occurs c e.root) ∧
      e.root.inlineCalls = e.root.walk.filter Constraint.isCall ∧
      (∀ (state : ProgramState) (s : Scheduler W), e.root.Matchable state →
        (e.root.forward state s).2.order =
          s.order ++ (e.root.callKeys state.prompt).filter fun key => (s.request? key).isNone) ∧
      ∀ (s t : ProgramState) (b : Bench W) (events : List TokenEvent), b.scheduler.Sound →
        (∀ key ∈ e.root.callKeys s.prompt, b.scheduler.request? key = none) →
        t.prompt = s.prompt →
          let discarded := e.discard t (e.run s events b).2.2
          discarded.2.scheduler.order = b.scheduler.order ∧ (e.discard t discarded.2).1 = 0 := by
  refine ⟨⟨e.root.walk_eq_visit, hb.nodup_walk hroot, fun c => hb.mem_walk_iff hroot⟩,
    hb.inlineCalls_eq hroot, fun state s hmatch => hb.order_forward hroot hmatch s, ?_⟩
  intro s t b events hsound hfree hprompt discarded
  have hgained := (hb.keeps_gained hroot s.prompt b.scheduler).run
    (hsound.gained (e.root.callKeys s.prompt)) events
  have hdiscarded : discarded.2.scheduler =
      ((e.run s events b).2.2.scheduler.forget (e.root.callKeys s.prompt)).2 := by
    rw [← hprompt]
    rfl
  refine ⟨?_, ?_⟩
  · rw [hdiscarded]
    exact hgained.order_forget hsound hfree
  · rw [discard, hprompt, hdiscarded]
    exact Scheduler.count_forget_forget _ _

end Engine

theorem Sample.callKeys_twice (prompt : String) :
    twice.callKeys prompt = [⟨⟨"good", 1⟩, prompt⟩] := by
  obtain ⟨inlineCall, -, hcalls⟩ := calls_twice
  rw [← Constraint.map_calls, hcalls]
  rfl

/-- A run beside a request that has failed and one that waits, which both stay. -/
theorem Engine.discard_run_twice :
    let e : Engine Journal := ⟨Sample.twice, "X", 4, 8⟩
    let discarded := e.discard (.start "") (e.run (.start "") Sample.events Sample.used).2.2
    discarded.2.scheduler.order = [⟨⟨"bad", 2⟩, ""⟩, ⟨⟨"late", 3⟩, ""⟩] ∧
      (e.discard (.start "") discarded.2).1 = 0 := by
  intro e discarded
  have hsound : Sample.used.scheduler.Sound :=
    Bench.Reached.sound (.ask _ _ _ _ (.round _ (.ask _ _ _ _ (.fresh []))))
  have hfree : ∀ key ∈ e.root.callKeys "", Sample.used.scheduler.request? key = none := by
    rw [Sample.callKeys_twice, List.forall_mem_singleton]
    rfl
  exact (Engine.discard_run (e := e) Sample.built_twice List.mem_cons_self).2.2.2 (.start "")
    (.start "") Sample.used Sample.events hsound hfree rfl

end Guided
