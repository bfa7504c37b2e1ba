import Guided.Proofs.Constraint.Waiting
import Guided.Proofs.Engine.Log
import Guided.Proofs.Engine.Simulation

/-!
# Runs that have to wait

If the first rounds of a run do nothing, because the work is in other hands, the run waits once,
for its first verdict, and is as it would have been without the delay. A first verdict that is
not pending rests on leaves that are decided, and they stay so, so that the run never comes to
wait. A first verdict that is pending waits for the calls, all of which are answered by the
first round that works.

## Main definitions

* `Constraint.Decided`: no leaf is pending.
* `Engine.Stranded`: a verdict that waits for nothing that a nested run could bring.

## Main statements

* `Engine.run_delayed`: which delays a run tolerates, and what it does otherwise.
-/
namespace Guided

variable {W : Type} {nodes : List (Constraint W)} {root : Constraint W} {s t : ProgramState}
  {b b' : Bench W}

/-! ## Leaves that are decided -/

namespace Constraint

/-- No leaf is pending. -/
def Decided (root : Constraint W) (s : ProgramState) : Prop :=
  ∀ c, Occurs c root → c.isConnective = false → s.leafResult c.id c.operator ≠ .ok .pending

/-- Variables that have been started and results that have been published stay, so that a leaf
does not become pending again. -/
theorem Decided.mono (h : root.Decided s) (hprompt : t.prompt = s.prompt)
    (hvars : ∀ name, t.find? name = none → s.find? name = none)
    (hresults : t.results = s.results) : root.Decided t := by
  intro c hc hleaf hpending
  refine h c hc hleaf ?_
  cases hop : c.operator with
  | all | any | negation => rfl
  | reference name =>
      cases hfind : t.find? name with
      | none => simp only [ProgramState.leafResult, hvars name hfind]
      | some v => simp [hop, ProgramState.leafResult, hfind] at hpending
  | constant v => simp [hop, ProgramState.leafResult] at hpending
  | pattern leaf =>
      cases hfind : t.find? leaf.variableName with
      | none =>
          simp only [ProgramState.leafResult, PatternLeaf.evaluate, hvars leaf.variableName hfind]
      | some v =>
          simp only [hop, ProgramState.leafResult, PatternLeaf.evaluate, hfind] at hpending
          split at hpending
          · cases hmatch : leaf.regex.fullMatch v.text <;>
              simp [hmatch, Except.map, Eval.ofBool] at hpending
          · simp [Eval.ofBool] at hpending
  | call inlineCall =>
      rw [hop] at hpending
      simpa only [ProgramState.leafResult, callResult, hprompt, hresults] using hpending

theorem decided_of_result {v : Value} (h : root.result s.leafResult = .ok (.value v)) :
    root.Decided s := by
  intro c hc hleaf
  obtain ⟨w, hw⟩ := exists_look_of_decided h hc hleaf
  simp [hw]

/-- A verdict that is not pending has a result of every call. -/
theorem published_of_result {v : Value} (h : root.result s.leafResult = .ok (.value v)) :
    root.Published s := by
  intro key hkey
  simp only [callKeys, List.mem_map, List.mem_filter] at hkey
  obtain ⟨c, ⟨hc, hcall⟩, rfl⟩ := hkey
  obtain ⟨inlineCall, hcall⟩ := Option.isSome_iff_exists.1 hcall
  have hop : c.operator = .call inlineCall := by
    rw [call?] at hcall
    split at hcall
    · rename_i own hown
      rw [hown, Option.some.inj hcall]
    · simp at hcall
  obtain ⟨w, hw⟩ := exists_callResult_of_result h (occurs_of_mem_walk hc) hop
  rw [callResult] at hw
  split at hw
  · rename_i v hv
    rw [ResultTable.contains, hv]
    rfl
  · simp at hw

end Constraint

namespace Engine

variable {e : Engine W}

/-! ## A run that never waits -/

/-- With decided leaves, judging is evaluation. -/
theorem judge_of_decided (hb : Constraint.Built nodes) (hroot : e.root ∈ nodes)
    (h : e.root.Decided s) (b : Bench W) :
    e.judge s b = ((e.root.forwardOn s b).1.map fun eval => (eval, s),
      (e.root.forwardOn s b).2) := by
  have hpending : (e.root.forwardOn s b).1 ≠ .ok .pending := by
    rw [Constraint.forwardOn, hb.forward_eq_result hroot]
    exact e.root.result_ne_pending h
  rw [judge]
  generalize e.root.forwardOn s b = evaluated at hpending ⊢
  rcases evaluated with ⟨err | _ | v, b₁⟩
  · rfl
  · exact absurd rfl hpending
  · exact e.root.settle_value _ _ _ _ _

/-- With decided leaves, it does not matter how long the work is in other hands. -/
theorem simulates_idle (hb : Constraint.Built nodes) (hroot : e.root ∈ nodes) :
    e.Simulates e.root.Decided fun b b' => ∃ idle, b' = { b with idle } where
  following s text h := by
    have hgrown : e.root.Decided (s.withToken e.variableName text) :=
      h.mono rfl (fun _ => s.find?_eq_none_of_updateVariable) rfl
    obtain ⟨patterns, heq⟩ := e.root.exists_following_eq s e.variableName text
    rw [heq]
    exact hgrown.mono rfl (fun _ hnone => hnone) rfl
  finished s h := h.mono rfl (fun _ => s.find?_eq_none_of_updateVariable) rfl
  judged s b eval t h hjudge := by
    rw [judge_of_decided hb hroot h] at hjudge
    cases hforward : (e.root.forwardOn s b).1 with
    | error err => simp [hforward, Except.map] at hjudge
    | ok eval =>
        simp only [hforward, Except.map, Except.ok.injEq, Prod.mk.injEq] at hjudge
        rwa [← hjudge.2]
  judge := by
    rintro s b _ h ⟨idle, rfl⟩
    rw [judge_of_decided hb hroot h, judge_of_decided hb hroot h, Constraint.forwardOn_idle]
    exact ⟨rfl, idle, rfl⟩
  values := by
    rintro s b _ h ⟨idle, rfl⟩
    exact ⟨rfl, idle, rfl⟩

/-! ## The first verdict -/

/-- A run looks at its bench for the first time when it judges the variable that it starts. -/
theorem run_congr_of_judge
    (h : e.judge (s.beginVariable e.variableName) b = e.judge (s.beginVariable e.variableName) b')
    (events : List TokenEvent) : e.run s events b = e.run s events b' := by
  rw [run, run, generate, generate, h]

theorem run_of_judge_error {err : Error}
    (h : e.judge (s.beginVariable e.variableName) b = (.error err, b'))
    (events : List TokenEvent) :
    e.run s events b = (.error err, [.error 0 err.message], b') := by
  rw [run, generate, h]
  rfl

/-- The first verdict is pending although there are calls and every call has a result. -/
def Stranded (e : Engine W) (s : ProgramState) (b : Bench W) : Prop :=
  (e.root.forward (s.beginVariable e.variableName) b.scheduler).1 = .ok .pending ∧
    e.root.callKeys s.prompt ≠ [] ∧ e.root.Published s

variable {events : List TokenEvent} {idle : Nat}

/-- Judging a pending verdict is settling it. -/
theorem judge_of_pending (hpending : (e.root.forward s b.scheduler).1 = .ok .pending)
    (idle : Nat) : e.judge s { b with idle } =
      e.root.settleWithin e.variableName e.maxRounds e.maxRounds .pending s
        { (e.root.forwardOn s b).2 with idle } := by
  have hanswer : (e.root.forwardOn s b).1 = .ok .pending := hpending
  rw [judge, Constraint.forwardOn_idle, hanswer]
  rfl

theorem waits_of_pending (hnone : b.scheduler.requests = [])
    (hpending : (e.root.forward s b.scheduler).1 = .ok .pending) :
    e.root.Waits s (e.root.forwardOn s b).2 := by
  have huntouched : b.scheduler.Untouched := by simp [Scheduler.Untouched, hnone]
  exact Constraint.waits_of_forwardOn huntouched (Prod.ext hpending rfl)

/-- A verdict that is pending for open calls has the run wait once, and no longer than the work
is in other hands. -/
theorem run_eq_of_open (hb : Constraint.Built nodes) (hroot : e.root ∈ nodes)
    (hidle : b.idle = 0) (hnone : b.scheduler.requests = [])
    (hpending : (e.root.forward (s.beginVariable e.variableName) b.scheduler).1 = .ok .pending)
    (hopen : ¬ e.root.Published s) (hroom : idle + 2 ≤ e.maxRounds) :
    e.run s events { b with idle } = e.run s events b := by
  have hwaits := waits_of_pending hnone hpending
  have hasked := hb.isSome_request?_forward hroot hpending
  have hjudge := judge_of_pending hpending
  obtain ⟨left, hleft⟩ : ∃ left, e.maxRounds = left + 2 + idle := ⟨e.maxRounds - 2 - idle, by omega⟩
  have hnow : { b with idle := 0 } = b := by rw [← hidle]
  have hworking := (hwaits.of_idle 0).settleWithin_eq rfl hasked e.variableName e.maxRounds left
    (left + idle)
  refine run_congr_of_judge ?_ events
  generalize (e.root.forwardOn (s.beginVariable e.variableName) b).2 = b₁ at *
  calc e.judge (s.beginVariable e.variableName) { b with idle }
    _ = e.root.settleWithin e.variableName e.maxRounds (left + 2 + idle) .pending
          (s.beginVariable e.variableName) { b₁ with idle } := by rw [hjudge, ← hleft]
    _ = e.root.settleWithin e.variableName e.maxRounds (left + 2) .pending
          (s.beginVariable e.variableName) { b₁ with idle := 0 } :=
        hwaits.settleWithin_idle hopen _ _ _ _
    _ = e.root.settleWithin e.variableName e.maxRounds (left + idle + 2) .pending
          (s.beginVariable e.variableName) { b₁ with idle := 0 } := hworking
    _ = e.judge (s.beginVariable e.variableName) b := by
        rw [← hnow, hjudge, hleft, Nat.add_right_comm]

/-- If the work stays in other hands for all rounds that there are, the run gives up. -/
theorem run_fst_of_open (hnone : b.scheduler.requests = [])
    (hpending : (e.root.forward (s.beginVariable e.variableName) b.scheduler).1 = .ok .pending)
    (hopen : ¬ e.root.Published s) (hlong : e.maxRounds ≤ idle) :
    (e.run s events { b with idle }).1 =
      .error (.unresolved (.stillPending e.variableName e.maxRounds)) := by
  have hwaits := waits_of_pending hnone hpending
  have hgiven := hwaits.settleWithin_of_le hopen e.variableName e.maxRounds hlong
  rw [← judge_of_pending hpending] at hgiven
  rw [run_of_judge_error (Prod.ext hgiven rfl)]

/-- A verdict that is pending with no call open fails in its first round, be it idle or not. -/
theorem run_of_published
    (hpending : (e.root.forward (s.beginVariable e.variableName) b.scheduler).1 = .ok .pending)
    (hpublished : e.root.Published s) (hrounds : 0 < e.maxRounds)
    (events : List TokenEvent) (idle : Nat) : e.run s events { b with idle } =
      (.error (.unresolved (.nothingOutstanding e.variableName)),
        [.error 0 (Error.unresolved (.nothingOutstanding e.variableName)).message],
        (Bench.runPending
          { (e.root.forwardOn (s.beginVariable e.variableName) b).2 with idle }).2) := by
  obtain ⟨left, hleft⟩ : ∃ left, e.maxRounds = left + 1 := ⟨e.maxRounds - 1, by omega⟩
  have hstart : e.root.Published (s.beginVariable e.variableName) := hpublished
  refine run_of_judge_error ?_ events
  rw [judge_of_pending hpending, hleft, hstart.settleWithin]

/-- Without calls there is nothing to work on. -/
theorem world_run_of_callKeys (hb : Constraint.Built nodes) (hroot : e.root ∈ nodes)
    (hnone : b.scheduler.requests = [])
    (hpending : (e.root.forward (s.beginVariable e.variableName) b.scheduler).1 = .ok .pending)
    (hkeys : e.root.callKeys s.prompt = []) (hrounds : 0 < e.maxRounds)
    (events : List TokenEvent) (idle : Nat) :
    (e.run s events { b with idle }).2.2.world = b.world := by
  have hpublished : e.root.Published s := by simp [Constraint.Published, hkeys]
  have hstart : e.root.callKeys (s.beginVariable e.variableName).prompt = [] := hkeys
  have hsame : (e.root.forwardOn (s.beginVariable e.variableName) b).2.scheduler = b.scheduler :=
    hb.forward_snd_of_callKeys hroot hstart b.scheduler
  rw [run_of_published hpending hpublished hrounds]
  exact Bench.world_runPending (by rw [hsame, hnone])

/-- A run whose first verdict fails is over at once. -/
theorem run_of_forward_error {err : Error}
    (h : (e.root.forward (s.beginVariable e.variableName) b.scheduler).1 = .error err)
    (events : List TokenEvent) (idle : Nat) :
    e.run s events { b with idle } = (.error err, [.error 0 err.message],
      { (e.root.forwardOn (s.beginVariable e.variableName) b).2 with idle }) := by
  have hanswer : (e.root.forwardOn (s.beginVariable e.variableName) b).1 = .error err := h
  refine run_of_judge_error ?_ events
  rw [judge, Constraint.forwardOn_idle, hanswer]

/-- A run whose first verdict is not pending never waits. -/
theorem run_of_not_pending (hb : Constraint.Built nodes) (hroot : e.root ∈ nodes)
    (h : (e.root.forward (s.beginVariable e.variableName) b.scheduler).1 ≠ .ok .pending)
    (events : List TokenEvent) (idle : Nat) :
    (e.run s events b).1 = (e.run s events { b with idle }).1 ∧
      (e.run s events b).2.1 = (e.run s events { b with idle }).2.1 ∧
      ∃ left, (e.run s events { b with idle }).2.2 =
        { (e.run s events b).2.2 with idle := left } := by
  have hresult : (e.root.forward (s.beginVariable e.variableName) b.scheduler).1 =
      e.root.result (s.beginVariable e.variableName).leafResult := hb.forward_eq_result hroot _
  rcases hforward : (e.root.forward (s.beginVariable e.variableName) b.scheduler).1 with
    err | _ | v
  · have hnow : e.run s events b = _ := run_of_forward_error hforward events b.idle
    rw [hnow, run_of_forward_error hforward events idle]
    exact ⟨rfl, rfl, idle, rfl⟩
  · exact absurd hforward h
  · rw [hforward] at hresult
    exact (simulates_idle hb hroot).run_eq (Constraint.decided_of_result hresult.symm)
      ⟨idle, rfl⟩ events

/-! ## The run -/

/-- **Runs that have to wait.** On a bench without requests, a delay that leaves two working
rounds changes neither the outcome nor the log of a run, and it leaves the world as the run
without the delay does, unless the first verdict is stranded; then both runs fail, and the one
that had to wait has done nothing in the world. A delay of all rounds there are makes a run with
an open call give up, unless the first evaluation fails at a limit already. Settling takes no
more rounds than it may, and what it gives is never pending. -/
theorem run_delayed (hb : Constraint.Built nodes) (hroot : e.root ∈ nodes) (s : ProgramState)
    (events : List TokenEvent) (hidle : b.idle = 0) (hnone : b.scheduler.requests = []) :
    (∀ d, d + 2 ≤ e.maxRounds →
      (e.run s events { b with idle := d }).1 = (e.run s events b).1 ∧
      (e.run s events { b with idle := d }).2.1 = (e.run s events b).2.1 ∧
      (¬ e.Stranded s b →
        (e.run s events { b with idle := d }).2.2.world = (e.run s events b).2.2.world) ∧
      (e.Stranded s b →
        (e.run s events b).1 = .error (.unresolved (.nothingOutstanding e.variableName)) ∧
        (0 < d → (e.run s events { b with idle := d }).2.2.world = b.world))) ∧
    (∀ d, e.maxRounds ≤ d → ¬ e.root.Published s →
      (e.run s events { b with idle := d }).1 =
          .error (.unresolved (.stillPending e.variableName e.maxRounds)) ∨
        ∃ err, err.AtLimit ∧
          (e.root.forward (s.beginVariable e.variableName) b.scheduler).1 = .error err ∧
          (e.run s events { b with idle := d }).1 = .error err) ∧
    ∀ verdict t b', (∃ n ≤ e.maxRounds,
        Bench.Works n b' (e.root.settle e.variableName e.maxRounds verdict t b').2) ∧
      ∀ final u, (e.root.settle e.variableName e.maxRounds verdict t b').1 = .ok (final, u) →
        final.isPending = false := by
  refine ⟨fun d hroom => ?_, fun d hlong hopen => ?_, fun verdict t b' => ?_⟩
  · by_cases hpending :
      (e.root.forward (s.beginVariable e.variableName) b.scheduler).1 = .ok .pending
    · by_cases hpublished : e.root.Published s
      · have hrun := run_of_published hpending hpublished (by omega) events
        have hnow : e.run s events b = _ := hrun b.idle
        refine ⟨by rw [hnow, hrun], by rw [hnow, hrun], fun hnot => ?_, fun _ =>
          ⟨by rw [hnow], fun hpos => ?_⟩⟩
        · have hkeys : e.root.callKeys s.prompt = [] := by
            by_contra hcalls
            exact hnot ⟨hpending, hcalls, hpublished⟩
          have hworld := world_run_of_callKeys hb hroot hnone hpending hkeys (by omega) events
          have hnow : (e.run s events b).2.2.world = b.world := hworld b.idle
          rw [hworld d, hnow]
        · obtain ⟨k, rfl⟩ : ∃ k, d = k + 1 := ⟨d - 1, by omega⟩
          rw [hrun]
          rfl
      · rw [run_eq_of_open hb hroot hidle hnone hpending hpublished hroom]
        exact ⟨rfl, rfl, fun _ => rfl, fun hstranded => absurd hstranded.2.2 hpublished⟩
    · obtain ⟨houtcome, hlog, left, hbench⟩ := run_of_not_pending hb hroot hpending events d
      rw [hbench]
      exact ⟨houtcome.symm, hlog.symm, fun _ => rfl, fun hstranded => absurd hstranded.1 hpending⟩
  · have hresult : (e.root.forward (s.beginVariable e.variableName) b.scheduler).1 =
        e.root.result (s.beginVariable e.variableName).leafResult := hb.forward_eq_result hroot _
    rcases hforward : (e.root.forward (s.beginVariable e.variableName) b.scheduler).1 with
      err | _ | v
    · obtain ⟨answer, calls, -, hlimit, heq⟩ :=
        e.root.exists_askAll_forward (s.beginVariable e.variableName)
      rw [heq] at hforward
      have hrun := run_of_forward_error (b := b) (by rw [heq]; exact hforward) events d
      exact .inr ⟨err, hlimit err hforward, rfl, by rw [hrun]⟩
    · exact .inl (run_fst_of_open hnone hforward hopen hlong)
    · rw [hforward] at hresult
      exact absurd (Constraint.published_of_result hresult.symm) hopen
  · have hsettles := e.root.settles_settleWithin e.variableName e.maxRounds e.maxRounds verdict t b'
    exact ⟨hsettles.works, fun final u hok => (hsettles.decided final u hok).1⟩

end Engine

namespace Sample

/-- A pattern that is read but cannot be matched as a whole, and the variable it is on. -/
def lateInput : Constraint Journal := .reference ⟨"Y", 2⟩ "Y"

@[inherit_doc lateInput]
def tooLong : Constraint Journal :=
  .pattern ⟨"a\x7b4294967295\x7d", 3⟩ ⟨"Y", 2⟩ "Y"
    ⟨"a\x7b4294967295\x7d", [.repetition 4294967295 (some 4294967295) [.literal 'a']]⟩

/-- The call together with the pattern. -/
def limited : Constraint Journal := .all ⟨"all", 4⟩ [called, tooLong]

/-- The call together with the variable. -/
def stranded : Constraint Journal := .all ⟨"all", 4⟩ [called, lateInput]

theorem built_late : Constraint.Built [lateInput, called] :=
  .make lateInput _ (.reference _ _) (by simp [lateInput, Constraint.reference, Constraint.inputs])
    (by simp [lateInput, called, Constraint.reference, Constraint.call, Constraint.id])
    built_called

theorem built_limited : Constraint.Built [limited, tooLong, lateInput, called] := by
  have htooLong : Constraint.Built [tooLong, lateInput, called] :=
    .make tooLong _ (.pattern _ _ _ _)
      (by simp [tooLong, lateInput, Constraint.pattern, Constraint.inputs])
      (by simp [tooLong, lateInput, called, Constraint.pattern, Constraint.reference,
        Constraint.call, Constraint.id]) built_late
  exact .make limited _ (.all _ _) (by simp [limited, Constraint.all, Constraint.inputs])
    (by simp [limited, tooLong, lateInput, called, Constraint.all, Constraint.pattern,
      Constraint.reference, Constraint.call, Constraint.id]) htooLong

theorem built_stranded : Constraint.Built [stranded, lateInput, called] :=
  .make stranded _ (.all _ _) (by simp [stranded, Constraint.all, Constraint.inputs])
    (by simp [stranded, lateInput, called, Constraint.all, Constraint.reference, Constraint.call,
      Constraint.id]) built_late

theorem callKeys_limited : limited.callKeys "" = [⟨⟨"good", 1⟩, ""⟩] := by
  simp [limited, tooLong, called, Constraint.callKeys, Constraint.walk, Constraint.walkFrom,
    Constraint.all, Constraint.pattern, Constraint.reference, Constraint.call, Constraint.listed,
    Constraint.call?, Constraint.operator, Constraint.id]

theorem callKeys_stranded : stranded.callKeys "" = [⟨⟨"good", 1⟩, ""⟩] := by
  simp [stranded, lateInput, called, Constraint.callKeys, Constraint.walk, Constraint.walkFrom,
    Constraint.all, Constraint.reference, Constraint.call, Constraint.listed, Constraint.call?,
    Constraint.operator, Constraint.id]

/-- A bench on which the work is in other hands for some rounds. -/
def waiting (idle : Nat) : Bench Journal := ⟨.empty, none, [], idle⟩

/-- Engines for the call alone, with the pattern, and with the variable. -/
def called3 : Engine Journal := ⟨called, "X", 3, 3⟩

@[inherit_doc called3]
def limited1 : Engine Journal := ⟨limited, "X", 3, 1⟩

@[inherit_doc called3]
def stranded3 : Engine Journal := ⟨stranded, "X", 3, 3⟩

/-- A state in which the call has its result. -/
def answered : ProgramState := ⟨"", [], [(⟨⟨"good", 1⟩, ""⟩, .bool true)], []⟩

end Sample

/-- A run that has to wait for one round, and one that has to wait for too many. -/
theorem Engine.run_delayed_called :
    (Sample.called3.run (.start "") Sample.events (Sample.waiting 1)).1 =
        (Sample.called3.run (.start "") Sample.events (Sample.waiting 0)).1 ∧
      (Sample.called3.run (.start "") Sample.events (Sample.waiting 1)).2.1 =
        (Sample.called3.run (.start "") Sample.events (Sample.waiting 0)).2.1 ∧
      (Sample.called3.run (.start "") Sample.events (Sample.waiting 1)).2.2.world =
        (Sample.called3.run (.start "") Sample.events (Sample.waiting 0)).2.2.world ∧
      (Sample.called3.run (.start "") Sample.events (Sample.waiting 3)).1 =
        .error (.unresolved (.stillPending "X" 3)) := by
  have hopen : ¬ Sample.called.Published (.start "") := by
    intro hpublished
    have hmem : ⟨⟨"good", 1⟩, ""⟩ ∈ Sample.called.callKeys "" := by
      rw [Sample.callKeys_called]
      exact List.mem_cons_self
    exact Bool.false_ne_true (hpublished _ hmem)
  obtain ⟨htolerated, hgiven, -⟩ := Engine.run_delayed (e := Sample.called3)
    (b := Sample.waiting 0) Sample.built_called List.mem_cons_self (.start "") Sample.events rfl rfl
  obtain ⟨houtcome, hlog, hworld, -⟩ := htolerated 1 (by decide)
  refine ⟨houtcome, hlog, hworld fun hstranded => hopen hstranded.2.2, ?_⟩
  rcases hgiven 3 (by decide) hopen with hgiven | ⟨err, -, herror, -⟩
  · exact hgiven
  · have hforward : (Sample.called.forward ((ProgramState.start "").beginVariable "X")
        (Sample.waiting 0).scheduler).1 = .ok .pending := by rfl
    exact absurd (herror.symm.trans hforward) (by simp)

/-- A run that fails at a limit before it waits, and two that fail alike but differ in the
invocations they make. -/
theorem Engine.run_delayed_exceptions :
    (Constraint.Built [Sample.limited, Sample.tooLong, Sample.lateInput, Sample.called] ∧
      ¬ Sample.limited.Published ((ProgramState.start "").withVariable "Y" "" true) ∧
      Sample.limited1.maxRounds ≤ 1 ∧
      (Sample.limited1.run ((ProgramState.start "").withVariable "Y" "" true) []
        (Sample.waiting 1)).1 = .error (.internal (.matchLimit .size))) ∧
    Constraint.Built [Sample.stranded, Sample.lateInput, Sample.called] ∧
      1 + 2 ≤ Sample.stranded3.maxRounds ∧
      (Sample.stranded3.run Sample.answered [] (Sample.waiting 0)).2.2.world = [⟨"good", []⟩] ∧
      (Sample.stranded3.run Sample.answered [] (Sample.waiting 1)).2.2.world = [] := by
  have hopen : ¬ Sample.limited.Published ((ProgramState.start "").withVariable "Y" "" true) := by
    intro hpublished
    have hmem : ⟨⟨"good", 1⟩, ""⟩ ∈ Sample.limited.callKeys "" := by
      rw [Sample.callKeys_limited]
      exact List.mem_cons_self
    exact Bool.false_ne_true (hpublished _ hmem)
  have hpublished : Sample.stranded.Published Sample.answered := by
    intro key hkey
    have hkeys : Sample.stranded.callKeys Sample.answered.prompt = [⟨⟨"good", 1⟩, ""⟩] :=
      Sample.callKeys_stranded
    rw [hkeys, List.mem_singleton] at hkey
    rw [hkey]
    rfl
  have hpending : (Sample.stranded3.root.forward (Sample.answered.beginVariable "X")
      (Sample.waiting 0).scheduler).1 = .ok .pending := by rfl
  have hrun := Engine.run_of_published hpending hpublished (by decide) []
  have hnow : Sample.stranded3.run Sample.answered [] (Sample.waiting 0) = _ := hrun 0
  have hlater : Sample.stranded3.run Sample.answered [] (Sample.waiting 1) = _ := hrun 1
  rw [hnow, hlater]
  exact ⟨⟨Sample.built_limited, hopen, by decide, rfl⟩, Sample.built_stranded, by decide, rfl, rfl⟩

end Guided
