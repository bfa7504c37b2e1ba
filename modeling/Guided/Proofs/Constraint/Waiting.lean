import Guided.Proofs.Constraint.Postprocess
import Guided.Proofs.Constraint.Settling

/-!
# Settling while the work is in other hands

As long as rounds do nothing, settling publishes nothing and evaluates the same state again,
which asks for nothing new. So idle rounds use up rounds and leave everything else as it is.
The first round that works answers all that has been asked for, and evaluation had asked for
every call; so after it, whatever is still pending waits for something that no run can bring,
and two working rounds decide as much as any number of them.

## Main definitions

* `Scheduler.Untouched`: no request has been taken.
* `Constraint.Waits`: the verdict is pending, and evaluating again changes nothing.

## Main statements

* `Constraint.Waits.settleWithin_idle`, `Constraint.Waits.settleWithin_of_le`: idle rounds.
* `Constraint.Waits.settleWithin_eq`: two working rounds are as good as more.
* `Constraint.result_ne_pending`: when a verdict is not pending.
-/
namespace Guided

variable {W : Type}

/-! ## Requests that nobody has taken -/

namespace Scheduler

variable {s : Scheduler W}

/-- All requests are listed, no request has been taken, and none has a resolution. -/
def Untouched (s : Scheduler W) : Prop :=
  ∀ r ∈ s.requests, r.key ∈ s.order ∧ r.state = .waiting ∧ r.promise = none

theorem Untouched.resolution?_eq (h : s.Untouched) (key : CallKey) :
    s.resolution? key = none := by
  rw [resolution?]
  cases hr : s.request? key with
  | none => rfl
  | some r => exact (h r (mem_of_request? hr)).2.2

theorem Untouched.askAll (h : s.Untouched) (prompt : String)
    (calls : List (NodeId × InlineCall W)) : (s.askAll prompt calls).Untouched := by
  induction calls generalizing s with
  | nil => exact h
  | cons call calls ih =>
      refine ih ?_
      intro r hr
      rw [ask, register] at hr ⊢
      split at hr
      · rename_i hthere
        rw [if_pos hthere]
        exact h r hr
      · rename_i hnew
        rw [if_neg hnew]
        rcases List.mem_append.1 hr with hr | hr
        · exact ⟨List.mem_append_left _ (h r hr).1, (h r hr).2⟩
        · rw [List.mem_singleton.1 hr]
          exact ⟨by simp, rfl, rfl⟩

end Scheduler

namespace Constraint

variable {root : Constraint W} {name : String} {rounds : Nat} {s t : ProgramState}
  {b b' : Bench W}

/-! ## Results that are all there -/

/-- Every call has a published result. -/
def Published (root : Constraint W) (s : ProgramState) : Prop :=
  ∀ key ∈ root.callKeys s.prompt, s.results.contains key = true

/-- A round with nothing to publish and nothing outstanding is the last one. -/
theorem Published.settleRound (h : root.Published s) (name : String) (b : Bench W) :
    root.settleRound name s b =
      (.error (.unresolved (.nothingOutstanding name)), b.runPending.2) := by
  have hwaiting : ∀ key ∈ root.callKeys s.prompt, s.results.contains key = false →
      b.runPending.2.scheduler.resolution? key = none := by
    intro key hkey hopen
    simp [h key hkey] at hopen
  have hcount : (root.callKeys s.prompt).countP (fun key => !s.results.contains key) = 0 := by
    rw [List.countP_eq_zero]
    intro key hkey
    simp [h key hkey]
  rw [Constraint.settleRound]
  simp only [publishReady_of_waiting (p := ⟨s, 0, 0⟩) hwaiting, hcount, Nat.add_zero, and_self,
    if_true]

theorem Published.settleWithin (h : root.Published s) (name : String) (rounds left : Nat)
    (b : Bench W) :
    root.settleWithin name rounds (left + 1) .pending s b =
      (.error (.unresolved (.nothingOutstanding name)), b.runPending.2) := by
  rw [Constraint.settleWithin, h.settleRound]

/-! ## Idle rounds -/

/-- The verdict on a state is pending, all that it waits for has been asked for, and no request
has been taken. -/
structure Waits (root : Constraint W) (s : ProgramState) (b : Bench W) : Prop where
  pending : root.forwardOn s b = (.ok .pending, b)
  untouched : b.scheduler.Untouched

/-- Evaluating once more asks for nothing new. -/
theorem waits_of_forwardOn (hnone : b.scheduler.Untouched)
    (h : root.forwardOn s b = (.ok .pending, b')) : root.Waits s b' := by
  obtain ⟨answer, calls, -, -, heq⟩ := root.exists_askAll_forward s
  rw [forwardOn, heq] at h
  obtain ⟨rfl, rfl⟩ := Prod.mk.inj h
  refine ⟨?_, hnone.askAll s.prompt calls⟩
  rw [forwardOn, heq, Bench.withScheduler, Scheduler.askAll_askAll]
  rfl

/-- Evaluation does not look at how long the work will be in other hands. -/
theorem forwardOn_idle (root : Constraint W) (s : ProgramState) (b : Bench W) (idle : Nat) :
    root.forwardOn s { b with idle } =
      ((root.forwardOn s b).1, { (root.forwardOn s b).2 with idle }) := rfl

theorem Waits.of_idle (h : root.Waits s b) (idle : Nat) : root.Waits s { b with idle } where
  pending := by rw [forwardOn_idle, h.pending]
  untouched := h.untouched

/-- An idle round publishes nothing while a run is outstanding. -/
theorem Waits.settleRound_idle (h : root.Waits s b) (hopen : ¬ root.Published s) (name : String)
    (idle : Nat) : root.settleRound name s { b with idle := idle + 1 } =
      (.ok s, { b with idle }) := by
  have hwaiting : ∀ key ∈ root.callKeys s.prompt, s.results.contains key = false →
      b.scheduler.resolution? key = none := fun key _ _ => h.untouched.resolution?_eq key
  have hcount : 0 < (root.callKeys s.prompt).countP fun key => !s.results.contains key := by
    simp only [Published, Classical.not_forall] at hopen
    obtain ⟨key, hkey, hnot⟩ := hopen
    exact List.countP_pos_iff.2 ⟨key, hkey, by simpa using hnot⟩
  have hround : (Bench.runPending { b with idle := idle + 1 }).2 = { b with idle } :=
    Bench.runPending_idle rfl
  rw [Constraint.settleRound]
  simp only [hround, publishReady_of_waiting (p := ⟨s, 0, 0⟩) hwaiting]
  rw [if_neg (by omega)]

/-- Idle rounds are used up, and then settling goes on as it would have done at once. -/
theorem Waits.settleWithin_idle (h : root.Waits s b) (hopen : ¬ root.Published s) (name : String)
    (rounds left idle : Nat) :
    root.settleWithin name rounds (left + idle) .pending s { b with idle } =
      root.settleWithin name rounds left .pending s { b with idle := 0 } := by
  induction idle with
  | zero => rfl
  | succ idle ih =>
      rw [← Nat.add_assoc, Constraint.settleWithin, h.settleRound_idle hopen]
      simp only [(h.of_idle idle).pending]
      exact ih

/-- Idle rounds can use up all rounds that there are. -/
theorem Waits.settleWithin_of_le (h : root.Waits s b) (hopen : ¬ root.Published s)
    (name : String) (rounds : Nat) {left idle : Nat} (hle : left ≤ idle) :
    (root.settleWithin name rounds left .pending s { b with idle }).1 =
      .error (.unresolved (.stillPending name rounds)) := by
  induction left generalizing idle with
  | zero => rfl
  | succ left ih =>
      obtain ⟨idle, rfl⟩ : ∃ k, idle = k + 1 := ⟨idle - 1, by omega⟩
      rw [Constraint.settleWithin, h.settleRound_idle hopen]
      simp only [(h.of_idle idle).pending]
      exact ih (by omega)

/-! ## Working rounds -/

/-- A round that works answers all that has been asked for. -/
theorem Waits.isSome_resolution?_runPending (h : root.Waits s b) (hidle : b.idle = 0)
    {key : CallKey} (hasked : (b.scheduler.request? key).isSome) :
    (b.runPending.2.scheduler.resolution? key).isSome := by
  obtain ⟨f, hf, heq⟩ := b.exists_progress_runPending
  obtain ⟨r, hr⟩ := Option.isSome_iff_exists.1 hasked
  have hworked : b.runPending.2.scheduler.request? key = some (f r) := by
    rw [Scheduler.request?_eq_of_map hf (by rw [heq]), hr, Option.map_some]
  rw [Scheduler.resolution?, hworked]
  exact Bench.resolved_runPending hidle
    (fun r hr => ⟨(h.untouched r hr).1, (h.untouched r hr).2.1⟩) _
    (Scheduler.mem_of_request? hworked)

/-- After a round that works every call has its result. -/
theorem Waits.published_of_settleRound (h : root.Waits s b) (hidle : b.idle = 0)
    (hasked : ∀ key ∈ root.callKeys s.prompt, (b.scheduler.request? key).isSome)
    (hround : (root.settleRound name s b).1 = .ok t) : root.Published t := by
  rw [Published, (gains_of_settleRound hround).prompt_eq]
  rw [Constraint.settleRound] at hround
  split at hround
  · simp at hround
  · rename_i p hpublish
    split at hround
    · simp at hround
    · obtain rfl := Except.ok.inj hround
      obtain ⟨-, -, -, -, hall⟩ := publishReady_spec hpublish
      exact fun key hkey =>
        hall key hkey (h.isSome_resolution?_runPending hidle (hasked key hkey))

/-- Two rounds that work decide what any more of them do. -/
theorem Waits.settleWithin_eq (h : root.Waits s b) (hidle : b.idle = 0)
    (hasked : ∀ key ∈ root.callKeys s.prompt, (b.scheduler.request? key).isSome)
    (name : String) (rounds m n : Nat) :
    root.settleWithin name rounds (m + 2) .pending s b =
      root.settleWithin name rounds (n + 2) .pending s b := by
  have hpublished : ∀ t, (root.settleRound name s b).1 = .ok t → root.Published t :=
    fun t => h.published_of_settleRound hidle hasked
  rw [Constraint.settleWithin, Constraint.settleWithin]
  generalize root.settleRound name s b = first at hpublished ⊢
  obtain ⟨answer, b₁⟩ := first
  rcases answer with err | t
  · rfl
  · dsimp only
    rcases root.forwardOn t b₁ with ⟨err | _ | v, b₂⟩
    · rfl
    · -- What is pending after the first of them cannot be helped by the second.
      have hlast := hpublished t rfl
      simp only [hlast.settleWithin]
    · rfl

/-! ## Verdicts that are not pending -/

theorem any_isPending_of_resultAll {look : NodeId → Operator W → Except Error Eval}
    {cs : List (Constraint W)} {evals : List Eval} (h : resultAll look cs = .ok evals)
    (hdecided : ∀ c ∈ cs, c.result look ≠ .ok .pending) : evals.any Eval.isPending = false := by
  induction cs generalizing evals with
  | nil =>
      rw [resultAll] at h
      obtain rfl := Except.ok.inj h
      rfl
  | cons c cs ih =>
      rw [List.forall_mem_cons] at hdecided
      rw [resultAll] at h
      split at h
      · simp at h
      · rename_i eval heval
        split at h
        · simp at h
        · rename_i rest hrest
          obtain rfl := Except.ok.inj h
          rw [List.any_cons, ih hrest hdecided.2, Bool.or_false]
          cases eval with
          | pending => exact absurd heval hdecided.1
          | value v => rfl

/-- A verdict is not pending if no leaf is. -/
theorem result_ne_pending {look : NodeId → Operator W → Except Error Eval} (root : Constraint W)
    (h : ∀ c, Occurs c root → c.isConnective = false → look c.id c.operator ≠ .ok .pending) :
    root.result look ≠ .ok .pending := by
  induction root using inputs_induction with
  | h id operator inputs ih =>
      rw [result]
      split
      · simp
      · rename_i evals hevals
        have hinputs := any_isPending_of_resultAll hevals fun c hc =>
          ih c hc fun d hd => h d (.input _ c hc hd)
        rw [hinputs, if_neg Bool.false_ne_true]
        have hown := h _ .here
        cases operator with
        | all | any | negation => simp [Operator.combine, Eval.ofBool]
        | reference | constant | pattern | call =>
            exact hown (by simp [isConnective, Constraint.operator])

end Constraint

end Guided
