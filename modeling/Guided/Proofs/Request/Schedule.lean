import Guided.Proofs.Request.Rounds

/-!
# Schedules of a round

The jobs of a round run side by side, as many at once as a limit allows. They are started in the
order in which their requests were registered; the order in which they end is open. This is a
transition system, whose states hold the jobs that have not been started and those that run,
each with what it is about to answer. A schedule is a run of it to the end, and its log says
what was started and what ended when.

Requests have tickets of their own, so that the answers of different jobs do not get in each
other's way. What a round makes of the requests is therefore a matter of what the jobs have been
about to answer when they were started, and not of the order in which they ended. Running the
jobs one after the other is one schedule, under every limit.

## Main definitions

* `RoundEvent`, `begunIn`, `endedIn`, `invokedIn`, `foundIn`: what happens in a round.
* `Underway`, `Underway.Step`, `Underway.Steps`: rounds under way, and their moves.
* `Bench.Round`: a whole round, under a limit and with a log.

## Main statements

* `Bench.round_runPending`: the jobs one after the other are a schedule.
* `Bench.Round.begun_eq`, `Bench.Round.perm_ended`: every job is started in turn and ends once.
* `Bench.Round.result_eq`: what a round makes of the requests.
-/
namespace Guided

variable {W : Type}

/-! ## What happens in a round -/

/-- Whether a job has invoked its query. -/
def Work.isInvoked : Work → Bool
  | .invoked _ => true
  | .found _ => false

/-- A job is started or ends. -/
inductive RoundEvent (W : Type) where
  | begun (job : Job W) (work : Work)
  | ended (job : Job W) (work : Work)

namespace RoundEvent

/-- The job that is started, with what it is about to answer. -/
def begun? : RoundEvent W → Option (Job W × Work)
  | .begun job work => some (job, work)
  | .ended _ _ => none

/-- The job that ends, with what it answers. -/
def ended? : RoundEvent W → Option (Job W × Work)
  | .begun _ _ => none
  | .ended job work => some (job, work)

end RoundEvent

/-- The jobs that were started, in order. -/
def begunIn (log : List (RoundEvent W)) : List (Job W × Work) := log.filterMap RoundEvent.begun?

/-- The jobs that ended, in order. -/
def endedIn (log : List (RoundEvent W)) : List (Job W × Work) := log.filterMap RoundEvent.ended?

/-- The jobs whose queries were invoked, in order. -/
def invokedIn (log : List (RoundEvent W)) : List (Job W) :=
  ((begunIn log).filter (·.2.isInvoked)).map (·.1)

/-- The jobs that invoked no query, in order. -/
def foundIn (log : List (RoundEvent W)) : List (Job W) :=
  ((begunIn log).filter (!·.2.isInvoked)).map (·.1)

section Logs

variable (log log' : List (RoundEvent W)) (job : Job W) (work : Work)

@[simp] theorem begunIn_append : begunIn (log ++ log') = begunIn log ++ begunIn log' :=
  List.filterMap_append

@[simp] theorem begunIn_begun : begunIn [.begun job work] = [(job, work)] := rfl

@[simp] theorem begunIn_ended : begunIn [.ended job work] = [] := rfl

@[simp] theorem endedIn_append : endedIn (log ++ log') = endedIn log ++ endedIn log' :=
  List.filterMap_append

@[simp] theorem endedIn_begun : endedIn [.begun job work] = [] := rfl

@[simp] theorem endedIn_ended : endedIn [.ended job work] = [(job, work)] := rfl

end Logs

/-! ## Rounds under way -/

/-- A round under way: the jobs that have not been started, in order, and the running ones. -/
structure Underway (W : Type) where
  queue : List (Job W)
  running : List (Job W × Work)
  bench : Bench W

namespace Underway

/-- One move: the next job is started, if the limit allows it, or any running job ends. A limit
of zero would never let a job start and counts as one. -/
inductive Step (limit : Nat) : Underway W → RoundEvent W → Underway W → Prop
  | begin (job : Job W) (queue : List (Job W)) (running : List (Job W × Work)) (b : Bench W)
      (hroom : running.length < max limit 1) :
      Step limit ⟨job :: queue, running, b⟩ (.begun job (b.begin job).1)
        ⟨queue, running ++ [(job, (b.begin job).1)], (b.begin job).2⟩
  | finish (queue : List (Job W)) (before after : List (Job W × Work)) (job : Job W)
      (work : Work) (b : Bench W) :
      Step limit ⟨queue, before ++ (job, work) :: after, b⟩ (.ended job work)
        ⟨queue, before ++ after, b.finish job work⟩

/-- Several moves, with the log of them. -/
inductive Steps (limit : Nat) : Underway W → List (RoundEvent W) → Underway W → Prop
  | refl (u : Underway W) : Steps limit u [] u
  | snoc {u v w : Underway W} {log : List (RoundEvent W)} {e : RoundEvent W}
      (h : Steps limit u log v) (hstep : Step limit v e w) : Steps limit u (log ++ [e]) w

end Underway

/-! ## Answers -/

/-- The answer of a job, under the ticket of the request that it is for. -/
def answerOf (p : Job W × Work) : Nat × Option Resolution := (p.1.ticket, p.2.resolution?)

/-- What a request makes of an answer. -/
def Request.hear (r : Request W) (a : Nat × Option Resolution) : Request W :=
  if r.ticket = a.1 then r.answered a.2 else r

/-- All requests hear an answer. -/
def Scheduler.hear (s : Scheduler W) (a : Nat × Option Resolution) : Scheduler W :=
  { s with requests := s.requests.map fun r => r.hear a }

namespace Request

theorem progresses_hear (a : Nat × Option Resolution) :
    Progresses fun r : Request W => r.hear a :=
  (progresses_answered a.2).ite fun r => r.ticket = a.1

theorem progresses_foldl_hear (answers : List (Nat × Option Resolution)) :
    Progresses fun r : Request W => answers.foldl hear r := by
  induction answers with
  | nil => exact .id
  | cons a answers ih => exact ih.comp (progresses_hear a)

/-- Answers to other requests change nothing. -/
theorem foldl_hear_of_notMem {r : Request W} {answers : List (Nat × Option Resolution)}
    (h : r.ticket ∉ answers.map (·.1)) : answers.foldl hear r = r := by
  induction answers with
  | nil => rfl
  | cons a answers ih =>
      rw [List.map_cons, List.mem_cons, not_or] at h
      rw [List.foldl_cons, hear, if_neg h.1, ih h.2]

end Request

/-- The request after a round in which the given answers were heard. -/
def Request.ran (answers : List (Nat × Option Resolution)) (r : Request W) : Request W :=
  if r.state = .waiting then
    Scheduler.closed (answers.foldl Request.hear (Scheduler.started r))
  else r

theorem Request.progresses_ran (answers : List (Nat × Option Resolution)) :
    Progresses (ran (W := W) answers) :=
  (progresses_closed.comp ((progresses_foldl_hear answers).comp progresses_started)).ite
    fun r => r.state = .waiting

namespace Scheduler

theorem foldl_hear (answers : List (Nat × Option Resolution)) (s : Scheduler W) :
    answers.foldl hear s =
      { s with requests := s.requests.map fun r => answers.foldl Request.hear r } := by
  induction answers generalizing s with
  | nil => simp
  | cons a answers ih => rw [List.foldl_cons, ih]; simp [hear]

/-- Answers to different requests may be heard in any order. -/
theorem foldl_hear_perm {answers answers' : List (Nat × Option Resolution)}
    (h : answers.Perm answers') (hnodup : (answers.map (·.1)).Nodup) (s : Scheduler W) :
    answers.foldl hear s = answers'.foldl hear s := by
  refine h.foldl_eq' (fun a ha a' ha' s => ?_) s
  by_cases hsame : a.1 = a'.1
  · rw [List.inj_on_of_nodup_map hnodup ha ha' hsame]
  · simp only [hear, List.map_map, mk.injEq, true_and, and_true]
    refine List.map_congr_left fun r _ => ?_
    by_cases hr : r.ticket = a.1
    · have hr' : r.ticket ≠ a'.1 := hr ▸ hsame
      simp [Request.hear, hr, hsame, (Request.progresses_answered a.2).ticket]
    · by_cases hr' : r.ticket = a'.1 <;>
        simp [Request.hear, hr, hr', Ne.symm hsame, (Request.progresses_answered a'.2).ticket]

/-- Requests that were taken, heard the answers to them and were closed. -/
theorem Sound.close_hear {s : Scheduler W} (h : s.Sound)
    {answers : List (Nat × Option Resolution)}
    (htickets : answers.map (·.1) = s.takeWaiting.1.map (·.ticket)) :
    (answers.foldl hear s.takeWaiting.2).close (s.takeWaiting.1.map (·.key)) =
      (s.takeWaiting.1.length, { s with requests := s.requests.map (Request.ran answers) }) := by
  have hkept : ∀ r : Request W, (answers.foldl Request.hear (started r)).key = r.key :=
    ((Request.progresses_foldl_hear answers).comp Request.progresses_started).key
  have htaken : s.takeWaiting.2 = { s with requests := s.requests.map started } := by
    rw [h.takeWaiting_eq]
  rw [foldl_hear, htaken, close]
  refine Prod.ext ?_ ?_
  · have hcount : s.takeWaiting.1.length = (s.requests.filter (·.state = .waiting)).length := by
      rw [h.takeWaiting_eq, List.length_map]
    rw [hcount, List.map_map, List.filter_map, List.length_map]
    refine congrArg List.length (List.filter_congr fun r hr => ?_)
    simp [hkept, h.key_mem_iff hr, -List.mem_map]
  · simp only [List.map_map, mk.injEq, true_and, and_true]
    refine List.map_congr_left fun r hr => ?_
    simp only [Function.comp_apply, List.contains_iff_mem, hkept, h.key_mem_iff hr, Request.ran]
    split
    · rfl
    · rename_i hstate
      have hstays : started r = r := if_neg hstate
      rw [hstays, Request.foldl_hear_of_notMem]
      rwa [htickets, h.ticket_mem_iff hr]

end Scheduler

/-! ## What holds under way -/

namespace Bench

theorem scheduler_begin (b : Bench W) (job : Job W) : (b.begin job).2.scheduler = b.scheduler :=
  rfl

theorem scheduler_finish_eq_hear (b : Bench W) (job : Job W) (work : Work) :
    (b.finish job work).scheduler = b.scheduler.hear (answerOf (job, work)) :=
  scheduler_finish b job work

end Bench

namespace Underway

variable {limit : Nat} {u v w : Underway W} {log log' : List (RoundEvent W)}

theorem Steps.trans (h : Steps limit u log v) (h' : Steps limit v log' w) :
    Steps limit u (log ++ log') w := by
  induction h' with
  | refl => simpa using h
  | snoc _ hstep ih =>
      rw [← List.append_assoc]
      exact .snoc ih hstep

/-- Jobs are started in the order of the queue. -/
theorem Steps.queue_eq (h : Steps limit u log v) :
    u.queue = (begunIn log).map (·.1) ++ v.queue := by
  induction h with
  | refl => rfl
  | snoc _ hstep ih =>
      cases hstep <;> simp [ih]

/-- What has been started has ended or is running, and nothing else is. -/
theorem Steps.perm_running (h : Steps limit u log v) :
    (u.running ++ begunIn log).Perm (endedIn log ++ v.running) := by
  induction h with
  | refl => simp [begunIn, endedIn]
  | snoc _ hstep ih =>
      cases hstep with
      | begin job queue running b hroom =>
          simpa using ih.append_right [(job, (b.begin job).1)]
      | finish queue before after job work b =>
          -- The job that ends goes from the running ones to the end of those that ended.
          simpa using ih.trans (List.perm_middle.append_left _)

/-- The requests have heard the answers of all jobs that ended. -/
theorem Steps.scheduler_eq (h : Steps limit u log v) :
    v.bench.scheduler = ((endedIn log).map answerOf).foldl Scheduler.hear u.bench.scheduler := by
  induction h with
  | refl => rfl
  | snoc _ hstep ih =>
      cases hstep with
      | begin => simpa [Bench.scheduler_begin] using ih
      | finish => simpa [Bench.scheduler_finish_eq_hear] using congrArg (Scheduler.hear · _) ih

theorem Steps.idle_eq (h : Steps limit u log v) : v.bench.idle = u.bench.idle := by
  induction h with
  | refl => rfl
  | snoc _ hstep ih => cases hstep <;> exact ih

/-- The jobs one after the other are a schedule. -/
theorem exists_steps (limit : Nat) (jobs : List (Job W)) (b : Bench W) :
    ∃ log, Steps limit ⟨jobs, [], b⟩ log ⟨[], [], jobs.foldl Bench.runJob b⟩ := by
  induction jobs generalizing b with
  | nil => exact ⟨[], .refl _⟩
  | cons job jobs ih =>
      obtain ⟨log, hlog⟩ := ih (b.runJob job)
      have hbegin : Step limit ⟨job :: jobs, [], b⟩ (.begun job (b.begin job).1)
          ⟨jobs, [(job, (b.begin job).1)], (b.begin job).2⟩ :=
        .begin job jobs [] b (Nat.lt_of_lt_of_le Nat.zero_lt_one (Nat.le_max_right _ _))
      have hfinish : Step limit ⟨jobs, [(job, (b.begin job).1)], (b.begin job).2⟩
          (.ended job (b.begin job).1) ⟨jobs, [], b.runJob job⟩ :=
        .finish jobs [] [] job _ _
      exact ⟨_, (((Steps.refl _).snoc hbegin).snoc hfinish).trans hlog⟩

end Underway

/-! ## Whole rounds -/

namespace Bench

/-- The requests with the given keys are closed. -/
def close (b : Bench W) (keys : List CallKey) : Nat × Bench W :=
  ((b.scheduler.close keys).1, { b with scheduler := (b.scheduler.close keys).2 })

/-- A round under way that takes all waiting requests. -/
def taken (b : Bench W) : Underway W :=
  ⟨b.scheduler.takeWaiting.1, [], { b with scheduler := b.scheduler.takeWaiting.2 }⟩

/-- A whole round under a limit, with its log and the number of requests that it closes: all
waiting requests are taken, their jobs run to the end, and the requests are closed. -/
def Round (limit : Nat) (b : Bench W) (log : List (RoundEvent W)) (n : Nat) (b' : Bench W) :
    Prop :=
  b.idle = 0 ∧ ∃ c : Bench W, Underway.Steps limit b.taken log ⟨[], [], c⟩ ∧
    (n, b') = c.close (b.scheduler.takeWaiting.1.map (·.key))

/-- Running the jobs of a round one after the other is a schedule of it. -/
theorem round_runPending (limit : Nat) {b : Bench W} (hidle : b.idle = 0) :
    ∃ log, b.Round limit log b.runPending.1 b.runPending.2 := by
  obtain ⟨log, hlog⟩ := Underway.exists_steps limit b.scheduler.takeWaiting.1
    { b with scheduler := b.scheduler.takeWaiting.2 }
  refine ⟨log, hidle, _, hlog, ?_⟩
  obtain ⟨scheduler, cache, world, idle⟩ := b
  obtain rfl : idle = 0 := hidle
  rfl

namespace Round

variable {limit n : Nat} {b b' : Bench W} {log : List (RoundEvent W)}

/-- The jobs of the waiting requests are started, in the order of their registration. -/
theorem begun_eq (h : b.Round limit log n b') :
    (begunIn log).map (·.1) = b.scheduler.takeWaiting.1 := by
  obtain ⟨-, c, hsteps, -⟩ := h
  simpa [taken] using hsteps.queue_eq.symm

/-- Every job that is started ends once, and answers what it was about to. -/
theorem perm_ended (h : b.Round limit log n b') : (begunIn log).Perm (endedIn log) := by
  obtain ⟨-, c, hsteps, -⟩ := h
  simpa [taken] using hsteps.perm_running

theorem idle_eq (h : b.Round limit log n b') : b'.idle = 0 := by
  obtain ⟨hidle, c, hsteps, heq⟩ := h
  obtain ⟨-, rfl⟩ := Prod.mk.inj heq
  exact hsteps.idle_eq.trans hidle

/-- The answers carry the tickets of the requests that were taken. -/
theorem tickets_eq (h : b.Round limit log n b') :
    ((begunIn log).map answerOf).map (·.1) = b.scheduler.takeWaiting.1.map (·.ticket) := by
  rw [← h.begun_eq, List.map_map, List.map_map]
  rfl

/-- **The order of ending does not matter.** A round closes the requests that have been waiting,
with what they hear from the jobs in the order in which these were started, and does nothing to
the others. -/
theorem result_eq (h : b.Round limit log n b') (hsound : b.scheduler.Sound) :
    (n, b'.scheduler) =
      (b.scheduler.takeWaiting.1.length,
        { b.scheduler with
          requests := b.scheduler.requests.map (Request.ran ((begunIn log).map answerOf)) }) := by
  have htickets := h.tickets_eq
  have hnodup : (((begunIn log).map answerOf).map (·.1)).Nodup := by
    rw [htickets, hsound.takeWaiting_eq, List.map_map]
    exact hsound.tickets.sublist (List.filter_sublist.map _)
  have hperm := h.perm_ended.map answerOf
  obtain ⟨-, c, hsteps, heq⟩ := h
  obtain ⟨rfl, rfl⟩ := Prod.mk.inj heq
  rw [← hsound.close_hear htickets, Scheduler.foldl_hear_perm hperm hnodup]
  change c.scheduler.close _ = _
  rw [hsteps.scheduler_eq]
  rfl

end Round

end Bench

/-! ## Rounds without a cache -/

/-- Jobs with the outcomes of their queries, each invoked in the world that the one before it has
left, and the last of these worlds. -/
def invokeAll : List (Job W) → W → List (Job W × Work) × W
  | [], world => ([], world)
  | job :: jobs, world =>
      let (outcome, world) := job.query.invoke job.captures world
      let (works, world) := invokeAll jobs world
      ((job, .invoked outcome) :: works, world)

theorem map_fst_invokeAll (jobs : List (Job W)) (world : W) :
    (invokeAll jobs world).1.map (·.1) = jobs := by
  induction jobs generalizing world with
  | nil => rfl
  | cons job jobs ih => simp [invokeAll, ih]

theorem tickets_invokeAll (jobs : List (Job W)) (world : W) :
    ((invokeAll jobs world).1.map answerOf).map (·.1) = jobs.map (·.ticket) := by
  conv_rhs => rw [← map_fst_invokeAll jobs world]
  rw [List.map_map, List.map_map]
  rfl

theorem exists_of_mem_invokeAll {jobs : List (Job W)} {world : W} {p : Job W × Work}
    (h : p ∈ (invokeAll jobs world).1) :
    p.1 ∈ jobs ∧ ∃ world', p.2 = .invoked (p.1.query.invoke p.1.captures world').1 := by
  induction jobs generalizing world with
  | nil => simp [invokeAll] at h
  | cons job jobs ih =>
      rcases List.mem_cons.1 h with rfl | h
      · exact ⟨.head _, world, rfl⟩
      · exact ⟨.tail _ (ih h).1, (ih h).2⟩

/-- Without a cache every job that is started invokes its query, in the world that the one before
it has left. -/
theorem Underway.Steps.invokeAll_eq {limit : Nat} {u v : Underway W} {log : List (RoundEvent W)}
    (h : Steps limit u log v) (hcache : u.bench.cache = none) :
    v.bench.cache = none ∧
      invokeAll u.queue u.bench.world =
        (begunIn log ++ (invokeAll v.queue v.bench.world).1,
          (invokeAll v.queue v.bench.world).2) := by
  induction h with
  | refl => exact ⟨hcache, rfl⟩
  | snoc _ hstep ih =>
      obtain ⟨hnone, heq⟩ := ih
      cases hstep with
      | begin job queue running b hroom =>
          rw [Bench.begin_of_none hnone]
          exact ⟨hnone, by simpa [invokeAll] using heq⟩
      | finish queue before after job work b =>
          exact ⟨Bench.cache_finish hnone job work, by simpa [Bench.finish] using heq⟩

namespace Bench.Round

variable {limit n : Nat} {b b' : Bench W} {log : List (RoundEvent W)}

theorem invokeAll_eq (h : b.Round limit log n b') (hcache : b.cache = none) :
    b'.cache = none ∧ invokeAll b.scheduler.takeWaiting.1 b.world = (begunIn log, b'.world) := by
  obtain ⟨-, c, hsteps, heq⟩ := h
  obtain ⟨-, rfl⟩ := Prod.mk.inj heq
  simpa [invokeAll, taken, close] using hsteps.invokeAll_eq hcache

/-- Without a cache the queries of all waiting requests are invoked, in their order. -/
theorem invoked_eq (h : b.Round limit log n b') (hcache : b.cache = none) :
    invokedIn log = b.scheduler.takeWaiting.1 := by
  have hbegun : begunIn log = (invokeAll b.scheduler.takeWaiting.1 b.world).1 :=
    (congrArg Prod.fst (h.invokeAll_eq hcache).2).symm
  have hinvoked : ∀ p ∈ (invokeAll b.scheduler.takeWaiting.1 b.world).1, p.2.isInvoked := by
    intro p hp
    obtain ⟨-, world', heq⟩ := exists_of_mem_invokeAll hp
    rw [heq]
    rfl
  rw [invokedIn, hbegun, List.filter_eq_self.2 hinvoked, map_fst_invokeAll]

end Bench.Round

end Guided
