import Guided.Proofs.Request.Caching

/-!
# Rounds that overlap

Any number of rounds may be under way at once, and requests are registered and forgotten between
their steps. A key that was forgotten and asked for again stands for another request than it did
before, while a job of the earlier one may still be running. What tells the requests apart is the
ticket: a job belongs to the request that it was taken from, or to none that is left.

Jobs are conserved. A job that was taken is queued or running in its round, or it has ended, and
it ends once.

## Main definitions

* `WorkshopEvent`, `takenIn`, `doneIn`: what happens on a bench, and the jobs in it.
* `OpenRound`, `Workshop`, `Workshop.Step`, `Workshop.Steps`: a bench with the rounds on it.
* `Workshop.Coherent`: jobs belong to the requests with their tickets.

## Main statements

* `Workshop.Steps.perm_taken`: a job that was taken is in hand or has ended.
* `Workshop.Steps.coherent`: a job belongs to the request with its ticket, if that is left.
* `Workshop.Steps.ended_unique`, `Workshop.Steps.ended_of_closed`: a job ends once, and before its
  round is closed.
-/
namespace Guided

variable {W : Type}

/-! ## What happens on a bench -/

/-- Requests are registered or forgotten, a round takes its jobs, works on them, or is closed. -/
inductive WorkshopEvent (W : Type) where
  | asked (key : CallKey) (query : Query W) (captures : Fields Value)
  | forgot (keys : List CallKey)
  | took (jobs : List (Job W))
  | worked (e : RoundEvent W)
  | closed (jobs : List (Job W))

namespace WorkshopEvent

/-- The jobs that are taken. -/
def taken : WorkshopEvent W → List (Job W)
  | .took jobs => jobs
  | _ => []

/-- The job that ends, with its answer. -/
def done : WorkshopEvent W → List (Job W × Work)
  | .worked (.ended job work) => [(job, work)]
  | _ => []

/-- What becomes of a request that is there and stays. -/
def change : WorkshopEvent W → Request W → Request W
  | .took _, r => Scheduler.started r
  | .worked (.ended job work), r => r.hear (answerOf (job, work))
  | .closed jobs, r => if (jobs.map (·.key)).contains r.key then Scheduler.closed r else r
  | _, r => r

end WorkshopEvent

/-- The jobs that were taken, in order. -/
def takenIn (log : List (WorkshopEvent W)) : List (Job W) := log.flatMap WorkshopEvent.taken

/-- The jobs that ended, with their answers, in order. -/
def doneIn (log : List (WorkshopEvent W)) : List (Job W × Work) := log.flatMap WorkshopEvent.done

section Logs

variable (log log' : List (WorkshopEvent W)) (e : WorkshopEvent W)

@[simp] theorem takenIn_append : takenIn (log ++ log') = takenIn log ++ takenIn log' :=
  List.flatMap_append

@[simp] theorem takenIn_singleton : takenIn [e] = e.taken := List.flatMap_singleton _ _

@[simp] theorem doneIn_append : doneIn (log ++ log') = doneIn log ++ doneIn log' :=
  List.flatMap_append

@[simp] theorem doneIn_singleton : doneIn [e] = e.done := List.flatMap_singleton _ _

end Logs

theorem mem_takenIn {log : List (WorkshopEvent W)} {job : Job W} :
    job ∈ takenIn log ↔ ∃ jobs, .took jobs ∈ log ∧ job ∈ jobs := by
  rw [takenIn, List.mem_flatMap]
  constructor
  · rintro ⟨e, he, hjob⟩
    cases e with
    | took jobs => exact ⟨jobs, he, hjob⟩
    | _ => simp [WorkshopEvent.taken] at hjob
  · rintro ⟨jobs, hjobs, hjob⟩
    exact ⟨_, hjobs, hjob⟩

theorem mem_doneIn {log : List (WorkshopEvent W)} {job : Job W} {work : Work} :
    (job, work) ∈ doneIn log ↔ .worked (.ended job work) ∈ log := by
  rw [doneIn, List.mem_flatMap]
  constructor
  · rintro ⟨e, he, hjob⟩
    unfold WorkshopEvent.done at hjob
    split at hjob
    · obtain ⟨rfl, rfl⟩ := Prod.mk.inj (List.mem_singleton.1 hjob)
      exact he
    · simp at hjob
  · exact fun h => ⟨_, h, List.mem_singleton.2 rfl⟩

/-! ## Rounds on a bench -/

/-- A round that has taken its jobs and has not been closed: all its jobs, those that have not
been started, and those that are running. -/
structure OpenRound (W : Type) where
  jobs : List (Job W)
  queue : List (Job W)
  running : List (Job W × Work)

/-- The jobs of a round that have not ended. -/
def OpenRound.inHand (ρ : OpenRound W) : List (Job W) := ρ.queue ++ ρ.running.map (·.1)

/-- A bench and the rounds that are under way on it. -/
structure Workshop (W : Type) where
  bench : Bench W
  rounds : List (OpenRound W)

namespace Workshop

/-- A bench on which nothing has been asked for. -/
def opened (cache : Option ResultCache) (world : W) : Workshop W := ⟨.fresh cache world, []⟩

/-- The jobs that have been taken and have not ended. -/
def inHand (s : Workshop W) : List (Job W) := s.rounds.flatMap OpenRound.inHand

/-- Ask for a run. -/
def ask (s : Workshop W) (key : CallKey) (query : Query W) (captures : Fields Value) :
    Workshop W :=
  { s with bench.scheduler := s.bench.scheduler.register key query captures }

/-- Forget requests. -/
def forget (s : Workshop W) (keys : List CallKey) : Workshop W :=
  { s with bench.scheduler := (s.bench.scheduler.forget keys).2 }

/-- A new round takes all waiting requests. -/
def take (s : Workshop W) : Workshop W :=
  ⟨s.bench.taken.bench, s.rounds ++ [⟨s.bench.taken.queue, s.bench.taken.queue, []⟩]⟩

/-- One event. A round works on its jobs under a limit of its own, and it is closed once all of
them have ended. -/
inductive Step (limit : Nat) : Workshop W → WorkshopEvent W → Workshop W → Prop
  | ask (s : Workshop W) (key : CallKey) (query : Query W) (captures : Fields Value) :
      Step limit s (.asked key query captures) (s.ask key query captures)
  | forget (s : Workshop W) (keys : List CallKey) : Step limit s (.forgot keys) (s.forget keys)
  | take (s : Workshop W) : Step limit s (.took s.bench.scheduler.takeWaiting.1) s.take
  | work (before after : List (OpenRound W)) (jobs : List (Job W)) {u v : Underway W}
      {e : RoundEvent W} (h : Underway.Step limit u e v) :
      Step limit ⟨u.bench, before ++ ⟨jobs, u.queue, u.running⟩ :: after⟩ (.worked e)
        ⟨v.bench, before ++ ⟨jobs, v.queue, v.running⟩ :: after⟩
  | close (before after : List (OpenRound W)) (jobs : List (Job W)) (b : Bench W) :
      Step limit ⟨b, before ++ ⟨jobs, [], []⟩ :: after⟩ (.closed jobs)
        ⟨(b.close (jobs.map (·.key))).2, before ++ after⟩

/-- Several events, with the log of them. -/
inductive Steps (limit : Nat) : Workshop W → List (WorkshopEvent W) → Workshop W → Prop
  | refl (s : Workshop W) : Steps limit s [] s
  | snoc {s t u : Workshop W} {log : List (WorkshopEvent W)} {e : WorkshopEvent W}
      (h : Steps limit s log t) (hstep : Step limit t e u) : Steps limit s (log ++ [e]) u

variable {limit : Nat} {s t : Workshop W} {e : WorkshopEvent W} {log past : List (WorkshopEvent W)}
  {r : Request W} {job : Job W} {work : Work} {key : CallKey}

/-! ## Jobs in hand -/

/-- A job goes out of the hands of its round when it ends. -/
theorem perm_of_underway {u v : Underway W} {e : RoundEvent W} (h : Underway.Step limit u e v) :
    (u.queue ++ u.running.map (·.1)).Perm
      ((WorkshopEvent.worked e).done.map (·.1) ++ (v.queue ++ v.running.map (·.1))) := by
  cases h with
  | begin job queue running b hroom =>
      simpa [WorkshopEvent.done] using
        (List.perm_append_singleton job (queue ++ running.map (·.1))).symm
  | finish queue before after job work b =>
      have hmiddle : (queue ++ before.map (·.1) ++ job :: after.map (·.1)).Perm
          (job :: (queue ++ before.map (·.1) ++ after.map (·.1))) := List.perm_middle
      simpa [WorkshopEvent.done] using hmiddle

/-- A job comes into hand when it is taken, and out of hand when it ends. -/
theorem Step.perm_inHand (h : Step limit s e t) :
    (s.inHand ++ e.taken).Perm (e.done.map (·.1) ++ t.inHand) := by
  cases h with
  | ask | forget => simp [WorkshopEvent.taken, WorkshopEvent.done, Workshop.ask, Workshop.forget,
      inHand]
  | take =>
      simp [WorkshopEvent.taken, WorkshopEvent.done, Workshop.take, inHand, OpenRound.inHand,
        Bench.taken]
  | @work before after jobs u v e h =>
      have hround := ((perm_of_underway h).append_right (after.flatMap OpenRound.inHand)).append_left
        (before.flatMap OpenRound.inHand)
      have hended := List.perm_append_comm_assoc (before.flatMap OpenRound.inHand)
        ((WorkshopEvent.worked e).done.map (·.1))
        (v.queue ++ (v.running.map (·.1) ++ after.flatMap OpenRound.inHand))
      simp only [List.append_assoc] at hround
      simpa [WorkshopEvent.taken, inHand, OpenRound.inHand] using hround.trans hended
  | close before after jobs b => simp [WorkshopEvent.taken, WorkshopEvent.done, inHand,
      OpenRound.inHand]

/-- **Jobs are conserved.** A job that was taken is in hand or has ended, and the same job is not
in two places. -/
theorem Steps.perm_taken (h : Steps limit s log t) (hs : s.rounds = []) :
    (takenIn log).Perm ((doneIn log).map (·.1) ++ t.inHand) := by
  induction h with
  | refl => simp [takenIn, doneIn, inHand, hs]
  | @snoc t u log e _ hstep ih =>
      have hkept := ih.append_right e.taken
      have hmoved := hstep.perm_inHand.append_left ((doneIn log).map (·.1))
      rw [List.append_assoc] at hkept
      simpa using hkept.trans hmoved

/-- The jobs of a round are in its hands or have ended. -/
theorem Steps.mem_jobs (h : Steps limit s log t) (hs : s.rounds = []) {ρ : OpenRound W}
    (hρ : ρ ∈ t.rounds) (hjob : job ∈ ρ.jobs) :
    job ∈ ρ.inHand ∨ job ∈ (doneIn log).map (·.1) := by
  induction h generalizing ρ with
  | refl => simp [hs] at hρ
  | @snoc t u log e _ hstep ih =>
      rw [doneIn_append, doneIn_singleton, List.map_append, List.mem_append, ← or_assoc]
      cases hstep with
      | ask | forget => exact .inl (ih hρ hjob)
      | take =>
          rcases List.mem_append.1 hρ with hold | hnew
          · exact .inl (ih hold hjob)
          · obtain rfl := List.mem_singleton.1 hnew
            exact .inl (.inl (List.mem_append_left _ hjob))
      | @work before after jobs u v e hmove =>
          rcases List.mem_append.1 hρ with hbefore | hrest
          · exact .inl (ih (List.mem_append_left _ hbefore) hjob)
          rcases List.mem_cons.1 hrest with rfl | hafter
          · have hround : (⟨jobs, u.queue, u.running⟩ : OpenRound W) ∈
                before ++ ⟨jobs, u.queue, u.running⟩ :: after := by simp
            have hjobs := ih hround hjob
            simp only [OpenRound.inHand, (perm_of_underway hmove).mem_iff] at hjobs
            rcases hjobs.imp_left List.mem_append.1 with (hended | hin) | hdone
            · exact .inr hended
            · exact .inl (.inl hin)
            · exact .inl (.inr hdone)
          · exact .inl (ih (by simp [hafter]) hjob)
      | close before after jobs b =>
          exact .inl (ih (by simpa using (List.mem_append.1 hρ).imp_right .inr) hjob)

end Workshop

/-! ## Requests -/

/-- An answer does not change the stage of a request. -/
theorem Request.state_hear (r : Request W) (a : Nat × Option Resolution) :
    (r.hear a).state = r.state := by
  rw [hear]
  split
  · cases a.2 <;> rfl
  · rfl

namespace WorkshopEvent

theorem progresses_change (e : WorkshopEvent W) : Request.Progresses e.change := by
  cases e with
  | asked | forgot => exact .id
  | took jobs => exact Request.progresses_started
  | worked e =>
      cases e with
      | begun => exact .id
      | ended job work => exact Request.progresses_hear _
  | closed jobs => exact Request.progresses_closed.ite fun r => (jobs.map (·.key)).contains r.key

/-- No request begins to wait again. -/
theorem waiting_of_change {e : WorkshopEvent W} {r : Request W}
    (h : (e.change r).state = .waiting) : r.state = .waiting := by
  cases e with
  | asked | forgot => exact h
  | took jobs =>
      simp only [change, Scheduler.started] at h
      split at h
      · assumption
      · exact h
  | worked e =>
      cases e with
      | begun => exact h
      | ended job work =>
          rwa [change, Request.state_hear] at h
  | closed jobs =>
      simp only [change] at h
      split at h
      · simp [Scheduler.closed] at h
      · exact h

end WorkshopEvent

namespace Workshop

variable {limit : Nat} {s t : Workshop W} {e : WorkshopEvent W} {log past : List (WorkshopEvent W)}
  {r : Request W} {job : Job W} {work : Work} {key : CallKey}

/-- What an event does to the requests: one is registered, some are forgotten, or each one that is
there changes where it is. -/
theorem Step.scheduler_cases (h : Step limit s e t) (hsound : s.bench.scheduler.Sound) :
    (∃ key query captures, e = .asked key query captures ∧
      t.bench.scheduler = s.bench.scheduler.register key query captures) ∨
    (∃ keys, e = .forgot keys ∧ t.bench.scheduler = s.bench.scheduler.drop keys) ∨
    t.bench.scheduler =
      { s.bench.scheduler with requests := s.bench.scheduler.requests.map e.change } := by
  cases h with
  | ask _ key query captures => exact .inl ⟨key, query, captures, rfl, rfl⟩
  | forget _ keys => exact .inr (.inl ⟨keys, rfl, rfl⟩)
  | take =>
      have htaken := congrArg Prod.snd hsound.takeWaiting_eq
      exact .inr (.inr htaken)
  | work before after jobs hmove =>
      right; right
      cases hmove with
      | begin job queue running b hroom =>
          have hsame : b.scheduler.requests.map (WorkshopEvent.worked (.begun job (b.begin job).1)).change =
              b.scheduler.requests := List.map_id _
          rw [hsame, Bench.scheduler_begin]
      | finish queue before after job work b => exact Bench.scheduler_finish_eq_hear b job work
  | close before after jobs b => exact .inr (.inr rfl)

theorem Step.sound (h : Step limit s e t) (hsound : s.bench.scheduler.Sound) :
    t.bench.scheduler.Sound := by
  rcases h.scheduler_cases hsound with ⟨key, query, captures, -, heq⟩ | ⟨keys, -, heq⟩ | heq
  · exact heq ▸ hsound.register key query captures
  · exact heq ▸ hsound.drop keys
  · exact heq ▸ hsound.of_map e.progresses_change

theorem Step.nextTicket_le (h : Step limit s e t) (hsound : s.bench.scheduler.Sound) :
    s.bench.scheduler.nextTicket ≤ t.bench.scheduler.nextTicket := by
  rcases h.scheduler_cases hsound with ⟨key, query, captures, -, heq⟩ | ⟨keys, -, heq⟩ | heq
  · rw [heq, Scheduler.register]
    split
    · exact Nat.le_refl _
    · exact Nat.le_succ _
  · rw [heq]
    rfl
  · rw [heq]

/-- A request was there before the event, or it has a new ticket. -/
theorem Step.mem_requests (h : Step limit s e t) (hsound : s.bench.scheduler.Sound)
    (hr : r ∈ t.bench.scheduler.requests) :
    (∃ q ∈ s.bench.scheduler.requests, e.change q = r) ∨
      r.ticket = s.bench.scheduler.nextTicket := by
  rcases h.scheduler_cases hsound with ⟨key, query, captures, rfl, heq⟩ | ⟨keys, rfl, heq⟩ | heq
  · rw [heq] at hr
    rcases Scheduler.mem_of_mem_register hr with hold | rfl
    · exact .inl ⟨r, hold, rfl⟩
    · exact .inr rfl
  · rw [heq] at hr
    exact .inl ⟨r, (List.mem_filter.1 hr).1, rfl⟩
  · rw [heq] at hr
    exact .inl (List.mem_map.1 hr)

/-- A request changes where it is, unless it is forgotten. -/
theorem Step.request?_eq (h : Step limit s e t) (hsound : s.bench.scheduler.Sound)
    (hr : s.bench.scheduler.request? key = some r)
    (hkept : ∀ keys, e = .forgot keys → key ∉ keys) :
    t.bench.scheduler.request? key = some (e.change r) := by
  rcases h.scheduler_cases hsound with ⟨other, query, captures, rfl, heq⟩ | ⟨keys, rfl, heq⟩ | heq
  · rw [heq, Scheduler.request?_register, hr]
    rfl
  · have hstays := Scheduler.request?_forget s.bench.scheduler keys key
    rw [if_neg (hkept keys rfl), hr] at hstays
    exact heq ▸ hstays
  · rw [Scheduler.request?_eq_of_map e.progresses_change (congrArg Scheduler.requests heq), hr]
    rfl

/-- Jobs that are taken are those of requests that wait, and then wait no more. -/
theorem Step.mem_taken (h : Step limit s e t) (hsound : s.bench.scheduler.Sound)
    (hjob : job ∈ e.taken) : ∃ q ∈ s.bench.scheduler.requests,
      Scheduler.jobOf q = job ∧ q.state = .waiting ∧ (e.change q).state ≠ .waiting := by
  cases h with
  | take =>
      obtain ⟨q, hq, hstate, heq⟩ := hsound.mem_takeWaiting_iff.1 hjob
      exact ⟨q, hq, heq, hstate, by simp [WorkshopEvent.change, Scheduler.started, hstate]⟩
  | _ => simp [WorkshopEvent.taken] at hjob

theorem Step.nodup_taken (h : Step limit s e t) (hsound : s.bench.scheduler.Sound) :
    (e.taken.map (·.ticket)).Nodup := by
  cases h with
  | take =>
      rw [WorkshopEvent.taken, hsound.takeWaiting_eq, List.map_map]
      exact hsound.tickets.sublist (List.filter_sublist.map _)
  | _ => exact List.nodup_nil

/-! ## Jobs and the requests that they were taken from -/

/-- No two jobs have the same ticket. A request whose ticket a job has does not wait any more, and
the job is its own. -/
structure Coherent (log : List (WorkshopEvent W)) (s : Workshop W) : Prop where
  sound : s.bench.scheduler.Sound
  tickets : ((takenIn log).map (·.ticket)).Nodup
  old : ∀ job ∈ takenIn log, job.ticket < s.bench.scheduler.nextTicket
  own : ∀ r ∈ s.bench.scheduler.requests, ∀ job ∈ takenIn log, job.ticket = r.ticket →
    r.state ≠ .waiting ∧ job = Scheduler.jobOf r

theorem coherent_opened (cache : Option ResultCache) (world : W) :
    Coherent [] (opened cache world) where
  sound := Scheduler.sound_empty
  tickets := List.nodup_nil
  old := by simp [takenIn]
  own := by simp [takenIn]

theorem Coherent.step (h : Coherent log s) (hstep : Step limit s e t) :
    Coherent (log ++ [e]) t where
  sound := hstep.sound h.sound
  tickets := by
    rw [takenIn_append, takenIn_singleton, List.map_append]
    refine h.tickets.append (hstep.nodup_taken h.sound) fun ticket hold hnew => ?_
    obtain ⟨job, hjob, rfl⟩ := List.mem_map.1 hold
    obtain ⟨other, hother, heq⟩ := List.mem_map.1 hnew
    obtain ⟨q, hq, rfl, hstate, -⟩ := hstep.mem_taken h.sound hother
    exact (h.own q hq job hjob heq.symm).1 hstate
  old job hjob := by
    refine lt_of_lt_of_le ?_ (hstep.nextTicket_le h.sound)
    rw [takenIn_append, takenIn_singleton] at hjob
    rcases List.mem_append.1 hjob with hold | hnew
    · exact h.old job hold
    · obtain ⟨q, hq, rfl, -, -⟩ := hstep.mem_taken h.sound hnew
      exact h.sound.fresh q hq
  own r hr job hjob heq := by
    rw [takenIn_append, takenIn_singleton] at hjob
    rcases hstep.mem_requests h.sound hr with ⟨q, hq, rfl⟩ | hticket
    · rw [e.progresses_change.ticket] at heq
      rw [e.progresses_change.jobOf]
      rcases List.mem_append.1 hjob with hold | hnew
      · obtain ⟨hstate, hown⟩ := h.own q hq job hold heq
        exact ⟨mt WorkshopEvent.waiting_of_change hstate, hown⟩
      · obtain ⟨q', hq', rfl, -, hstate⟩ := hstep.mem_taken h.sound hnew
        obtain rfl := h.sound.eq_of_ticket_eq hq' hq heq
        exact ⟨hstate, rfl⟩
    · -- The ticket of a request that was registered just now is not that of a job.
      rcases List.mem_append.1 hjob with hold | hnew
      · exact absurd (heq.trans hticket) (h.old job hold).ne
      · obtain ⟨q, hq, rfl, -, -⟩ := hstep.mem_taken h.sound hnew
        exact absurd (heq.trans hticket) (h.sound.fresh q hq).ne

theorem Steps.coherent (h : Steps limit s log t) (hs : Coherent past s) :
    Coherent (past ++ log) t := by
  induction h with
  | refl => simpa using hs
  | snoc _ hstep ih =>
      rw [← List.append_assoc]
      exact ih.step hstep

theorem Steps.trans {u : Workshop W} {log' : List (WorkshopEvent W)} (h : Steps limit s log t)
    (h' : Steps limit t log' u) : Steps limit s (log ++ log') u := by
  induction h' with
  | refl => simpa using h
  | snoc _ hstep ih =>
      rw [← List.append_assoc]
      exact .snoc ih hstep

/-- A request that is not forgotten changes event by event. What is kept by each event of a run
holds after the run. -/
theorem Steps.request?_induct (h : Steps limit s log t)
    (P : List (WorkshopEvent W) → Request W → Prop) (hs : Coherent past s)
    (hr : s.bench.scheduler.request? key = some r)
    (hkept : ∀ keys, .forgot keys ∈ log → key ∉ keys) (hfirst : P [] r)
    (hnext : ∀ before u e v q, Steps limit s before u → Step limit u e v → before ++ [e] <+: log →
      u.bench.scheduler.request? key = some q → P before q → P (before ++ [e]) (e.change q)) :
    ∃ q, t.bench.scheduler.request? key = some q ∧ P log q := by
  induction h with
  | refl => exact ⟨r, hr, hfirst⟩
  | @snoc t u log e hlog hstep ih =>
      obtain ⟨q, hq, hP⟩ := ih (fun keys hkeys => hkept keys (List.mem_append_left _ hkeys))
        fun before u e v q hbefore hevent hpart =>
          hnext before u e v q hbefore hevent (hpart.trans (List.prefix_append _ _))
      refine ⟨e.change q, hstep.request?_eq (hlog.coherent hs).sound hq ?_,
        hnext log t e u q hlog hstep List.prefix_rfl hq hP⟩
      rintro keys rfl
      exact hkept keys (by simp)

/-- A request that is not forgotten keeps its job, and its job is the only one that is taken under
its key. -/
theorem Steps.jobs_eq (h : Steps limit s log t) (hs : Coherent past s)
    (hr : s.bench.scheduler.request? key = some r)
    (hkept : ∀ keys, .forgot keys ∈ log → key ∉ keys) :
    ∃ q, t.bench.scheduler.request? key = some q ∧ Scheduler.jobOf q = Scheduler.jobOf r ∧
      ∀ job ∈ takenIn log, job.key = key → job = Scheduler.jobOf r := by
  refine h.request?_induct (fun log q => Scheduler.jobOf q = Scheduler.jobOf r ∧
    ∀ job ∈ takenIn log, job.key = key → job = Scheduler.jobOf r) hs hr hkept
    ⟨rfl, by simp [takenIn]⟩ ?_
  rintro before u e v q hbefore hevent - hq ⟨hjob, htaken⟩
  refine ⟨(e.progresses_change.jobOf q).trans hjob, fun job hmem hkey => ?_⟩
  rw [takenIn_append, takenIn_singleton] at hmem
  rcases List.mem_append.1 hmem with hold | hnew
  · exact htaken job hold hkey
  · have hsound := (hbefore.coherent hs).sound
    obtain ⟨q', hq', rfl, -, -⟩ := hevent.mem_taken hsound hnew
    have hsame : q' = q := hsound.eq_of_key_eq hq' (Scheduler.mem_of_request? hq)
      (hkey.trans (Scheduler.key_of_request? hq).symm)
    rw [hsame, hjob]

/-! ## Jobs that end -/

section Ends

variable {cache : Option ResultCache} {world : W}

theorem Steps.coherent_of_opened (h : Steps limit (opened cache world) log t) : Coherent log t :=
  h.coherent (coherent_opened cache world)

/-- Jobs that ended were taken. -/
theorem Steps.taken_of_ended (h : Steps limit (opened cache world) log t)
    (hended : .worked (.ended job work) ∈ log) : job ∈ takenIn log :=
  (h.perm_taken rfl).mem_iff.2
    (List.mem_append_left _ (List.mem_map.2 ⟨_, mem_doneIn.2 hended, rfl⟩))

/-- A job ends once. -/
theorem Steps.ended_unique (h : Steps limit (opened cache world) log t) {work' : Work}
    (hended : .worked (.ended job work) ∈ log) (hended' : .worked (.ended job work') ∈ log) :
    work = work' := by
  have hnodup := ((h.perm_taken rfl).map (·.ticket)).nodup_iff.1 h.coherent_of_opened.tickets
  rw [List.map_append, List.map_map] at hnodup
  have hsame := List.inj_on_of_nodup_map hnodup.of_append_left (mem_doneIn.2 hended)
    (mem_doneIn.2 hended') rfl
  exact congrArg Prod.snd hsame

/-- A job that ends now has been taken and has not ended before. -/
theorem Steps.ending {u : Workshop W} (h : Steps limit (opened cache world) log t)
    (hstep : Step limit t (.worked (.ended job work)) u) :
    job ∈ takenIn log ∧ ∀ work', .worked (.ended job work') ∉ log := by
  have hin : job ∈ t.inHand := by
    have hin : job ∈ t.inHand ++ (WorkshopEvent.worked (.ended job work)).taken :=
      hstep.perm_inHand.mem_iff.2 List.mem_cons_self
    simpa [WorkshopEvent.taken] using hin
  have hperm := h.perm_taken rfl
  refine ⟨hperm.mem_iff.2 (List.mem_append_right _ hin), fun work' hended => ?_⟩
  have hnodup := (hperm.map (·.ticket)).nodup_iff.1 h.coherent_of_opened.tickets
  rw [List.map_append, List.map_map] at hnodup
  exact List.disjoint_of_nodup_append hnodup (List.mem_map.2 ⟨_, mem_doneIn.2 hended, rfl⟩)
    (List.mem_map.2 ⟨job, hin, rfl⟩)

/-- When a round is closed, all its jobs have ended. -/
theorem Steps.ended_of_closed (h : Steps limit (opened cache world) log t) {jobs : List (Job W)}
    (hclosed : .closed jobs ∈ log) (hjob : job ∈ jobs) :
    ∃ work, .worked (.ended job work) ∈ log := by
  induction h with
  | refl => simp at hclosed
  | @snoc t u log e hsteps hstep ih =>
      rcases List.mem_append.1 hclosed with hold | hnew
      · obtain ⟨work, hended⟩ := ih hold
        exact ⟨work, List.mem_append_left _ hended⟩
      · obtain rfl := List.mem_singleton.1 hnew
        cases hstep with
        | close before after jobs b =>
            have hround : (⟨jobs, [], []⟩ : OpenRound W) ∈ before ++ ⟨jobs, [], []⟩ :: after := by simp
            have hdone := (hsteps.mem_jobs rfl hround hjob).resolve_left (by simp [OpenRound.inHand])
            obtain ⟨⟨other, work⟩, hmem, rfl⟩ := List.mem_map.1 hdone
            exact ⟨work, List.mem_append_left _ (mem_doneIn.1 hmem)⟩

end Ends

end Workshop

end Guided
