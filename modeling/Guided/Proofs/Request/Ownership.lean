import Guided.Proofs.Request.Interleaving

/-!
# Whose resolution it is

A request is resolved by its own job, even if its key has stood for another request before, and
whatever the rounds do that are under way meanwhile. With a cache, the answer of a job may be a
result that an earlier job with the same source and the same bindings has left there, but it is
the job itself that answers with it.

This has one limit. Closing a round is a matter of keys: it does not ask whether the requests under
the keys of its jobs are those that it took. A request that has been registered again under one of
them is then over although it has not been taken.

## Main definitions

* `Job.ComesTo`, `Request.Own`: a request has come to what its own job came to, or nowhere yet.
* `Job.MayAnswer`, `Begun`: what a job may be about to answer when it is started.
* `Accounted`: where answers and cached results are from.

## Main statements

* `Workshop.Step.own`, `Workshop.Steps.own`: nothing but its own job resolves a request.
* `Accounted.step`, `Workshop.Steps.accounted`: every answer is accounted for.
* `Workshop.own_resolution`: a resolution belongs to the request it is stored on.
* `Workshop.closed_untaken`: closing a round resolves a request that it did not take.
-/
namespace Guided

variable {W : Type}

/-! ## What a request comes to -/

/-- A job has come to this: it has ended with it, or it was cut off and its round was closed. -/
def Job.ComesTo (job : Job W) (log : List (WorkshopEvent W)) (x : Resolution) : Prop :=
  ∃ work, .worked (.ended job work) ∈ log ∧
    (work.resolution? = some x ∨
      work.resolution? = none ∧ x = .failed cutOffReason ∧ ∃ jobs, .closed jobs ∈ log ∧ job ∈ jobs)

/-- What a job that has ended once has come to. -/
theorem Job.comesTo_iff {job : Job W} {log : List (WorkshopEvent W)} {work : Work}
    (h : ∀ work', .worked (.ended job work') ∈ log ↔ work' = work) {x : Resolution} :
    job.ComesTo log x ↔ work.resolution? = some x ∨
      work.resolution? = none ∧ x = .failed cutOffReason ∧
        ∃ jobs, .closed jobs ∈ log ∧ job ∈ jobs := by
  simp only [ComesTo, h, exists_eq_left]

/-- A request, after what happened since it was registered: it waits until a round takes what
waits, and nothing but its own job resolves it. -/
structure Request.Own (job : Job W) (log : List (WorkshopEvent W)) (r : Request W) : Prop where
  jobOf : Scheduler.jobOf r = job
  waiting : r.state = .waiting ↔ ∀ jobs, .took jobs ∉ log
  unresolved : r.state = .waiting → r.promise = none
  resolved : ∀ x, r.promise = some x ↔ job.ComesTo log x

/-- An answer counts unless there has been one before. -/
theorem Request.promise_answered (r : Request W) (resolution : Option Resolution) :
    (r.answered resolution).promise = r.promise.or resolution := by
  cases resolution <;> cases hpromise : r.promise <;> simp [answered, hpromise]

theorem Request.promise_closed (r : Request W) :
    (Scheduler.closed r).promise = r.promise.or (some (.failed cutOffReason)) := by
  cases hpromise : r.promise <;> simp [Scheduler.closed, hpromise]

/-- Taking a request does not resolve it. -/
theorem Request.promise_started (r : Request W) : (Scheduler.started r).promise = r.promise := by
  rw [Scheduler.started]
  split <;> rfl

namespace Request.Own

variable {job : Job W} {log : List (WorkshopEvent W)} {e : WorkshopEvent W} {r : Request W}

/-- What is not about the request leaves it alone. -/
theorem of_other (h : r.Own job log) (hsame : e.change r = r) (htook : ∀ jobs, e ≠ .took jobs)
    (hended : ∀ work, e ≠ .worked (.ended job work))
    (hclosed : ∀ jobs, e = .closed jobs → job ∉ jobs) : (e.change r).Own job (log ++ [e]) := by
  rw [hsame]
  refine ⟨h.jobOf, h.waiting.trans ?_, h.unresolved, fun x => (h.resolved x).trans ?_⟩
  · simp [fun jobs => (htook jobs).symm]
  · have hends : ∀ work, .worked (.ended job work) ∈ log ++ [e] ↔ .worked (.ended job work) ∈ log := by
      simp [fun work => (hended work).symm]
    have hcloses : (∃ jobs, .closed jobs ∈ log ++ [e] ∧ job ∈ jobs) ↔
        ∃ jobs, .closed jobs ∈ log ∧ job ∈ jobs := by
      refine exists_congr fun jobs => and_congr_left fun hjob => ?_
      have hother : .closed jobs ≠ e := fun heq => hclosed jobs heq.symm hjob
      simp [hother]
    simp only [Job.ComesTo, hends, hcloses]

/-- A round takes what waits. -/
theorem took (h : r.Own job log) (jobs : List (Job W)) :
    (Scheduler.started r).Own job (log ++ [.took jobs]) := by
  have hstate : (Scheduler.started r).state ≠ .waiting := by
    rw [Scheduler.started]
    split
    · simp
    · assumption
  refine ⟨(Request.progresses_started.jobOf r).trans h.jobOf, iff_of_false hstate ?_,
    fun hwaiting => absurd hwaiting hstate, fun x => ?_⟩
  · exact fun hnone => hnone jobs (by simp)
  · rw [Request.promise_started, h.resolved]
    simp [Job.ComesTo]

/-- The job of the request ends. -/
theorem ended (h : r.Own job log) (hstate : r.state ≠ .waiting)
    (hfirst : ∀ work, .worked (.ended job work) ∉ log)
    (hopen : ∀ jobs, .closed jobs ∈ log → job ∉ jobs) (work : Work) :
    (r.hear (answerOf (job, work))).Own job (log ++ [.worked (.ended job work)]) := by
  have hnone : r.promise = none := Option.eq_none_iff_forall_ne_some.2 fun x hx => by
    obtain ⟨work', hended, -⟩ := (h.resolved x).1 hx
    exact hfirst work' hended
  have hheard : r.hear (answerOf (job, work)) = r.answered work.resolution? :=
    if_pos (congrArg Job.ticket h.jobOf)
  have hends : ∀ work', .worked (.ended job work') ∈ log ++ [.worked (.ended job work)] ↔
      work' = work := by
    simp [hfirst]
  refine ⟨((Request.progresses_hear _).jobOf r).trans h.jobOf, ?_, ?_, fun x => ?_⟩
  · rw [Request.state_hear, h.waiting]
    simp
  · rw [Request.state_hear]
    exact fun hwaiting => absurd hwaiting hstate
  · have hcomes : job.ComesTo (log ++ [.worked (.ended job work)]) x ↔
        work.resolution? = some x := by
      have hnever : ¬ ∃ jobs, .closed jobs ∈ log ++ [.worked (.ended job work)] ∧ job ∈ jobs := by
        simpa using hopen
      rw [Job.comesTo_iff hends]
      simp only [hnever, and_false, or_false]
    rw [hcomes, hheard, Request.promise_answered, hnone, Option.none_or]

/-- The round of the request is closed. -/
theorem closed (h : r.Own job log) (hstate : r.state ≠ .waiting) {work : Work}
    (hended : .worked (.ended job work) ∈ log)
    (honce : ∀ work', .worked (.ended job work') ∈ log → work' = work) {jobs : List (Job W)}
    (hjob : job ∈ jobs) : (Scheduler.closed r).Own job (log ++ [.closed jobs]) := by
  have hends : ∀ work', .worked (.ended job work') ∈ log ↔ work' = work :=
    fun work' => ⟨honce work', fun heq => heq ▸ hended⟩
  have hcomes : ∀ x, job.ComesTo (log ++ [.closed jobs]) x ↔
      work.resolution? = some x ∨ work.resolution? = none ∧ x = .failed cutOffReason := by
    intro x
    have hcloses : ∃ jobs', .closed jobs' ∈ log ++ [.closed jobs] ∧ job ∈ jobs' :=
      ⟨jobs, by simp, hjob⟩
    rw [Job.comesTo_iff (by simpa using hends)]
    simp only [hcloses, and_true]
  have hbefore : ∀ x, r.promise = some x →
      work.resolution? = some x ∨ work.resolution? = none ∧ x = .failed cutOffReason := by
    intro x hx
    rcases (Job.comesTo_iff hends).1 ((h.resolved x).1 hx) with hanswer | ⟨hnone, hcut, -⟩
    · exact .inl hanswer
    · exact .inr ⟨hnone, hcut⟩
  refine ⟨(Request.progresses_closed.jobOf r).trans h.jobOf, ?_, ?_, fun x => ?_⟩
  · have htook : ¬ ∀ jobs, .took jobs ∉ log := mt h.waiting.2 hstate
    simpa [Scheduler.closed] using htook
  · simp [Scheduler.closed]
  · rw [hcomes, Request.promise_closed, Option.or_eq_some_iff]
    constructor
    · rintro (hreached | ⟨hnone, hcut⟩)
      · exact hbefore x hreached
      · have hsilent : work.resolution? = none := Option.eq_none_iff_forall_ne_some.2 fun y hy => by
          simp [(h.resolved y).2 ⟨work, hended, .inl hy⟩] at hnone
        exact .inr ⟨hsilent, (Option.some.inj hcut).symm⟩
    · rintro (hanswer | ⟨hsilent, rfl⟩)
      · exact .inl ((h.resolved x).2 ⟨work, hended, .inl hanswer⟩)
      · cases hreached : r.promise with
        | none => exact .inr ⟨rfl, rfl⟩
        | some y =>
            obtain ⟨-, rfl⟩ := (hbefore y hreached).resolve_left (by simp [hsilent])
            exact .inl rfl

end Request.Own

namespace Workshop

section Owning

variable {limit : Nat} {cache : Option ResultCache} {world : W} {s t u : Workshop W}
  {e : WorkshopEvent W} {log past : List (WorkshopEvent W)} {r : Request W} {job : Job W}
  {work : Work} {key : CallKey}

/-- Whatever is closed meanwhile, what comes to be stored on a request is the answer of its own
job, or that the job was cut off. -/
theorem Step.promise_cases (hstep : Step limit s e t) (hsteps : Steps limit (opened cache world) log s)
    (hr : s.bench.scheduler.request? key = some r) {x : Resolution}
    (hx : (e.change r).promise = some x) :
    r.promise = some x ∨ x = .failed cutOffReason ∨
      ∃ work, e = .worked (.ended (Scheduler.jobOf r) work) ∧ work.resolution? = some x := by
  cases e with
  | asked | forgot => exact .inl hx
  | took jobs => exact .inl (r.promise_started ▸ hx)
  | worked e =>
      cases e with
      | begun => exact .inl hx
      | ended other work =>
          rw [WorkshopEvent.change, Request.hear] at hx
          split at hx
          · rename_i hticket
            obtain ⟨htaken, -⟩ := hsteps.ending hstep
            obtain ⟨-, rfl⟩ := hsteps.coherent_of_opened.own r (Scheduler.mem_of_request? hr) other
              htaken hticket.symm
            rw [Request.promise_answered, Option.or_eq_some_iff] at hx
            exact hx.imp_right fun hanswer => .inr ⟨work, rfl, hanswer.2⟩
          · exact .inl hx
  | closed jobs =>
      simp only [WorkshopEvent.change] at hx
      split at hx
      · rw [Request.promise_closed, Option.or_eq_some_iff] at hx
        exact hx.imp_right fun hcut => .inl (Option.some.inj hcut.2).symm
      · exact .inl hx

/-- **One event.** A request that has come to what its own job came to does so on, as long as no
round is closed that took another request with its key. -/
theorem Step.own (hstep : Step limit s e t)
    (hsteps : Steps limit (opened cache world) (past ++ log) s)
    (hnew : ∀ work, .worked (.ended job work) ∉ past)
    (hr : s.bench.scheduler.request? key = some r) (hown : r.Own job log)
    (hclosed : ∀ jobs, e = .closed jobs → ∀ other ∈ jobs, other.key = key → other = job) :
    (e.change r).Own job (log ++ [e]) := by
  have hticket : r.ticket = job.ticket := congrArg Job.ticket hown.jobOf
  have hstate : job ∈ takenIn (past ++ log) → r.state ≠ .waiting := fun htaken =>
    (hsteps.coherent_of_opened.own r (Scheduler.mem_of_request? hr) job htaken hticket.symm).1
  cases e with
  | asked key query captures => exact hown.of_other rfl (by simp) (by simp) (by simp)
  | forgot keys => exact hown.of_other rfl (by simp) (by simp) (by simp)
  | took jobs => exact hown.took jobs
  | worked e =>
      cases e with
      | begun other work => exact hown.of_other rfl (by simp) (by simp) (by simp)
      | ended other work =>
          obtain ⟨htaken, hfirst⟩ := hsteps.ending hstep
          by_cases hother : r.ticket = other.ticket
          · -- The tickets agree, so that it is the job of this request.
            obtain ⟨-, heq⟩ := hsteps.coherent_of_opened.own r (Scheduler.mem_of_request? hr) other
              htaken hother.symm
            obtain rfl : other = job := heq.trans hown.jobOf
            refine hown.ended (hstate htaken) (fun work' hended => ?_) (fun jobs hjobs hjob => ?_) work
            · exact hfirst work' (List.mem_append_right _ hended)
            · obtain ⟨work', hended⟩ := hsteps.ended_of_closed (List.mem_append_right _ hjobs) hjob
              exact hfirst work' hended
          · refine hown.of_other (if_neg hother) (by simp) (fun work' heq => hother ?_) (by simp)
            obtain ⟨rfl, -⟩ := RoundEvent.ended.inj (WorkshopEvent.worked.inj heq)
            exact hticket
  | closed jobs =>
      by_cases hjob : job ∈ jobs
      · have hkey : (jobs.map (·.key)).contains r.key = true := by
          rw [List.contains_iff_mem, show r.key = job.key from congrArg Job.key hown.jobOf]
          exact List.mem_map_of_mem hjob
        obtain ⟨work, hended⟩ := (hsteps.snoc hstep).ended_of_closed (by simp) hjob
        have hended' : .worked (.ended job work) ∈ past ++ log := by simpa using hended
        rw [WorkshopEvent.change, if_pos hkey]
        have hlog : .worked (.ended job work) ∈ log :=
          (List.mem_append.1 hended').resolve_left (hnew work)
        exact hown.closed (hstate (hsteps.taken_of_ended hended')) hlog
          (fun work' hlater => hsteps.ended_unique (List.mem_append_right _ hlater) hended') hjob
      · have hkey : ¬ (jobs.map (·.key)).contains r.key = true := by
          rw [List.contains_iff_mem, List.mem_map]
          rintro ⟨other, hmem, heq⟩
          have hsame := hclosed jobs rfl other hmem (heq.trans (Scheduler.key_of_request? hr))
          exact hjob (hsame ▸ hmem)
        refine hown.of_other (if_neg hkey) (by simp) (by simp) fun jobs' heq => ?_
        rwa [← WorkshopEvent.closed.inj heq]

/-- A request that is not forgotten comes to what its own job has answered, or to nothing but that
the job was cut off. -/
theorem Steps.promise_cases (h : Steps limit s log t)
    (hsteps : Steps limit (opened cache world) past s)
    (hr : s.bench.scheduler.request? key = some r) (hnone : r.promise = none)
    (hkept : ∀ keys, .forgot keys ∈ log → key ∉ keys) :
    ∃ q, t.bench.scheduler.request? key = some q ∧ Scheduler.jobOf q = Scheduler.jobOf r ∧
      ∀ x, q.promise = some x → x = .failed cutOffReason ∨
        ∃ work, .worked (.ended (Scheduler.jobOf r) work) ∈ log ∧ work.resolution? = some x := by
  refine h.request?_induct (fun log q => Scheduler.jobOf q = Scheduler.jobOf r ∧
    ∀ x, q.promise = some x → x = .failed cutOffReason ∨
      ∃ work, .worked (.ended (Scheduler.jobOf r) work) ∈ log ∧ work.resolution? = some x)
    hsteps.coherent_of_opened hr hkept ⟨rfl, by simp [hnone]⟩ ?_
  rintro before u e v q hbefore hevent - hq ⟨hjob, hanswered⟩
  refine ⟨(e.progresses_change.jobOf q).trans hjob, fun x hx => ?_⟩
  rcases hevent.promise_cases (hsteps.trans hbefore) hq hx with hold | hcut | ⟨work, rfl, hres⟩
  · refine (hanswered x hold).imp_right ?_
    rintro ⟨work, hended, hres⟩
    exact ⟨work, List.mem_append_left _ hended, hres⟩
  · exact .inl hcut
  · exact .inr ⟨work, by simp [hjob], hres⟩

/-- **Any number of events.** -/
theorem Steps.own (h : Steps limit s log t) (hsteps : Steps limit (opened cache world) past s)
    (hnew : ∀ work, .worked (.ended job work) ∉ past)
    (hr : s.bench.scheduler.request? key = some r) (hown : r.Own job [])
    (hkept : ∀ keys, .forgot keys ∈ log → key ∉ keys)
    (hclosed : ∀ jobs, .closed jobs ∈ log → ∀ other ∈ jobs, other.key = key → other = job) :
    ∃ q, t.bench.scheduler.request? key = some q ∧ q.Own job log := by
  refine h.request?_induct (fun log q => q.Own job log) hsteps.coherent_of_opened hr hkept hown ?_
  intro before u e v q hbefore hevent hpart hq hqown
  refine hevent.own (hsteps.trans hbefore) hnew hq hqown ?_
  rintro jobs rfl
  exact hclosed jobs (hpart.subset (by simp))

end Owning

end Workshop

/-! ## What a job may answer -/

section Answering

variable {cache now : Option ResultCache} {log : List (WorkshopEvent W)} {e : WorkshopEvent W}
  {job : Job W} {work : Work} {limit : Nat} {s t : Workshop W}

/-- A job with this source and these bindings has invoked its query and come to this result. -/
def ResultIn (log : List (WorkshopEvent W)) (source : String) (captures : Fields Value)
    (v : Value) : Prop :=
  ∃ job o, .worked (.ended job (.invoked (.output o))) ∈ log ∧ job.query.source = source ∧
    job.captures = captures ∧ o.result = v

/-- A job may answer what its own query comes to, invoked with its own bindings. With a cache, it
may also answer a result that has been cached from the beginning, or that a job with the same
source and the same bindings has come to before. -/
def Job.MayAnswer (cache : Option ResultCache) (log : List (WorkshopEvent W)) (job : Job W) :
    Work → Prop
  | .invoked outcome => ∃ world, (job.query.invoke job.captures world).1 = outcome
  | .found v => ∃ c, cache = some c ∧
      (c.get? job.cacheKey = some v ∨ ResultIn log job.query.source job.captures v)

/-- What is cached has been cached from the beginning, or jobs have come to it. -/
def Stocked (cache : Option ResultCache) (log : List (WorkshopEvent W))
    (now : Option ResultCache) : Prop :=
  ∀ c', now = some c' → ∃ c, cache = some c ∧ ∀ source captures v,
    c'.get? (.ofArgs source (.object captures)) = some v →
      c.get? (.ofArgs source (.object captures)) = some v ∨ ResultIn log source captures v

/-- A job has been started, and was about to answer what it might. -/
def Begun (cache : Option ResultCache) (log : List (WorkshopEvent W)) (job : Job W) (work : Work) :
    Prop :=
  ∃ before after, log = before ++ .worked (.begun job work) :: after ∧
    job.MayAnswer cache before work

theorem ResultIn.append {source : String} {captures : Fields Value} {v : Value}
    (h : ResultIn log source captures v) (log' : List (WorkshopEvent W)) :
    ResultIn (log ++ log') source captures v := by
  obtain ⟨job, o, hended, hrest⟩ := h
  exact ⟨job, o, List.mem_append_left _ hended, hrest⟩

theorem Stocked.append (h : Stocked cache log now) (log' : List (WorkshopEvent W)) :
    Stocked cache (log ++ log') now := by
  intro c' hc'
  obtain ⟨c, hc, hget⟩ := h c' hc'
  exact ⟨c, hc, fun source captures v hv => (hget source captures v hv).imp_right (·.append log')⟩

theorem Begun.append (h : Begun cache log job work) (log' : List (WorkshopEvent W)) :
    Begun cache (log ++ log') job work := by
  obtain ⟨before, after, rfl, hmay⟩ := h
  exact ⟨before, after ++ log', by simp, hmay⟩

/-- A job that is started may answer what it is about to, and leaves the results in the cache as
they are. -/
theorem Stocked.begin {b : Bench W} (h : Stocked cache log b.cache) (job : Job W) :
    Stocked cache log (b.begin job).2.cache ∧ job.MayAnswer cache log (b.begin job).1 := by
  cases hcache : b.cache with
  | none =>
      rw [Bench.begin_of_none hcache]
      exact ⟨h, b.world, rfl⟩
  | some c' =>
      obtain ⟨c, hc, hget⟩ := h c' hcache
      rcases Bench.begin_of_some hcache job with ⟨v, hfound, heq⟩ | ⟨-, heq⟩
      · rw [heq]
        exact ⟨fun _ hnow => ⟨c, hc, Option.some.inj hnow ▸ hget⟩, c, hc, hget _ _ v hfound⟩
      · rw [heq]
        exact ⟨fun _ hnow => ⟨c, hc, Option.some.inj hnow ▸ hget⟩, b.world, rfl⟩

/-- A job that ends leaves its result to the cache, if it has invoked its query for it. -/
theorem Stocked.finish {b : Bench W} (h : Stocked cache log b.cache) (job : Job W) (work : Work) :
    Stocked cache (log ++ [.worked (.ended job work)]) (b.finish job work).cache := by
  cases hstore : work.toStore? with
  | none =>
      have hsame : (b.finish job work).cache = b.cache := by simp [Bench.finish, hstore]
      exact hsame ▸ h.append _
  | some v =>
      have hinsert : (b.finish job work).cache = b.cache.map (·.insert job.cacheKey v) := by
        simp [Bench.finish, hstore]
      obtain ⟨o, rfl, rfl⟩ : ∃ o, work = .invoked (.output o) ∧ o.result = v := by
        unfold Work.toStore? at hstore
        split at hstore
        · exact ⟨_, rfl, Option.some.inj hstore⟩
        · simp at hstore
      intro c' hc'
      rw [hinsert] at hc'
      obtain ⟨c₀, hc₀, rfl⟩ := Option.map_eq_some_iff.1 hc'
      obtain ⟨c, hc, hget⟩ := h.append [.worked (.ended job (.invoked (.output o)))] c₀ hc₀
      refine ⟨c, hc, fun source captures v hv => ?_⟩
      rw [ResultCache.get?_insert] at hv
      split at hv
      · rename_i hkey
        obtain ⟨hsource, hcaptures⟩ := Job.cacheKey_eq_iff.1 hkey
        exact .inr ⟨job, o, by simp, hsource, hcaptures, Option.some.inj hv⟩
      · exact hget source captures v hv

/-- Everything that is running or has ended is accounted for, and so is the cache. -/
structure Accounted (cache : Option ResultCache) (log : List (WorkshopEvent W)) (s : Workshop W) :
    Prop where
  stocked : Stocked cache log s.bench.cache
  running : ∀ ρ ∈ s.rounds, ∀ p ∈ ρ.running, Begun cache log p.1 p.2
  ended : ∀ job work, .worked (.ended job work) ∈ log → Begun cache log job work

namespace Accounted

theorem opened (cache : Option ResultCache) (world : W) :
    Accounted cache [] (.opened cache world) where
  stocked c hc := ⟨c, hc, fun _ _ _ hv => .inl hv⟩
  running := by simp [Workshop.opened]
  ended := by simp

/-- An event at which no job starts or ends. -/
theorem of_other (h : Accounted cache log s) (hcache : t.bench.cache = s.bench.cache)
    (hrounds : ∀ ρ ∈ t.rounds, ρ.running = [] ∨ ρ ∈ s.rounds)
    (hother : ∀ job work, e ≠ .worked (.ended job work)) : Accounted cache (log ++ [e]) t where
  stocked := hcache ▸ h.stocked.append _
  running ρ hρ p hp := by
    rcases hrounds ρ hρ with hempty | hold
    · simp [hempty] at hp
    · exact (h.running ρ hold p hp).append _
  ended job work hended := by
    have hold : .worked (.ended job work) ∈ log := by
      simpa [fun job work => (hother job work).symm] using hended
    exact (h.ended job work hold).append _

theorem step (h : Accounted cache log s) (hstep : Workshop.Step limit s e t) :
    Accounted cache (log ++ [e]) t := by
  cases hstep with
  | ask | forget => exact h.of_other rfl (fun _ hρ => .inr hρ) (by simp)
  | take =>
      refine h.of_other rfl (fun ρ hρ => ?_) (by simp)
      rcases List.mem_append.1 hρ with hold | hnew
      · exact .inr hold
      · exact .inl (by rw [List.mem_singleton.1 hnew])
  | @work before after jobs u v e hmove =>
      obtain ⟨hbefore, hrest⟩ := List.forall_mem_append.1 h.running
      obtain ⟨hround, hafter⟩ := List.forall_mem_cons.1 hrest
      -- The other rounds are as they were.
      have hrounds : (∀ p ∈ v.running, Begun cache (log ++ [.worked e]) p.1 p.2) →
          ∀ ρ ∈ before ++ ⟨jobs, v.queue, v.running⟩ :: after, ∀ p ∈ ρ.running,
            Begun cache (log ++ [.worked e]) p.1 p.2 := fun hv =>
        List.forall_mem_append.2 ⟨fun ρ hρ p hp => (hbefore ρ hρ p hp).append _,
          List.forall_mem_cons.2 ⟨hv, fun ρ hρ p hp => (hafter ρ hρ p hp).append _⟩⟩
      cases hmove with
      | begin job queue running b hroom =>
          obtain ⟨hstocked, hmay⟩ := h.stocked.begin job
          refine ⟨hstocked.append _, hrounds fun p hp => ?_, fun other work hended => ?_⟩
          · rcases List.mem_append.1 hp with hold | hnew
            · exact (hround p hold).append _
            · obtain rfl := List.mem_singleton.1 hnew
              exact ⟨log, [], rfl, hmay⟩
          · exact (h.ended other work (by simpa using hended)).append _
      | finish queue first last job work b =>
          refine ⟨h.stocked.finish job work, hrounds fun p hp => ?_, fun other work' hended => ?_⟩
          · refine (hround p ?_).append _
            exact (List.mem_append.1 hp).elim (List.mem_append_left _) fun hlast =>
              List.mem_append_right _ (List.mem_cons_of_mem _ hlast)
          · rcases List.mem_append.1 hended with hold | hnew
            · exact (h.ended other work' hold).append _
            · obtain ⟨rfl, rfl⟩ := RoundEvent.ended.inj
                (WorkshopEvent.worked.inj (List.mem_singleton.1 hnew))
              exact (hround (other, work') (by simp)).append _
  | close before after jobs b =>
      refine h.of_other rfl (fun ρ hρ => .inr ?_) (by simp)
      simpa using (List.mem_append.1 hρ).imp_right .inr

end Accounted

theorem Workshop.Steps.accounted {world : W}
    (h : Workshop.Steps limit (.opened cache world) log t) : Accounted cache log t := by
  induction h with
  | refl => exact .opened cache world
  | snoc _ hstep ih => exact ih.step hstep

end Answering

/-! ## Whose resolution it is -/

namespace Workshop

theorem own_new (key : CallKey) (ticket : Nat) (query : Query W) (captures : Fields Value) :
    (⟨key, ticket, query, captures, .waiting, none⟩ : Request W).Own
      ⟨key, ticket, query, captures⟩ [] where
  jobOf := rfl
  waiting := by simp
  unresolved _ := rfl
  resolved := by simp [Job.ComesTo]

/-- **A resolution belongs to the request it is stored on.** Let any number of rounds overlap with
each other and with registering and forgetting, and let a key be asked for that no request has. As
long as it is not forgotten, all that is taken under it is the job of the new request, once, which
is none of the jobs from before; and the request is resolved with what this job has answered, if
not as cut off. Unless a round is closed that took an earlier request with this key, the request
waits without a resolution until the next round takes what waits, and it is resolved if and only if
its job has come to the resolution. What the job has answered is what it was about to answer when
it was started: the outcome of its own query, or a result that the cache had for it. -/
theorem own_resolution {limit : Nat} {cache : Option ResultCache} {world : W}
    {past after : List (WorkshopEvent W)} {s t : Workshop W} {key : CallKey} {query : Query W}
    {captures : Fields Value} (hpast : Steps limit (opened cache world) past s)
    (hnew : s.bench.scheduler.request? key = none)
    (hafter : Steps limit (s.ask key query captures) after t)
    (hkept : ∀ keys, .forgot keys ∈ after → key ∉ keys) :
    let job : Job W := ⟨key, s.bench.scheduler.nextTicket, query, captures⟩
    (∃ r, t.bench.scheduler.request? key = some r ∧ Scheduler.jobOf r = job ∧
      (∀ x, r.promise = some x → x = .failed cutOffReason ∨
        ∃ work, .worked (.ended job work) ∈ after ∧ work.resolution? = some x) ∧
      ((∀ jobs, .closed jobs ∈ after → ∀ other ∈ jobs, other.key = key → other ∈ takenIn after) →
        r.Own job after)) ∧
    job ∉ takenIn past ∧ ((takenIn after).map (·.ticket)).Nodup ∧
    (∀ other ∈ takenIn after, other.key = key → other = job) ∧
    ∀ work, .worked (.ended job work) ∈ after →
      Begun cache (past ++ .asked key query captures :: after) job work := by
  intro job
  have hasked : Steps limit (opened cache world) (past ++ [.asked key query captures])
      (s.ask key query captures) := hpast.snoc (.ask s key query captures)
  have hall := hasked.trans hafter
  have hfound : (s.ask key query captures).bench.scheduler.request? key =
      some ⟨key, s.bench.scheduler.nextTicket, query, captures, .waiting, none⟩ := by
    rw [Workshop.ask, Scheduler.request?_register, hnew, if_pos rfl, Option.none_or]
  have hfresh : job ∉ takenIn past := fun hmem =>
    lt_irrefl _ (hpast.coherent_of_opened.old job hmem)
  have hunended : ∀ work, .worked (.ended job work) ∉ past ++ [.asked key query captures] := by
    intro work hended
    exact hfresh (hpast.taken_of_ended (by simpa using hended))
  obtain ⟨-, -, -, hjobs⟩ := hafter.jobs_eq hasked.coherent_of_opened hfound hkept
  obtain ⟨r, hr, hjob, hanswered⟩ := hafter.promise_cases hasked hfound rfl hkept
  refine ⟨⟨r, hr, hjob, hanswered, fun hclosed => ?_⟩, hfresh, ?_, hjobs, fun work hended => ?_⟩
  · obtain ⟨q, hq, hown⟩ := hafter.own hasked hunended hfound (own_new _ _ _ _) hkept
      fun jobs hmem other hother hkey => hjobs other (hclosed jobs hmem other hother hkey) hkey
    rwa [Option.some.inj (hr.symm.trans hq)]
  · have hnodup := hall.coherent_of_opened.tickets
    rw [takenIn_append, List.map_append] at hnodup
    exact hnodup.of_append_right
  · have hbegun := hall.accounted.ended job work (List.mem_append_right _ hended)
    rwa [List.append_assoc] at hbegun

namespace Sample

/-- A nested run. -/
def key : CallKey := ⟨⟨"a", 0⟩, "p"⟩

/-- A query that says how often it has been invoked. -/
def counting : Query Nat :=
  ⟨"q", [], none, "", fun _ n => (.output ⟨[(resultName, .number (.integer (n + 1)))]⟩, n + 1)⟩

/-- A job of the nested run. -/
def job (ticket : Nat) : Job Nat := ⟨key, ticket, counting, []⟩

/-- What an invocation comes to. -/
def answer (n : ℤ) : Work := .invoked (.output ⟨[(resultName, .number (.integer n))]⟩)

/-- A round takes a request and starts its job, and the request is forgotten. -/
def past : List (WorkshopEvent Nat) :=
  [.asked key counting [], .took [job 0], .worked (.begun (job 0) (answer 1)), .forgot [key]]

/-- The job is still running. -/
def left : Workshop Nat := ⟨⟨⟨[], [], 1⟩, none, 1, 0⟩, [⟨[job 0], [], [(job 0, answer 1)]⟩]⟩

theorem steps_past : Steps 8 (opened none 0) past left := by
  have hasked : Steps 8 (opened none 0) [.asked key counting []]
      ⟨⟨⟨[key], [⟨key, 0, counting, [], .waiting, none⟩], 1⟩, none, 0, 0⟩, []⟩ :=
    (Steps.refl _).snoc (.ask _ key counting [])
  have htook : Steps 8 (opened none 0) [.asked key counting [], .took [job 0]]
      ⟨⟨⟨[key], [⟨key, 0, counting, [], .running, none⟩], 1⟩, none, 0, 0⟩,
        [⟨[job 0], [job 0], []⟩]⟩ :=
    hasked.snoc (.take _)
  have hbegan : Steps 8 (opened none 0)
      [.asked key counting [], .took [job 0], .worked (.begun (job 0) (answer 1))]
      ⟨⟨⟨[key], [⟨key, 0, counting, [], .running, none⟩], 1⟩, none, 1, 0⟩,
        [⟨[job 0], [], [(job 0, answer 1)]⟩]⟩ :=
    htook.snoc (.work [] [] [job 0] (.begin (job 0) [] [] _ (by decide)))
  exact hbegan.snoc (.forget _ [key])

/-- The run is asked for again with `stage` and `promise`, and the old job has ended. -/
def again (stage : RequestState) (promise : Promise) (world : Nat) (rounds : List (OpenRound Nat)) :
    Workshop Nat :=
  ⟨⟨⟨[key], [⟨key, 1, counting, [], stage, promise⟩], 2⟩, none, world, 0⟩, rounds⟩

theorem steps_ended : Steps 8 (left.ask key counting []) [.worked (.ended (job 0) (answer 1))]
    (again .waiting none 1 [⟨[job 0], [], []⟩]) :=
  (Steps.refl _).snoc (.work [] [] [job 0] (.finish [] [] [] (job 0) (answer 1) _))

/-- The old job ends, a new round runs the new one, and the old round is not closed yet. -/
def after : List (WorkshopEvent Nat) :=
  [.worked (.ended (job 0) (answer 1)), .took [job 1], .worked (.begun (job 1) (answer 2)),
    .worked (.ended (job 1) (answer 2)), .closed [job 1]]

theorem steps_after : Steps 8 (left.ask key counting []) after
    (again .finished (some (.ready (.number (.integer 2)))) 2 [⟨[job 0], [], []⟩]) := by
  have htook : Steps 8 (left.ask key counting []) (after.take 2)
      (again .running none 1 [⟨[job 0], [], []⟩, ⟨[job 1], [job 1], []⟩]) :=
    steps_ended.snoc (.take _)
  have hbegan : Steps 8 (left.ask key counting []) (after.take 3)
      (again .running none 2 [⟨[job 0], [], []⟩, ⟨[job 1], [], [(job 1, answer 2)]⟩]) :=
    htook.snoc (.work [⟨[job 0], [], []⟩] [] [job 1] (.begin (job 1) [] [] _ (by decide)))
  have hended : Steps 8 (left.ask key counting []) (after.take 4)
      (again .running (some (.ready (.number (.integer 2)))) 2
        [⟨[job 0], [], []⟩, ⟨[job 1], [], []⟩]) :=
    hbegan.snoc (.work [⟨[job 0], [], []⟩] [] [job 1] (.finish [] [] [] (job 1) (answer 2) _))
  exact hended.snoc (.close [⟨[job 0], [], []⟩] [] [job 1] _)

end Sample

/-- The second registration comes to what its own job comes to, although the job of the first one
ended after it was made. -/
theorem own_resolution_again :
    Steps 8 (opened none 0) Sample.past Sample.left ∧
    ∃ t, Steps 8 (Sample.left.ask Sample.key Sample.counting []) Sample.after t ∧
      ∃ r, t.bench.scheduler.request? Sample.key = some r ∧ r.state ≠ .waiting ∧
        r.promise = some (.ready (.number (.integer 2))) := by
  refine ⟨Sample.steps_past, _, Sample.steps_after, ?_⟩
  have hclosed : ∀ jobs, .closed jobs ∈ Sample.after → ∀ other ∈ jobs, other.key = Sample.key →
      other ∈ takenIn Sample.after := by
    intro jobs hjobs other hother _
    obtain rfl : jobs = [Sample.job 1] := by simpa [Sample.after] using hjobs
    exact mem_takenIn.2 ⟨_, by simp [Sample.after], hother⟩
  obtain ⟨⟨r, hr, -, -, howned⟩, -⟩ := own_resolution Sample.steps_past rfl Sample.steps_after
    (by simp [Sample.after])
  have hown := howned hclosed
  have htook : ¬ ∀ jobs, .took jobs ∉ Sample.after := fun hnone =>
    hnone [Sample.job 1] (by simp [Sample.after])
  refine ⟨r, hr, mt hown.waiting.1 htook, (hown.resolved _).2 ⟨Sample.answer 2, ?_, .inl rfl⟩⟩
  simp [Sample.after, Sample.job, Sample.left]

/-- A request can be over without having been taken: the round that took the earlier request with
its key is closed while it waits, and takes it for a request whose job was cut off. -/
theorem closed_untaken :
    Steps 8 (opened none 0) Sample.past Sample.left ∧
    ∃ t, Steps 8 (Sample.left.ask Sample.key Sample.counting [])
        [.worked (.ended (Sample.job 0) (Sample.answer 1)), .closed [Sample.job 0]] t ∧
      t.bench.scheduler.state? Sample.key = some .finished ∧
      t.bench.scheduler.resolution? Sample.key = some (.failed cutOffReason) := by
  refine ⟨Sample.steps_past, _, Sample.steps_ended.snoc (.close [] [] [Sample.job 0] _), ?_, ?_⟩
  · rfl
  · rfl

end Workshop

end Guided
