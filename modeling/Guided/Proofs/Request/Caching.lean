import Guided.Proofs.Cache.Key
import Guided.Proofs.Request.Ledger

/-!
# Caching does not show

If what a query comes to is a function of its source and its bindings, then a scheduler with a
cache answers as one without: a result that is found is the one that would have been computed.
What the cache holds is said by the log. It has a result for a source and bindings if and only if
some job with them has ended with a result, so that a job invokes its query exactly if none has.
Failures are not kept, and what failed is tried again.

## Main definitions

* `Query.Computes`: the outcome of a query is a given function of source and bindings.
* `SucceededIn`: some job with a source and bindings has ended with a result.
* `Cached`: what a cache holds in terms of the log.

## Main statements

* `Cached.begin`, `Cached.finish`: what the moves of a round keep.
* `Bench.History.cached`: what histories keep.
* `Bench.cache_transparent`: a scheduler with a cache answers as one without.
-/
namespace Guided

variable {W : Type} {f : String → Fields Value → Outcome}

/-! ## Queries that compute -/

/-- What a query comes to is a given function of its source and its bindings, whatever it does
to the world. -/
def Query.Computes (f : String → Fields Value → Outcome) (q : Query W) : Prop :=
  ∀ captures world, (q.invoke captures world).1 = f q.source captures

/-- What the query of a job comes to. -/
def Job.outcome (f : String → Fields Value → Outcome) (job : Job W) : Outcome :=
  f job.query.source job.captures

/-- Only runs of queries that compute are asked for. -/
def Demand.Computes (f : String → Fields Value → Outcome) : Demand W → Prop
  | .ask _ query _ => query.Computes f
  | .run => True
  | .forget _ => True

/-- All requests are for queries that compute. -/
def Scheduler.Computes (f : String → Fields Value → Outcome) (s : Scheduler W) : Prop :=
  ∀ r ∈ s.requests, r.query.Computes f

/-! ## The cache and the log -/

/-- Some job with this source and these bindings has ended with a result. -/
def SucceededIn (log : List (RoundEvent W)) (source : String) (captures : Fields Value) : Prop :=
  ∃ p ∈ endedIn log, p.1.query.source = source ∧ p.1.captures = captures ∧
    ∃ v, p.2.resolution? = some (.ready v)

/-- What a running job is about to answer is in the cache, or it is what its query comes to. -/
def Work.Right (f : String → Fields Value → Outcome) (cache : ResultCache) (job : Job W) :
    Work → Prop
  | .found v => cache.get? job.cacheKey = some v
  | .invoked outcome => outcome = job.outcome f

/-- What a cache holds and has counted, in terms of the log, while some jobs are running. -/
structure Cached (f : String → Fields Value → Outcome) (log : List (RoundEvent W))
    (running : List (Job W × Work)) (cache : ResultCache) : Prop where
  computed : ∀ source captures v, cache.get? (.ofArgs source (.object captures)) = some v →
    ∃ o, f source captures = .output o ∧ o.result = v
  stored : ∀ source captures, (cache.get? (.ofArgs source (.object captures))).isSome ↔
    SucceededIn log source captures
  right : ∀ p ∈ running, p.2.Right f cache p.1
  total : cache.total = (begunIn log).length
  hits : cache.hits = (foundIn log).length

theorem cached_empty : Cached f ([] : List (RoundEvent W)) [] .empty where
  computed := by simp [ResultCache.empty, ResultCache.ofEntries, ResultCache.get?]
  stored := by simp [ResultCache.empty, ResultCache.ofEntries, ResultCache.get?, SucceededIn,
    endedIn]
  right := by simp
  total := rfl
  hits := rfl

theorem succeededIn_begun {log : List (RoundEvent W)} {job : Job W} {work : Work}
    {source : String} {captures : Fields Value} :
    SucceededIn (log ++ [.begun job work]) source captures ↔ SucceededIn log source captures := by
  simp [SucceededIn]

theorem succeededIn_ended {log : List (RoundEvent W)} {job : Job W} {work : Work}
    {source : String} {captures : Fields Value} :
    SucceededIn (log ++ [.ended job work]) source captures ↔
      SucceededIn log source captures ∨
        job.query.source = source ∧ job.captures = captures ∧
          ∃ v, work.resolution? = some (.ready v) := by
  simp [SucceededIn, or_and_right, exists_or]

theorem ResultCache.get?_insert (cache : ResultCache) (key other : CacheKey) (v : Value) :
    (cache.insert key v).get? other = if other = key then some v else cache.get? other := by
  by_cases h : other = key
  · rw [if_pos h, h, get?_insert_self]
  · rw [if_neg h, get?_insert_of_ne cache h]

/-- Jobs share a cache key only if they have the same source and the same bindings. -/
theorem Job.cacheKey_eq_iff {job : Job W} {source : String} {captures : Fields Value} :
    CacheKey.ofArgs source (.object captures) = job.cacheKey ↔
      job.query.source = source ∧ job.captures = captures := by
  constructor
  · intro h
    obtain ⟨hsource, hargs⟩ := CacheKey.ofArgs_injective h
    exact ⟨hsource.symm, (Value.object.inj hargs).symm⟩
  · rintro ⟨rfl, rfl⟩
    rfl

/-- A job starts by looking its result up. -/
theorem Bench.begin_of_some {b : Bench W} {cache : ResultCache} (hcache : b.cache = some cache)
    (job : Job W) :
    (∃ v, cache.get? job.cacheKey = some v ∧
      b.begin job = (.found v,
        { b with cache := some { cache with total := cache.total + 1, hits := cache.hits + 1 } })) ∨
    (cache.get? job.cacheKey = none ∧
      b.begin job = (.invoked (job.query.invoke job.captures b.world).1,
        { b with
          cache := some { cache with total := cache.total + 1 }
          world := (job.query.invoke job.captures b.world).2 })) := by
  cases hfound : cache.get? job.cacheKey with
  | some v => exact .inl ⟨v, rfl, by simp [begin, Job.begin, hcache, ResultCache.lookup, hfound]⟩
  | none => exact .inr ⟨rfl, by simp [begin, Job.begin, hcache, ResultCache.lookup, hfound]⟩

namespace Cached

variable {log : List (RoundEvent W)} {running before after : List (Job W × Work)}
  {cache : ResultCache} {job : Job W} {work : Work}

/-- Whatever is right is an answer of the query. -/
theorem resolution?_eq (h : Cached f log running cache) (hright : work.Right f cache job) :
    work.resolution? = (job.outcome f).resolution? := by
  cases work with
  | found v =>
      obtain ⟨o, houtput, rfl⟩ := h.computed _ _ v hright
      rw [Job.outcome, houtput]
      rfl
  | invoked outcome => exact congrArg Outcome.resolution? hright

/-- Counting a job that is started keeps the cache in step with the log. -/
theorem begun (h : Cached f log running cache) (hright : work.Right f cache job) :
    Cached f (log ++ [.begun job work]) (running ++ [(job, work)])
      { cache with
        total := cache.total + 1
        hits := cache.hits + if work.isInvoked then 0 else 1 } where
  computed := h.computed
  stored source captures := (h.stored source captures).trans succeededIn_begun.symm
  right p hp := by
    have hsame : p.2.Right f cache p.1 := by
      rcases List.mem_append.1 hp with hp | hp
      · exact h.right p hp
      · rwa [List.mem_singleton.1 hp]
    rcases p with ⟨other, _ | _⟩ <;> exact hsame
  total := by simp [h.total]
  hits := by cases hinvoked : work.isInvoked <;> simp [h.hits, foundIn, hinvoked]

/-- A job that is started invokes its query exactly if no such job has succeeded, and is about to
answer what its query comes to. -/
theorem begin {b : Bench W} (h : Cached f log running cache) (hcache : b.cache = some cache)
    (hjob : job.query.Computes f) :
    (∃ cache', (b.begin job).2.cache = some cache' ∧
      Cached f (log ++ [.begun job (b.begin job).1]) (running ++ [(job, (b.begin job).1)])
        cache') ∧
    ((b.begin job).1.isInvoked ↔ ¬ SucceededIn log job.query.source job.captures) ∧
    (b.begin job).1.resolution? = (job.outcome f).resolution? := by
  have hstored : (cache.get? job.cacheKey).isSome ↔ _ := h.stored job.query.source job.captures
  rcases Bench.begin_of_some hcache job with ⟨v, hfound, heq⟩ | ⟨hnone, heq⟩
  · rw [heq]
    have hright : Work.Right f cache job (.found v) := hfound
    refine ⟨⟨_, rfl, h.begun hright⟩, ?_, h.resolution?_eq hright⟩
    simp [Work.isInvoked, ← hstored, hfound]
  · rw [heq]
    have hright : Work.Right f cache job (.invoked (job.query.invoke job.captures b.world).1) :=
      hjob job.captures b.world
    refine ⟨⟨_, rfl, h.begun hright⟩, ?_, h.resolution?_eq hright⟩
    simp [Work.isInvoked, ← hstored, hnone]

/-- A job that has found its result or has none ends without a change of the cache. -/
theorem ended_of_toStore?_eq_none (h : Cached f log running cache)
    (hright : work.Right f cache job) (hstore : work.toStore? = none) :
    Cached f (log ++ [.ended job work]) running cache where
  computed := h.computed
  stored source captures := by
    rw [h.stored, succeededIn_ended, or_iff_left_of_imp]
    rintro ⟨rfl, rfl, v, hv⟩
    cases work with
    | found v => exact (h.stored _ _).1 (Option.isSome_of_eq_some hright)
    | invoked outcome =>
        cases outcome <;> simp [Work.toStore?, Work.resolution?, Outcome.resolution?] at hstore hv
  right := h.right
  total := by simp [h.total]
  hits := by simp [h.hits, foundIn]

/-- A job ends with a result that is kept. -/
theorem ended_output (h : Cached f log running cache) {o : QueryOutput}
    (houtput : job.outcome f = .output o) :
    Cached f (log ++ [.ended job (.invoked (.output o))]) running
      (cache.insert job.cacheKey o.result) where
  computed source captures v hv := by
    rw [ResultCache.get?_insert] at hv
    split at hv
    · rename_i hkey
      obtain ⟨rfl, rfl⟩ := Job.cacheKey_eq_iff.1 hkey
      exact ⟨o, houtput, Option.some.inj hv⟩
    · exact h.computed source captures v hv
  stored source captures := by
    rw [ResultCache.get?_insert, succeededIn_ended, ← h.stored]
    split
    · rename_i hkey
      obtain ⟨hsource, hcaptures⟩ := Job.cacheKey_eq_iff.1 hkey
      exact iff_of_true rfl (.inr ⟨hsource, hcaptures, o.result, rfl⟩)
    · rename_i hkey
      rw [or_iff_left_of_imp]
      rintro ⟨hsource, hcaptures, -⟩
      exact absurd (Job.cacheKey_eq_iff.2 ⟨hsource, hcaptures⟩) hkey
  right p hp := by
    -- What another job has found stays what it found, since it was computed as this one was.
    have hkept := h.right p hp
    obtain ⟨other, work⟩ := p
    cases work with
    | invoked outcome => exact hkept
    | found v =>
        change (cache.insert job.cacheKey o.result).get? other.cacheKey = some v
        rw [ResultCache.get?_insert]
        split
        · rename_i hkey
          obtain ⟨o', houtput', rfl⟩ := h.computed _ _ v hkept
          obtain ⟨hsource, hcaptures⟩ := Job.cacheKey_eq_iff.1 hkey
          have hsame : Outcome.output o = .output o' := by
            rw [← houtput, ← houtput', Job.outcome, hsource, hcaptures]
          rw [Outcome.output.inj hsame]
        · exact hkept
  total := by simp [h.total, ResultCache.insert]
  hits := by simp [h.hits, foundIn, ResultCache.insert]

/-- What a job leaves for the cache is what its query comes to. -/
theorem exists_output_of_toStore? (hright : work.Right f cache job) {v : Value}
    (hstore : work.toStore? = some v) :
    ∃ o, work = .invoked (.output o) ∧ job.outcome f = .output o ∧ o.result = v := by
  cases work with
  | found v => simp [Work.toStore?] at hstore
  | invoked outcome =>
      cases outcome with
      | output o => exact ⟨o, rfl, hright.symm, Option.some.inj hstore⟩
      | failed e => simp [Work.toStore?] at hstore
      | cutOff => simp [Work.toStore?] at hstore

/-- The result of a job that ends is kept, and nothing else is. -/
theorem finish {b : Bench W} (h : Cached f log (before ++ (job, work) :: after) cache)
    (hcache : b.cache = some cache) :
    ∃ cache', (b.finish job work).cache = some cache' ∧
      Cached f (log ++ [.ended job work]) (before ++ after) cache' := by
  have hright : work.Right f cache job := h.right (job, work) (by simp)
  have hothers : Cached f log (before ++ after) cache := by
    refine ⟨h.computed, h.stored, fun p hp => h.right p ?_, h.total, h.hits⟩
    simp only [List.mem_append, List.mem_cons] at hp ⊢
    exact hp.imp_right .inr
  cases hstore : work.toStore? with
  | none =>
      exact ⟨cache, by simp [Bench.finish, hstore, hcache],
        hothers.ended_of_toStore?_eq_none hright hstore⟩
  | some v =>
      obtain ⟨o, rfl, houtput, rfl⟩ := exists_output_of_toStore? hright hstore
      exact ⟨_, by simp [Bench.finish, hstore, hcache], hothers.ended_output houtput⟩

end Cached

/-! ## Logs -/

/-- A job that is started invokes its query exactly if no job with its source and bindings has
succeeded, and is about to answer what its query comes to. -/
def RoundEvent.Justified (f : String → Fields Value → Outcome) (past : List (RoundEvent W)) :
    RoundEvent W → Prop
  | .begun job work =>
      (work.isInvoked ↔ ¬ SucceededIn past job.query.source job.captures) ∧
        work.resolution? = (job.outcome f).resolution?
  | .ended _ _ => True

/-- All events of a log are justified by what was before them. -/
def Justified (f : String → Fields Value → Outcome) (past : List (RoundEvent W)) :
    List (RoundEvent W) → Prop
  | [] => True
  | e :: log => e.Justified f past ∧ Justified f (past ++ [e]) log

theorem justified_append {past log log' : List (RoundEvent W)} :
    Justified f past (log ++ log') ↔ Justified f past log ∧ Justified f (past ++ log) log' := by
  induction log generalizing past with
  | nil => simp [Justified]
  | cons e log ih => simp [Justified, ih, and_assoc]

/-- Jobs answer what their queries come to. -/
def Answers (f : String → Fields Value → Outcome) (log : List (RoundEvent W)) : Prop :=
  ∀ p ∈ begunIn log, p.2.resolution? = (p.1.outcome f).resolution?

theorem Justified.answers {past log : List (RoundEvent W)} (h : Justified f past log) :
    Answers f log := by
  induction log generalizing past with
  | nil => simp [Answers, begunIn]
  | cons e log ih =>
      intro p hp
      rcases List.mem_append.1 ((begunIn_append [e] log) ▸ hp) with hp | hp
      · cases e with
        | begun job work =>
            rw [begunIn_begun, List.mem_singleton] at hp
            exact hp ▸ h.1.2
        | ended job work => simp at hp
      · exact ih h.2 p hp

theorem Answers.of_flatMap {reports : List (Report W)}
    (h : Answers f (reports.flatMap (·.log))) : ∀ report ∈ reports, Answers f report.log := by
  intro report hreport p hp
  refine h p ?_
  rw [begunIn, List.filterMap_flatMap]
  exact List.mem_flatMap.2 ⟨report, hreport, hp⟩

/-- What can be told from a report without a look at its log. -/
def Report.seen (report : Report W) : Reply × Scheduler W :=
  (report.reply, report.bench.scheduler)

/-! ## Rounds -/

theorem Scheduler.Computes.takeWaiting {s : Scheduler W} (h : s.Computes f) (hsound : s.Sound) :
    ∀ job ∈ s.takeWaiting.1, job.query.Computes f := by
  intro job hjob
  obtain ⟨r, hr, -, rfl⟩ := hsound.mem_takeWaiting_iff.1 hjob
  exact h r hr

theorem Underway.Steps.cached {limit : Nat} {u v : Underway W} {log past : List (RoundEvent W)}
    (h : Steps limit u log v) (hqueue : ∀ job ∈ u.queue, job.query.Computes f)
    {cache : ResultCache} (hcache : u.bench.cache = some cache)
    (hcached : Cached f past u.running cache) :
    (∃ cache', v.bench.cache = some cache' ∧ Cached f (past ++ log) v.running cache') ∧
      Justified f past log := by
  induction h with
  | refl => exact ⟨⟨cache, hcache, by simpa using hcached⟩, trivial⟩
  | snoc hsteps hstep ih =>
      obtain ⟨⟨cache', hcache', hcached'⟩, hjustified⟩ := ih
      rw [hsteps.queue_eq] at hqueue
      rw [justified_append, ← List.append_assoc]
      cases hstep with
      | begin job queue running b hroom =>
          obtain ⟨hnext, hbegun⟩ := hcached'.begin hcache' (hqueue job (by simp))
          exact ⟨hnext, hjustified, hbegun, trivial⟩
      | finish queue before after job work b =>
          exact ⟨hcached'.finish hcache', hjustified, trivial, trivial⟩

namespace Bench

variable {limit limit' n : Nat} {b b' c : Bench W} {past log : List (RoundEvent W)}
  {cache : ResultCache}

/-- A round keeps the cache in step with the log. -/
theorem Round.cached (hround : b.Round limit log n b') (hsound : b.scheduler.Sound)
    (hcomputes : b.scheduler.Computes f) (hcache : b.cache = some cache)
    (hcached : Cached f past [] cache) :
    (∃ cache', b'.cache = some cache' ∧ Cached f (past ++ log) [] cache') ∧
      Justified f past log := by
  obtain ⟨-, c, hsteps, heq⟩ := hround
  obtain ⟨-, rfl⟩ := Prod.mk.inj heq
  exact hsteps.cached (hcomputes.takeWaiting hsound) hcache hcached

/-- Without a cache jobs answer what their queries come to, since they all invoke them. -/
theorem Round.answers_of_none (hround : b.Round limit log n b') (hsound : b.scheduler.Sound)
    (hcomputes : b.scheduler.Computes f) (hcache : b.cache = none) : Answers f log := by
  have hbegun : (invokeAll b.scheduler.takeWaiting.1 b.world).1 = begunIn log :=
    congrArg Prod.fst (hround.invokeAll_eq hcache).2
  intro p hp
  obtain ⟨hmem, world, heq⟩ := exists_of_mem_invokeAll (hbegun ▸ hp)
  rw [heq]
  exact congrArg Outcome.resolution? (hcomputes.takeWaiting hsound p.1 hmem p.1.captures world)

/-- If all jobs answer what their queries come to, a round is a function of the requests. -/
theorem Round.eq_of_answers {log' : List (RoundEvent W)} {n' : Nat} {c' : Bench W}
    (hround : b.Round limit log n b') (hround' : c.Round limit' log' n' c')
    (hsame : b.scheduler = c.scheduler) (hsound : b.scheduler.Sound) (hanswers : Answers f log)
    (hanswers' : Answers f log') : n = n' ∧ b'.scheduler = c'.scheduler := by
  have htickets : ∀ {log : List (RoundEvent W)}, Answers f log → (begunIn log).map answerOf =
      ((begunIn log).map (·.1)).map fun job => (job.ticket, (job.outcome f).resolution?) := by
    intro log hlog
    rw [List.map_map]
    exact List.map_congr_left fun p hp => congrArg (Prod.mk p.1.ticket) (hlog p hp)
  have hresult := hround.result_eq hsound
  have hresult' := hround'.result_eq (hsame ▸ hsound)
  rw [htickets hanswers, hround.begun_eq] at hresult
  rw [htickets hanswers', hround'.begun_eq, ← hsame] at hresult'
  exact Prod.mk.inj (hresult.trans hresult'.symm)

/-! ## Histories -/

variable {demand : Demand W} {report : Report W}

theorem Performs.computes (hp : b.Performs limit demand report) (hsound : b.scheduler.Sound)
    (hcomputes : b.scheduler.Computes f) (hdemand : demand.Computes f) :
    report.bench.scheduler.Computes f := by
  cases hp with
  | ask key query captures =>
      intro r hr
      rcases Scheduler.mem_of_mem_register hr with hr | rfl
      · exact hcomputes r hr
      · exact hdemand
  | run log n b' hround =>
      obtain ⟨-, hscheduler⟩ := Prod.mk.inj (hround.result_eq hsound)
      intro r hr
      rw [hscheduler] at hr
      obtain ⟨q, hq, rfl⟩ := List.mem_map.1 hr
      have hquery : (q.ran ((begunIn log).map answerOf)).query = q.query :=
        congrArg Job.query ((Request.progresses_ran _).jobOf q)
      rw [hquery]
      exact hcomputes q hq
  | forget keys => exact fun r hr => hcomputes r (List.mem_filter.1 hr).1

/-- Whatever is demanded keeps the cache in step with the log. -/
theorem Performs.cached (hp : b.Performs limit demand report) (hsound : b.scheduler.Sound)
    (hcomputes : b.scheduler.Computes f) (hcache : b.cache = some cache)
    (hcached : Cached f past [] cache) :
    (∃ cache', report.bench.cache = some cache' ∧ Cached f (past ++ report.log) [] cache') ∧
      Justified f past report.log := by
  cases hp with
  | ask key query captures => exact ⟨⟨cache, hcache, by simpa using hcached⟩, trivial⟩
  | run log n b' hround => exact hround.cached hsound hcomputes hcache hcached
  | forget keys => exact ⟨⟨cache, hcache, by simpa using hcached⟩, trivial⟩

theorem Performs.answers_of_none (hp : b.Performs limit demand report)
    (hsound : b.scheduler.Sound) (hcomputes : b.scheduler.Computes f) (hcache : b.cache = none) :
    Answers f report.log := by
  cases hp with
  | ask => simp [Answers, begunIn]
  | run log n b' hround => exact hround.answers_of_none hsound hcomputes hcache
  | forget => simp [Answers, begunIn]

/-- If all jobs answer what their queries come to, what is demanded has one reply. -/
theorem Performs.seen_eq {report' : Report W} (hp : b.Performs limit demand report)
    (hp' : c.Performs limit' demand report') (hsame : b.scheduler = c.scheduler)
    (hsound : b.scheduler.Sound) (hanswers : Answers f report.log)
    (hanswers' : Answers f report'.log) : report.seen = report'.seen := by
  cases hp with
  | ask key query captures =>
      cases hp'
      simp [Report.seen, hsame]
  | run log n b' hround =>
      cases hp' with
      | run log' n' c' hround' =>
          obtain ⟨rfl, heq⟩ := hround.eq_of_answers hround' hsame hsound hanswers hanswers'
          simp [Report.seen, heq]
  | forget keys =>
      cases hp'
      simp [Report.seen, hsame]

namespace History

variable {demands : List (Demand W)} {reports : List (Report W)}

/-- All through a history the cache is in step with the log. -/
theorem cached (h : History limit b demands reports) (hrests : b.Rests)
    (hcomputes : b.scheduler.Computes f) (hdemands : ∀ demand ∈ demands, demand.Computes f)
    (hcache : b.cache = some cache) (hcached : Cached f past [] cache) :
    Justified f past (reports.flatMap (·.log)) ∧
      ∀ done report rest, reports = done ++ report :: rest →
        ∃ cache', report.bench.cache = some cache' ∧
          Cached f (past ++ (done ++ [report]).flatMap (·.log)) [] cache' := by
  induction h generalizing past cache with
  | nil => exact ⟨trivial, by simp⟩
  | cons hp _ ih =>
      rw [List.forall_mem_cons] at hdemands
      obtain ⟨⟨cache', hcache', hcached'⟩, hjustified⟩ :=
        hp.cached hrests.sound hcomputes hcache hcached
      obtain ⟨hrest, hafter⟩ := ih (hp.rests hrests)
        (hp.computes hrests.sound hcomputes hdemands.1) hdemands.2 hcache' hcached'
      refine ⟨by rw [List.flatMap_cons, justified_append]; exact ⟨hjustified, hrest⟩, ?_⟩
      intro done report rest heq
      cases done with
      | nil =>
          obtain ⟨rfl, -⟩ := List.cons.inj heq
          exact ⟨cache', hcache', by simpa using hcached'⟩
      | cons first done =>
          obtain ⟨rfl, hreports⟩ := List.cons.inj heq
          obtain ⟨cache'', hcache'', hcached''⟩ := hafter done report rest hreports
          exact ⟨cache'', hcache'', by simpa using hcached''⟩

theorem answers_of_none (h : History limit b demands reports) (hrests : b.Rests)
    (hcomputes : b.scheduler.Computes f) (hdemands : ∀ demand ∈ demands, demand.Computes f)
    (hcache : b.cache = none) : ∀ report ∈ reports, Answers f report.log := by
  induction h with
  | nil => simp
  | cons hp _ ih =>
      rw [List.forall_mem_cons] at hdemands ⊢
      exact ⟨hp.answers_of_none hrests.sound hcomputes hcache,
        ih (hp.rests hrests) (hp.computes hrests.sound hcomputes hdemands.1) hdemands.2
          (hp.cache_eq_none hcache)⟩

/-- If all jobs answer what their queries come to, a history has one sequence of replies. -/
theorem map_seen_eq {reports' : List (Report W)} (h : History limit b demands reports)
    (h' : History limit' c demands reports') (hsame : b.scheduler = c.scheduler)
    (hrests : b.Rests) (hanswers : ∀ report ∈ reports, Answers f report.log)
    (hanswers' : ∀ report ∈ reports', Answers f report.log) :
    reports.map Report.seen = reports'.map Report.seen := by
  induction h generalizing c reports' with
  | nil =>
      cases h'
      rfl
  | cons hp _ ih =>
      cases h' with
      | cons hp' hrest' =>
          rw [List.forall_mem_cons] at hanswers hanswers'
          have hseen := hp.seen_eq hp' hsame hrests.sound hanswers.1 hanswers'.1
          rw [List.map_cons, List.map_cons, hseen, ih hrest' (congrArg Prod.snd hseen)
            (hp.rests hrests) hanswers.2 hanswers'.2]

end History

/-- **Caching does not show.** Let what queries come to be a function of their sources and their
bindings. Whatever is demanded, a scheduler with a cache that is empty at first gives the replies
that one without a cache gives, and is left as that one is, requests, stages and resolutions
included. With the cache a job invokes its query exactly if no job with the same source and the
same bindings has succeeded before, and the cache has counted all jobs that were run, and those
of them that invoked no query. -/
theorem cache_transparent (f : String → Fields Value → Outcome) (limit limit' : Nat) (world : W)
    (demands : List (Demand W)) (hdemands : ∀ demand ∈ demands, demand.Computes f) :
    (∃ reports, History limit (fresh (some .empty) world) demands reports) ∧
    ∀ reports, History limit (fresh (some .empty) world) demands reports →
      (∀ plain, History limit' (fresh none world) demands plain →
        reports.map (fun report => (report.reply, report.bench.scheduler)) =
          plain.map fun report => (report.reply, report.bench.scheduler)) ∧
      (∀ before job work after,
        reports.flatMap (·.log) = before ++ .begun job work :: after →
        (work.isInvoked ↔ ¬ SucceededIn before job.query.source job.captures)) ∧
      ∀ done report rest, reports = done ++ report :: rest →
        ∃ cache, report.bench.cache = some cache ∧
          cache.total = (begunIn ((done ++ [report]).flatMap (·.log))).length ∧
          cache.hits = (foundIn ((done ++ [report]).flatMap (·.log))).length := by
  have hnothing : (fresh (some .empty) world).scheduler.Computes f := by
    simp [Scheduler.Computes, fresh, Scheduler.empty]
  refine ⟨exists_history limit (rests_fresh _ world) demands, fun reports h => ?_⟩
  obtain ⟨hjustified, hcached⟩ :=
    h.cached (rests_fresh _ world) hnothing hdemands rfl cached_empty
  refine ⟨fun plain hplain => ?_, ?_, ?_⟩
  · refine h.map_seen_eq hplain rfl (rests_fresh _ world) (fun report hreport => ?_)
      (hplain.answers_of_none (rests_fresh _ world) hnothing hdemands rfl)
    exact hjustified.answers.of_flatMap report hreport
  · intro before job work after heq
    rw [heq, justified_append] at hjustified
    exact hjustified.2.1.1
  · intro done report rest heq
    obtain ⟨cache, hcache, hin⟩ := hcached done report rest heq
    exact ⟨cache, hcache, hin.total, hin.hits⟩

namespace Sample

/-- A query that counts its invocations in the world, and is cut off if its source says so. -/
def counted (source : String) : Query Nat :=
  ⟨"counted", [], none, source, fun _ n =>
    (if source = "cut off" then .cutOff else .output ⟨[]⟩, n + 1)⟩

/-- Runs at two sites of the same query, once after the other, and a run that is cut off. -/
def shared : List (Demand Nat) :=
  [.ask ⟨⟨"a", 0⟩, "p"⟩ (counted "q") [], .ask ⟨⟨"a", 1⟩, "p"⟩ (counted "cut off") [], .run,
    .ask ⟨⟨"a", 2⟩, "p"⟩ (counted "q") [], .run]

end Sample

/-- Call sites share what is cached. -/
theorem cache_transparent_shared :
    (∀ demand ∈ Sample.shared, demand.Computes fun source _ =>
      if source = "cut off" then .cutOff else .output ⟨[]⟩) ∧
    ∃ reports, History 8 (fresh (some .empty) 0) Sample.shared reports ∧
      ∀ plain, History 1 (fresh none 0) Sample.shared plain →
        reports.map (fun report => (report.reply, report.bench.scheduler)) =
          plain.map fun report => (report.reply, report.bench.scheduler) := by
  have hcomputes : ∀ demand ∈ Sample.shared, demand.Computes fun source _ =>
      if source = "cut off" then .cutOff else .output ⟨[]⟩ := by
    simp [Sample.shared, Demand.Computes, Query.Computes, Sample.counted]
  obtain ⟨⟨reports, hreports⟩, hall⟩ := cache_transparent _ 8 1 0 Sample.shared hcomputes
  exact ⟨hcomputes, reports, hreports, (hall reports hreports).1⟩

end Bench

end Guided
