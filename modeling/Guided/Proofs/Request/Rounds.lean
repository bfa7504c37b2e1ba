import Guided.Request.Scheduler
import Mathlib.Data.List.Nodup

/-!
# What rounds do to requests

Everything a round does to the requests of a scheduler it does to them one by one, where they
are: a request keeps its key, its ticket and its query, and a resolution that has been reached
stays. Which resolution is reached is a matter of the request alone, as long as tickets tell
requests apart: other requests are worked on in the same round and leave it alone.

## Main definitions

* `Request.Progresses`: a change of requests that keeps what they are and what they reached.
* `Scheduler.Sound`: keys and tickets tell requests apart.
* `Query.Steady`, `Request.worked`: the request after a round, if the world does not matter.
* `Bench.Works`: rounds and registrations, one after the other.
* `Bench.Reached`: any history of registrations, rounds and forgetting.

## Main statements

* `Bench.exists_progress_runPending`: a round lets requests progress.
* `Bench.resolved_runPending`: after a round nothing waits.
* `Bench.request?_runPending`: what a round makes of one request.
* `Bench.Works.keeps`, `Bench.Reached.sound`: what histories keep.
-/
namespace Guided

variable {W : Type}

/-! ## Changes of single requests -/

/-- A waiting request that is taken is running. -/
def Scheduler.started (r : Request W) : Request W :=
  if r.state = .waiting then { r with state := .running } else r

/-- A change of requests that keeps what they are and every resolution that they reached. -/
structure Request.Progresses (f : Request W → Request W) : Prop where
  jobOf : ∀ r, Scheduler.jobOf (f r) = Scheduler.jobOf r
  promise : ∀ r x, r.promise = some x → (f r).promise = some x

namespace Request

namespace Progresses

variable {f g : Request W → Request W}

theorem key (hf : Progresses f) (r : Request W) : (f r).key = r.key :=
  congrArg Job.key (hf.jobOf r)

theorem ticket (hf : Progresses f) (r : Request W) : (f r).ticket = r.ticket :=
  congrArg Job.ticket (hf.jobOf r)

protected theorem id : Progresses (id : Request W → Request W) := ⟨fun _ => rfl, fun _ _ h => h⟩

theorem comp (hg : Progresses g) (hf : Progresses f) : Progresses (g ∘ f) where
  jobOf r := (hg.jobOf (f r)).trans (hf.jobOf r)
  promise r x h := hg.promise (f r) x (hf.promise r x h)

/-- A change that is made to some requests only. -/
theorem ite (hf : Progresses f) (p : Request W → Prop) [DecidablePred p] :
    Progresses fun r => if p r then f r else r where
  jobOf r := by by_cases h : p r <;> simp [h, hf.jobOf]
  promise r x hx := by by_cases h : p r <;> simp [h, hx, hf.promise r x hx]

end Progresses

/-- The request once a job of it has come to a resolution, or to none. -/
def answered (resolution : Option Resolution) (r : Request W) : Request W :=
  match resolution with
  | some x => { r with promise := r.promise.resolveOnce x }
  | none => r

theorem progresses_answered (resolution : Option Resolution) :
    Progresses (answered (W := W) resolution) := by
  cases resolution with
  | none => exact .id
  | some x => exact ⟨fun _ => rfl, fun r y h => by simp [answered, h]⟩

/-- A second answer to a request changes nothing. -/
theorem answered_answered (resolution : Option Resolution) (r : Request W) :
    answered resolution (answered resolution r) = answered resolution r := by
  cases resolution with
  | none => rfl
  | some x => simp [answered]

theorem progresses_running : Progresses fun r : Request W => { r with state := .running } :=
  ⟨fun _ => rfl, fun _ _ h => h⟩

theorem progresses_started : Progresses (Scheduler.started (W := W)) :=
  progresses_running.ite fun r => r.state = .waiting

theorem progresses_closed : Progresses (Scheduler.closed (W := W)) :=
  ⟨fun _ => rfl, fun r x h => by simp [Scheduler.closed, h]⟩

end Request

/-! ## Looking a request up -/

namespace Scheduler

variable {s s' : Scheduler W} {key : CallKey} {r : Request W}

theorem request?_eq_of_map {f : Request W → Request W} (hf : Request.Progresses f)
    (h : s'.requests = s.requests.map f) (key : CallKey) :
    s'.request? key = (s.request? key).map f := by
  have hkey : ((fun r : Request W => r.key == key) ∘ f) = fun r => r.key == key := by
    funext r
    simp [hf.key r]
  rw [request?, h, List.find?_map, hkey, request?]

theorem key_of_request? (h : s.request? key = some r) : r.key = key := by
  simpa using List.find?_some h

theorem mem_of_request? (h : s.request? key = some r) : r ∈ s.requests :=
  List.mem_of_find?_eq_some h

/-- A run that is asked for is there afterwards, and all others are as before. -/
theorem request?_register (s : Scheduler W) (key : CallKey) (query : Query W)
    (captures : Fields Value) (other : CallKey) :
    (s.register key query captures).request? other =
      (s.request? other).or
        (if key = other then some ⟨key, s.nextTicket, query, captures, .waiting, none⟩
          else none) := by
  rw [register]
  split
  · rename_i hany
    by_cases hkey : key = other
    · -- The request asked for is there already, so that nothing is added behind it.
      obtain ⟨r, hr⟩ : ∃ r, s.request? other = some r := by
        rw [← Option.isSome_iff_exists, request?, List.find?_isSome]
        simpa [hkey] using hany
      rw [hr, Option.some_or]
    · rw [if_neg hkey, Option.or_none]
  · simp only [request?, List.find?_append, List.find?_singleton, beq_iff_eq]

/-- Asking for a run that is there changes nothing. -/
theorem register_of_request? (h : s.request? key = some r) (query : Query W)
    (captures : Fields Value) : s.register key query captures = s := by
  have hany : s.requests.any (·.key == key) = true := by
    rw [List.any_eq_true]
    exact ⟨r, mem_of_request? h, by simpa using key_of_request? h⟩
  rw [register, if_pos hany]

/-- A run whose key is not there is asked for last. -/
theorem register_of_none (h : s.request? key = none) (query : Query W)
    (captures : Fields Value) : s.register key query captures =
      ⟨s.order ++ [key], s.requests ++ [⟨key, s.nextTicket, query, captures, .waiting, none⟩],
        s.nextTicket + 1⟩ := by
  rw [register, if_neg]
  simpa [request?] using h

/-- A request is there already when a run is asked for, or it is the one asked for. -/
theorem mem_of_mem_register {query : Query W} {captures : Fields Value}
    (h : r ∈ (s.register key query captures).requests) :
    r ∈ s.requests ∨ r = ⟨key, s.nextTicket, query, captures, .waiting, none⟩ := by
  rw [register] at h
  split at h
  · exact .inl h
  · exact (List.mem_append.1 h).imp_right List.mem_singleton.1

/-! ## Resolutions stay -/

/-- Every resolution reached in one scheduler is there in the other. -/
def Keeps (s s' : Scheduler W) : Prop :=
  ∀ key x, s.resolution? key = some x → s'.resolution? key = some x

theorem keeps_refl (s : Scheduler W) : s.Keeps s := fun _ _ h => h

theorem Keeps.trans {s'' : Scheduler W} (h : s.Keeps s') (h' : s'.Keeps s'') : s.Keeps s'' :=
  fun key x hx => h' key x (h key x hx)

theorem keeps_of_map {f : Request W → Request W} (hf : Request.Progresses f)
    (h : s'.requests = s.requests.map f) : s.Keeps s' := by
  intro key x hx
  simp only [resolution?, request?_eq_of_map hf h] at hx ⊢
  obtain ⟨r, hr, hpromise⟩ := Option.bind_eq_some_iff.1 hx
  simp only [hr, Option.map_some, Option.bind_some]
  exact hf.promise r x hpromise

theorem keeps_register (s : Scheduler W) (key : CallKey) (query : Query W)
    (captures : Fields Value) : s.Keeps (s.register key query captures) := by
  intro other x hx
  obtain ⟨r, hr, hpromise⟩ := Option.bind_eq_some_iff.1 hx
  rw [resolution?, request?_register, hr]
  exact hpromise

/-! ## Requests told apart -/

/-- The order lists the keys of the requests, keys and tickets tell requests apart, and the next
ticket has not been given out. -/
structure Sound (s : Scheduler W) : Prop where
  order : s.order = s.requests.map (·.key)
  keys : (s.requests.map (·.key)).Nodup
  tickets : (s.requests.map (·.ticket)).Nodup
  fresh : ∀ r ∈ s.requests, r.ticket < s.nextTicket

theorem sound_empty : (empty : Scheduler W).Sound :=
  ⟨rfl, List.nodup_nil, List.nodup_nil, by simp [empty]⟩

theorem Sound.register (h : s.Sound) (key : CallKey) (query : Query W)
    (captures : Fields Value) : (s.register key query captures).Sound := by
  rw [Scheduler.register]
  split
  · exact h
  · rename_i hnone
    have hnew : ∀ r ∈ s.requests, r.key ≠ key := by simpa using hnone
    refine ⟨?_, ?_, ?_, ?_⟩
    · simp [h.order]
    · rw [List.map_append]
      exact List.Nodup.append h.keys (List.nodup_singleton _) (by simpa using hnew)
    · rw [List.map_append]
      refine List.Nodup.append h.tickets (List.nodup_singleton _) ?_
      simpa using fun r hr => Nat.ne_of_lt (h.fresh r hr)
    · intro r hr
      rcases List.mem_append.1 hr with hr | hr
      · exact Nat.lt_succ_of_lt (h.fresh r hr)
      · rw [List.mem_singleton.1 hr]
        exact Nat.lt_succ_self _

theorem Sound.drop (h : s.Sound) (keys : List CallKey) : (s.drop keys).Sound where
  order := by
    rw [Scheduler.drop, h.order, List.filter_map]
    refine congrArg (List.map _) (List.filter_congr fun r hr => ?_)
    rw [Bool.eq_iff_iff]
    simp only [Function.comp_apply, List.any_eq_true, List.mem_filter, beq_iff_eq]
    constructor
    · rintro ⟨q, ⟨-, hq⟩, heq⟩
      rwa [← heq]
    · exact fun hkept => ⟨r, ⟨hr, hkept⟩, rfl⟩
  keys := h.keys.sublist (List.filter_sublist.map _)
  tickets := h.tickets.sublist (List.filter_sublist.map _)
  fresh r hr := h.fresh r (List.mem_filter.1 hr).1

theorem Sound.of_map (h : s.Sound) {f : Request W → Request W} (hf : Request.Progresses f) :
    Scheduler.Sound { s with requests := s.requests.map f } where
  order := by simpa [Function.comp_def, hf.key] using h.order
  keys := by simpa [Function.comp_def, hf.key] using h.keys
  tickets := by simpa [Function.comp_def, hf.ticket] using h.tickets
  fresh := by simpa [hf.ticket] using h.fresh

theorem Sound.eq_of_key_eq (h : s.Sound) {q : Request W} (hr : r ∈ s.requests)
    (hq : q ∈ s.requests) (heq : r.key = q.key) : r = q :=
  List.inj_on_of_nodup_map h.keys hr hq heq

theorem Sound.eq_of_ticket_eq (h : s.Sound) {q : Request W} (hr : r ∈ s.requests)
    (hq : q ∈ s.requests) (heq : r.ticket = q.ticket) : r = q :=
  List.inj_on_of_nodup_map h.tickets hr hq heq

/-- With one request to a key, every request is found under its key. -/
theorem request?_of_mem (hkeys : (s.requests.map (·.key)).Nodup) (hr : r ∈ s.requests) :
    s.request? r.key = some r := by
  obtain ⟨q, hq⟩ : ∃ q, s.request? r.key = some q := by
    rw [← Option.isSome_iff_exists, request?, List.find?_isSome]
    exact ⟨r, hr, by simp⟩
  rw [hq, List.inj_on_of_nodup_map hkeys (mem_of_request? hq) hr (key_of_request? hq)]

/-! ## Taking requests -/

theorem request?_start_of_ne {other : CallKey} (hne : other ≠ key) :
    (s.start key).request? other = s.request? other := by
  rw [request?_eq_of_map (Request.progresses_running.ite fun r => r.key = key) rfl]
  cases hr : s.request? other with
  | none => rfl
  | some r => rw [Option.map_some, if_neg (key_of_request? hr ▸ hne)]

/-- Requests progress when they are taken, whichever are. -/
theorem exists_progress_takeEach (s : Scheduler W) (keys : List CallKey) :
    ∃ f, Request.Progresses f ∧
      (s.takeEach keys).2 = { s with requests := s.requests.map f } := by
  induction keys generalizing s with
  | nil => exact ⟨id, .id, by simp [takeEach]⟩
  | cons key rest ih =>
      rw [takeEach]
      split
      · exact ih s
      · split
        · obtain ⟨f, hf, heq⟩ := ih (s.start key)
          refine ⟨_, hf.comp (Request.progresses_running.ite fun r => r.key = key), ?_⟩
          rw [heq]
          simp [start]
        · exact ih s

/-- Of the requests with the given keys those that wait are taken, in the order of the keys. -/
theorem takeEach_eq (hkeys : (s.requests.map (·.key)).Nodup) {keys : List CallKey}
    (h : keys.Nodup) :
    s.takeEach keys =
      (((keys.filterMap s.request?).filter (·.state = .waiting)).map jobOf,
        { s with requests := s.requests.map fun r => if r.key ∈ keys then started r else r }) := by
  induction keys generalizing s with
  | nil => simp [takeEach]
  | cons key rest ih =>
      rw [List.nodup_cons] at h
      -- A request that is not waiting stays as it is when its key is visited.
      have hskip : (∀ r, s.request? key = some r → r.state ≠ .waiting) →
          s.requests.map (fun r => if r.key ∈ rest then started r else r) =
            s.requests.map fun r => if r.key ∈ key :: rest then started r else r := by
        intro hnot
        refine List.map_congr_left fun q hq => ?_
        by_cases hkey : q.key = key
        · have hstays : started q = q := if_neg (hnot q (hkey ▸ request?_of_mem hkeys hq))
          simp [hkey, h.1, hstays]
        · simp [hkey]
      rw [takeEach]
      split
      · rename_i hnone
        rw [ih hkeys h.2, List.filterMap_cons_none hnone, hskip (by simp [hnone])]
      · rename_i r hr
        split
        · rename_i hwaiting
          have hkeys' : ((s.start key).requests.map (·.key)).Nodup := by
            have hkept : ∀ r : Request W,
                (if r.key = key then { r with state := .running } else r).key = r.key := by
              intro r
              split <;> rfl
            simpa [start, Function.comp_def, hkept] using hkeys
          have hothers : rest.filterMap (s.start key).request? = rest.filterMap s.request? :=
            List.filterMap_congr fun other hother =>
              request?_start_of_ne fun heq => h.1 (heq ▸ hother)
          rw [ih hkeys' h.2, hothers, List.filterMap_cons_some hr]
          refine Prod.ext ?_ ?_
          · simp [hwaiting]
          · simp only [start, List.map_map, mk.injEq, true_and, and_true]
            refine List.map_congr_left fun q hq => ?_
            by_cases hkey : q.key = key
            · obtain rfl : q = r :=
                Option.some.inj ((request?_of_mem hkeys hq).symm.trans (hkey ▸ hr))
              simp [hkey, h.1, started, hwaiting]
            · simp [hkey]
        · rename_i hnot
          rw [ih hkeys h.2, List.filterMap_cons_some hr,
            List.filter_cons_of_neg (by simpa using hnot),
            hskip fun q hq => by rwa [Option.some.inj (hq.symm.trans hr)]]

theorem Sound.filterMap_request? (h : s.Sound) : s.order.filterMap s.request? = s.requests := by
  rw [h.order, List.filterMap_map]
  exact (List.filterMap_congr fun r hr => request?_of_mem h.keys hr).trans List.filterMap_some

/-- All requests that wait are taken, in their order. -/
theorem Sound.takeWaiting_eq (h : s.Sound) :
    s.takeWaiting =
      ((s.requests.filter (·.state = .waiting)).map jobOf,
        { s with requests := s.requests.map started }) := by
  rw [takeWaiting, takeEach_eq h.keys (h.order ▸ h.keys), h.filterMap_request?]
  have hlisted : s.requests.map (fun r => if r.key ∈ s.order then started r else r) =
      s.requests.map started := by
    refine List.map_congr_left fun r hr => if_pos ?_
    rw [h.order]
    exact List.mem_map_of_mem hr
  rw [hlisted]

theorem takeEach_of_nil (h : s.requests = []) (keys : List CallKey) :
    s.takeEach keys = ([], s) := by
  induction keys with
  | nil => rfl
  | cons key rest ih => simp [takeEach, request?, h, ih]

/-- A request is taken if all requests with its key wait. -/
theorem key_mem_takeEach {keys : List CallKey} (hkey : key ∈ keys) (hr : r ∈ s.requests)
    (hrkey : r.key = key) (hwaiting : ∀ r ∈ s.requests, r.key = key → r.state = .waiting) :
    key ∈ (s.takeEach keys).1.map (·.key) := by
  induction keys generalizing s with
  | nil => simp at hkey
  | cons other rest ih =>
      rw [takeEach]
      by_cases hother : other = key
      · subst hother
        obtain ⟨q, hq⟩ : ∃ q, s.request? other = some q := by
          rw [← Option.isSome_iff_exists, request?, List.find?_isSome]
          exact ⟨r, hr, by simpa using hrkey⟩
        have hqkey := key_of_request? hq
        simp [hq, hwaiting q (mem_of_request? hq) hqkey, jobOf, hqkey]
      · have hrest : key ∈ rest := (List.mem_cons.1 hkey).resolve_left (Ne.symm hother)
        split
        · exact ih hrest hr hwaiting
        · split
          · refine List.mem_cons_of_mem _ (ih hrest ?_ ?_)
            · exact List.mem_map.2 ⟨r, hr, if_neg (hrkey ▸ Ne.symm hother)⟩
            · intro q hq hqkey
              obtain ⟨p, hp, rfl⟩ := List.mem_map.1 hq
              split at hqkey
              · rename_i heq
                exact absurd (heq.symm.trans hqkey) hother
              · rename_i hne
                rw [if_neg hne]
                exact hwaiting p hp hqkey
          · exact ih hrest hr hwaiting

theorem Sound.mem_takeWaiting_iff (h : s.Sound) {job : Job W} :
    job ∈ s.takeWaiting.1 ↔ ∃ r ∈ s.requests, r.state = .waiting ∧ jobOf r = job := by
  simp [h.takeWaiting_eq, and_assoc]

/-- A ticket is taken with its request. -/
theorem Sound.ticket_mem_iff (h : s.Sound) (hr : r ∈ s.requests) :
    r.ticket ∈ s.takeWaiting.1.map (·.ticket) ↔ r.state = .waiting := by
  simp only [List.mem_map, h.mem_takeWaiting_iff]
  constructor
  · rintro ⟨job, ⟨q, hq, hstate, rfl⟩, heq⟩
    rwa [h.eq_of_ticket_eq hq hr heq] at hstate
  · exact fun hstate => ⟨jobOf r, ⟨r, hr, hstate, rfl⟩, rfl⟩

/-- A key is taken with its request. -/
theorem Sound.key_mem_iff (h : s.Sound) (hr : r ∈ s.requests) :
    r.key ∈ s.takeWaiting.1.map (·.key) ↔ r.state = .waiting := by
  simp only [List.mem_map, h.mem_takeWaiting_iff]
  constructor
  · rintro ⟨job, ⟨q, hq, hstate, rfl⟩, heq⟩
    rwa [h.eq_of_key_eq hq hr heq] at hstate
  · exact fun hstate => ⟨jobOf r, ⟨r, hr, hstate, rfl⟩, rfl⟩

end Scheduler

/-! ## A round -/

/-- The outcome of the query is a matter of its bindings alone. -/
def Query.Steady (q : Query W) : Prop :=
  ∀ captures w w', (q.invoke captures w).1 = (q.invoke captures w').1

/-- The request after a round without a cache: if it has been waiting, it is finished with the
outcome of its query, which does not depend on the world if the query is steady. -/
def Request.worked (w : W) (r : Request W) : Request W :=
  if r.state = .waiting then
    Scheduler.closed (answered (r.query.invoke r.captures w).1.resolution? (Scheduler.started r))
  else r

namespace Bench

variable {b : Bench W} {key : CallKey} {r : Request W}

/-- A job that ends answers the request that it was taken from. -/
theorem scheduler_finish (b : Bench W) (job : Job W) (work : Work) :
    (b.finish job work).scheduler =
      { b.scheduler with
        requests := b.scheduler.requests.map fun r =>
          if r.ticket = job.ticket then r.answered work.resolution? else r } := by
  rw [finish]
  rcases work.resolution? with _ | x
  · simp [Request.answered]
  · rfl

theorem scheduler_runJob (b : Bench W) (job : Job W) :
    (b.runJob job).scheduler =
      { b.scheduler with
        requests := b.scheduler.requests.map fun r =>
          if r.ticket = job.ticket then r.answered (b.begin job).1.resolution? else r } :=
  scheduler_finish _ _ _

/-- Without a cache every job invokes its query. -/
theorem begin_of_none (hcache : b.cache = none) (job : Job W) :
    b.begin job = (.invoked (job.query.invoke job.captures b.world).1,
      { b with world := (job.query.invoke job.captures b.world).2 }) := by
  simp [begin, Job.begin, hcache]

theorem cache_finish (hcache : b.cache = none) (job : Job W) (work : Work) :
    (b.finish job work).cache = none := by
  simp only [finish, hcache, Option.map_none]
  split <;> rfl

theorem cache_runJob (hcache : b.cache = none) (job : Job W) : (b.runJob job).cache = none := by
  rw [runJob, begin_of_none hcache]
  exact cache_finish hcache _ _

/-- Jobs let requests progress. -/
theorem exists_progress_runJobs (jobs : List (Job W)) (b : Bench W) :
    ∃ f, Request.Progresses f ∧ (jobs.foldl runJob b).scheduler =
      { b.scheduler with requests := b.scheduler.requests.map f } := by
  induction jobs generalizing b with
  | nil => exact ⟨id, .id, by simp⟩
  | cons job jobs ih =>
      obtain ⟨f, hf, heq⟩ := ih (b.runJob job)
      refine ⟨_, hf.comp ((Request.progresses_answered (b.begin job).1.resolution?).ite
        fun r => r.ticket = job.ticket), ?_⟩
      rw [List.foldl_cons, heq, scheduler_runJob]
      simp

/-- The requests taken in a round, with their jobs done, before they are closed. -/
def runTaken (b : Bench W) : Bench W :=
  b.scheduler.takeWaiting.1.foldl runJob { b with scheduler := b.scheduler.takeWaiting.2 }

theorem runPending_snd (hidle : b.idle = 0) :
    b.runPending.2 =
      { b.runTaken with
        scheduler :=
          (b.runTaken.scheduler.close (b.scheduler.takeWaiting.1.map (·.key))).2 } := by
  obtain ⟨scheduler, cache, world, idle⟩ := b
  obtain rfl : idle = 0 := hidle
  rfl

theorem runPending_idle {idle : Nat} (hidle : b.idle = idle + 1) :
    b.runPending.2 = { b with idle } := by
  rw [runPending, hidle]

theorem exists_progress_runTaken (b : Bench W) :
    ∃ f, Request.Progresses f ∧ b.runTaken.scheduler =
      { b.scheduler with requests := b.scheduler.requests.map f } := by
  obtain ⟨g, hg, htaken⟩ := b.scheduler.exists_progress_takeEach b.scheduler.order
  obtain ⟨f, hf, heq⟩ := exists_progress_runJobs b.scheduler.takeWaiting.1
    { b with scheduler := b.scheduler.takeWaiting.2 }
  refine ⟨_, hf.comp hg, ?_⟩
  rw [runTaken, heq]
  simp [Scheduler.takeWaiting, htaken]

/-- A round lets requests progress and does nothing else to them. -/
theorem exists_progress_runPending (b : Bench W) :
    ∃ f, Request.Progresses f ∧ b.runPending.2.scheduler =
      { b.scheduler with requests := b.scheduler.requests.map f } := by
  cases hidle : b.idle with
  | succ idle => exact ⟨id, .id, by rw [runPending_idle hidle]; simp⟩
  | zero =>
      obtain ⟨f, hf, heq⟩ := exists_progress_runTaken b
      refine ⟨_, (Request.progresses_closed.ite fun r =>
        (b.scheduler.takeWaiting.1.map (·.key)).contains r.key = true).comp hf, ?_⟩
      rw [runPending_snd hidle, Scheduler.close, heq]
      simp

theorem keeps_runPending (b : Bench W) : b.scheduler.Keeps b.runPending.2.scheduler := by
  obtain ⟨f, hf, heq⟩ := exists_progress_runPending b
  exact Scheduler.keeps_of_map hf (by rw [heq])

/-- After a round of which all requests have been waiting all have a resolution. -/
theorem resolved_runPending (hidle : b.idle = 0)
    (hopen : ∀ r ∈ b.scheduler.requests, r.key ∈ b.scheduler.order ∧ r.state = .waiting) :
    ∀ r ∈ b.runPending.2.scheduler.requests, r.promise.isSome := by
  obtain ⟨f, hf, heq⟩ := exists_progress_runTaken b
  rw [runPending_snd hidle, Scheduler.close, heq]
  intro r hr
  simp only [List.map_map, List.mem_map, Function.comp_apply] at hr
  obtain ⟨q, hq, rfl⟩ := hr
  have htaken : q.key ∈ b.scheduler.takeWaiting.1.map (·.key) :=
    Scheduler.key_mem_takeEach (hopen q hq).1 hq rfl fun r hr _ => (hopen r hr).2
  rw [if_pos (by rw [hf.key]; exact List.contains_iff_mem.2 htaken)]
  simp [Scheduler.closed]

/-- A round with nothing to work on leaves the world alone. -/
theorem world_runPending (h : b.scheduler.requests = []) : b.runPending.2.world = b.world := by
  cases hidle : b.idle with
  | succ idle => rw [runPending_idle hidle]
  | zero =>
      simp [runPending_snd hidle, runTaken, Scheduler.takeWaiting, Scheduler.takeEach_of_nil h]

/-- Of several jobs those with the ticket of a request answer it, and they do so alike. -/
theorem request?_runJobs (hcache : b.cache = none) (hr : b.scheduler.request? key = some r)
    {outcome : Outcome} (houtcome : ∀ w, (r.query.invoke r.captures w).1 = outcome)
    {jobs : List (Job W)}
    (hjobs : ∀ job ∈ jobs, job.ticket = r.ticket → job = Scheduler.jobOf r) :
    (jobs.foldl runJob b).scheduler.request? key =
      some (if r.ticket ∈ jobs.map (·.ticket) then r.answered outcome.resolution? else r) := by
  induction jobs generalizing b r with
  | nil => simpa using hr
  | cons job jobs ih =>
      have hnext := cache_runJob hcache job
      have hlook : (b.runJob job).scheduler.request? key = some
          (if r.ticket = job.ticket then r.answered (b.begin job).1.resolution? else r) := by
        rw [Scheduler.request?_eq_of_map ((Request.progresses_answered _).ite
          fun r => r.ticket = job.ticket) (by rw [scheduler_runJob]) key, hr]
        rfl
      rw [List.forall_mem_cons] at hjobs
      rw [List.foldl_cons]
      by_cases hticket : r.ticket = job.ticket
      · obtain rfl : job = Scheduler.jobOf r := hjobs.1 hticket.symm
        have hrun : (b.begin (Scheduler.jobOf r)).1.resolution? = outcome.resolution? := by
          rw [begin_of_none hcache, ← houtcome b.world]
          rfl
        have hjob := (Request.progresses_answered (W := W) outcome.resolution?).jobOf r
        obtain ⟨-, hsame, hquery, hcaptures⟩ := Job.mk.inj hjob
        rw [if_pos hticket, hrun] at hlook
        rw [ih hnext hlook (by rwa [hquery, hcaptures]) (by rw [hjob, hsame]; exact hjobs.2)]
        simp [hticket, Request.answered_answered]
      · rw [if_neg hticket] at hlook
        rw [ih hnext hlook houtcome hjobs.2]
        simp [hticket]

/-- **One request in a round.** A round makes of a request what its own query yields, whatever
else is worked on. -/
theorem request?_runPending (hidle : b.idle = 0) (hcache : b.cache = none)
    (hsound : b.scheduler.Sound) (hr : b.scheduler.request? key = some r)
    (hsteady : r.query.Steady) (w : W) :
    b.runPending.2.scheduler.request? key = some (r.worked w) := by
  have hmem := Scheduler.mem_of_request? hr
  have hstarted := Request.progresses_started.jobOf r
  obtain ⟨-, hticket, hquery, hcaptures⟩ := Job.mk.inj hstarted
  have hstart : b.scheduler.takeWaiting.2.request? key = some (Scheduler.started r) := by
    rw [Scheduler.request?_eq_of_map Request.progresses_started (by rw [hsound.takeWaiting_eq]), hr]
    rfl
  have hjobs : ∀ job ∈ b.scheduler.takeWaiting.1, job.ticket = (Scheduler.started r).ticket →
      job = Scheduler.jobOf (Scheduler.started r) := by
    intro job hjob heq
    obtain ⟨q, hq, -, rfl⟩ := hsound.mem_takeWaiting_iff.1 hjob
    rw [hstarted, hsound.eq_of_ticket_eq hq hmem (heq.trans hticket)]
  have htaken := request?_runJobs (b := { b with scheduler := b.scheduler.takeWaiting.2 }) hcache
    hstart (fun w' => by rw [hquery, hcaptures]; exact hsteady r.captures w' w) hjobs
  have hkey : r.key ∈ b.scheduler.takeWaiting.1.map (·.key) ↔ r.state = .waiting :=
    hsound.key_mem_iff hmem
  have hwaiting := hsound.ticket_mem_iff hmem
  simp only [hticket, hwaiting] at htaken
  rw [runPending_snd hidle, Scheduler.close, Scheduler.request?_eq_of_map
    (Request.progresses_closed.ite fun r =>
      (b.scheduler.takeWaiting.1.map (·.key)).contains r.key = true) rfl, runTaken, htaken,
    Request.worked]
  by_cases hstate : r.state = .waiting
  · have hkept := (Request.progresses_answered (W := W)
      (r.query.invoke r.captures w).1.resolution?).key (Scheduler.started r)
    have hsame := Request.progresses_started.key r
    simp only [if_pos hstate, Option.map_some, List.contains_iff_mem, hkept, hsame, hkey]
  · have hsame : Scheduler.started r = r := if_neg hstate
    simp only [if_neg hstate, Option.map_some, List.contains_iff_mem, hsame, hkey]

theorem request?_runPending_of_none (hr : b.scheduler.request? key = none) :
    b.runPending.2.scheduler.request? key = none := by
  obtain ⟨f, hf, heq⟩ := exists_progress_runPending b
  rw [Scheduler.request?_eq_of_map hf (by rw [heq]), hr]
  rfl

/-! ## Histories -/

/-- One bench comes from another by so many rounds, with runs asked for in between. -/
inductive Works : Nat → Bench W → Bench W → Prop
  | done (b : Bench W) : Works 0 b b
  | ask (n : Nat) (b b' : Bench W) (key : CallKey) (query : Query W) (captures : Fields Value)
      (h : Works n b b') :
      Works n b { b' with scheduler := b'.scheduler.register key query captures }
  | round (n : Nat) (b b' : Bench W) (h : Works n b b') : Works (n + 1) b b'.runPending.2

namespace Works

variable {n m : Nat} {b' b'' : Bench W}

theorem trans (h : Works n b b') (h' : Works m b' b'') : Works (n + m) b b'' := by
  induction h' with
  | done => exact h
  | ask m _ b'' key query captures _ ih => exact .ask _ _ _ key query captures (ih h)
  | round m _ b'' _ ih => exact .round _ _ _ (ih h)

/-- Whatever registrations and rounds keep is kept. -/
theorem keeps (h : Works n b b') : b.scheduler.Keeps b'.scheduler := by
  induction h with
  | done b => exact Scheduler.keeps_refl _
  | ask n b b' key query captures _ ih =>
      exact ih.trans (Scheduler.keeps_register b'.scheduler key query captures)
  | round n b b' _ ih => exact ih.trans b'.keeps_runPending

end Works

/-- A bench without a cache that any history of registrations, rounds and forgetting has led
to. -/
inductive Reached : Bench W → Prop
  | fresh (world : W) : Reached ⟨.empty, none, world, 0⟩
  | ask (b : Bench W) (key : CallKey) (query : Query W) (captures : Fields Value)
      (h : Reached b) : Reached { b with scheduler := b.scheduler.register key query captures }
  | round (b : Bench W) (h : Reached b) : Reached b.runPending.2
  | forget (b : Bench W) (keys : List CallKey) (h : Reached b) :
      Reached { b with scheduler := (b.scheduler.forget keys).2 }

theorem cache_runJobs (hcache : b.cache = none) (jobs : List (Job W)) :
    (jobs.foldl runJob b).cache = none := by
  induction jobs generalizing b with
  | nil => exact hcache
  | cons job jobs ih => exact ih (cache_runJob hcache job)

theorem idle_runJobs (b : Bench W) (jobs : List (Job W)) :
    (jobs.foldl runJob b).idle = b.idle := by
  induction jobs generalizing b with
  | nil => rfl
  | cons job jobs ih => exact ih (b.runJob job)

theorem cache_runPending (hidle : b.idle = 0) (hcache : b.cache = none) :
    b.runPending.2.cache = none := by
  rw [runPending_snd hidle]
  exact cache_runJobs (b := { b with scheduler := b.scheduler.takeWaiting.2 }) hcache _

theorem idle_runPending (hidle : b.idle = 0) : b.runPending.2.idle = 0 := by
  rw [runPending_snd hidle, ← hidle]
  exact idle_runJobs _ _

namespace Reached

theorem idle_eq (h : Reached b) : b.idle = 0 := by
  induction h with
  | fresh => rfl
  | ask _ _ _ _ _ ih => exact ih
  | round b _ ih => exact idle_runPending ih
  | forget _ _ _ ih => exact ih

theorem cache_eq (h : Reached b) : b.cache = none := by
  induction h with
  | fresh => rfl
  | ask _ _ _ _ _ ih => exact ih
  | round b h ih => exact cache_runPending h.idle_eq ih
  | forget _ _ _ ih => exact ih

theorem sound (h : Reached b) : b.scheduler.Sound := by
  induction h with
  | fresh => exact Scheduler.sound_empty
  | ask b key query captures _ ih => exact ih.register key query captures
  | round b _ ih =>
      obtain ⟨f, hf, heq⟩ := exists_progress_runPending b
      rw [heq]
      exact ih.of_map hf
  | forget b keys _ ih => exact ih.drop keys

/-- More rounds and registrations are more history. -/
theorem of_works {n : Nat} {b' : Bench W} (h : Reached b) (hworks : Works n b b') :
    Reached b' := by
  induction hworks with
  | done => exact h
  | ask _ _ b' key query captures _ ih => exact .ask b' key query captures (ih h)
  | round _ _ b' _ ih => exact .round b' (ih h)

end Reached

end Bench

end Guided
