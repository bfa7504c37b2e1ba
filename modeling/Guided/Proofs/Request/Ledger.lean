import Guided.Proofs.Request.Schedule

/-!
# The scheduler as a ledger of requests

A ledger says what a scheduler is for, without tickets, stages and rounds under way: a list of
the runs that have been asked for, in the order in which that was, each under a key of its own
and with its resolution once it is there. Working on a ledger runs what has no resolution, from
first to last, each run in the world that the one before it has left.

A scheduler without a cache refines the ledger. Whatever is demanded of it, one demand after the
other, it answers as the ledger does, it invokes the queries that the ledger invokes, and
afterwards it shows what is in the ledger, under every limit and every schedule of its rounds.

## Main definitions

* `Entry`, `Ledger`, `Ledger.perform`: the ledger and what is done with it.
* `Demand`, `Reply`, `Report`, `Bench.History`: what is demanded of a scheduler, and what comes
  of it.
* `Bench.Agrees`: a scheduler shows what is in a ledger.
* `Bench.Orderly`: what registering, forgetting and running do to single requests.

## Main statements

* `Bench.Round.ledger_eq`: a round does what the ledger does.
* `Bench.Performs.ledger_eq`: so does every demand.
* `Bench.refines_ledger`: so does every sequence of them.
-/
namespace Guided

variable {W : Type}

/-! ## Ledgers -/

/-- A run that has been asked for, and its resolution once it is there. -/
structure Entry (W : Type) where
  key : CallKey
  query : Query W
  captures : Fields Value
  resolution : Option Resolution

/-- Runs that have been asked for, in the order in which that was, and the world of queries. -/
structure Ledger (W : Type) where
  entries : List (Entry W)
  world : W

/-- What a run that ends so is resolved to. -/
def Outcome.resolution : Outcome → Resolution
  | .output o => .ready o.result
  | .failed e => .failed e.message
  | .cutOff => .failed cutOffReason

namespace Entry

/-- The stage of a run that nobody is working on. -/
def state (e : Entry W) : RequestState := if e.resolution.isSome then .finished else .waiting

/-- Run what has no resolution. -/
def run (e : Entry W) (world : W) : Entry W × W :=
  if e.resolution.isSome then (e, world)
  else
    let (outcome, world) := e.query.invoke e.captures world
    ({ e with resolution := some outcome.resolution }, world)

/-- Run what has no resolution, from first to last. -/
def runAll : List (Entry W) → W → List (Entry W) × W
  | [], world => ([], world)
  | e :: rest, world =>
      let (e, world) := e.run world
      let (rest, world) := runAll rest world
      (e :: rest, world)

end Entry

/-- What is demanded of a scheduler. -/
inductive Demand (W : Type) where
  | ask (key : CallKey) (query : Query W) (captures : Fields Value)
  | run
  | forget (keys : List CallKey)

/-- What a demand is answered with: the key of the run that was asked for, or how many requests
were closed or forgotten. -/
inductive Reply where
  | key (key : CallKey)
  | count (n : Nat)
deriving DecidableEq

namespace Ledger

/-- The run under a key. -/
def entry? (l : Ledger W) (key : CallKey) : Option (Entry W) := l.entries.find? (·.key == key)

/-- The runs without a resolution. -/
def waiting (l : Ledger W) : List (Entry W) := l.entries.filter (·.resolution.isNone)

/-- Ask for a run, unless its key is there. -/
def ask (l : Ledger W) (key : CallKey) (query : Query W) (captures : Fields Value) : Ledger W :=
  if (l.entry? key).isSome then l
  else { l with entries := l.entries ++ [⟨key, query, captures, none⟩] }

/-- Run what waits. -/
def run (l : Ledger W) : Ledger W :=
  ⟨(Entry.runAll l.entries l.world).1, (Entry.runAll l.entries l.world).2⟩

/-- Forget the runs with the given keys. -/
def forget (l : Ledger W) (keys : List CallKey) : Ledger W :=
  { l with entries := l.entries.filter fun e => !keys.contains e.key }

/-- Do what is demanded: the reply, the runs whose queries are invoked, and the ledger. -/
def perform (l : Ledger W) : Demand W → Reply × List (Entry W) × Ledger W
  | .ask key query captures => (.key key, [], l.ask key query captures)
  | .run => (.count l.waiting.length, l.waiting, l.run)
  | .forget keys =>
      (.count (l.entries.filter fun e => keys.contains e.key).length, [], l.forget keys)

/-- Do what is demanded, one demand after the other. -/
def history (l : Ledger W) : List (Demand W) → List (Reply × List (Entry W) × Ledger W)
  | [] => []
  | demand :: demands => l.perform demand :: (l.perform demand).2.2.history demands

end Ledger

/-! ## Histories of a scheduler -/

/-- What comes of a demand: the reply, the log of the round if there was one, and the bench as it
is left. -/
structure Report (W : Type) where
  reply : Reply
  log : List (RoundEvent W)
  bench : Bench W

namespace Bench

/-- A bench on which nothing has been asked for. -/
def fresh (cache : Option ResultCache) (world : W) : Bench W := ⟨.empty, cache, world, 0⟩

/-- What may come of a demand, under a limit on how many jobs run at once. -/
inductive Performs (limit : Nat) (b : Bench W) : Demand W → Report W → Prop
  | ask (key : CallKey) (query : Query W) (captures : Fields Value) :
      Performs limit b (.ask key query captures)
        ⟨.key key, [], { b with scheduler := b.scheduler.register key query captures }⟩
  | run (log : List (RoundEvent W)) (n : Nat) (b' : Bench W) (h : b.Round limit log n b') :
      Performs limit b .run ⟨.count n, log, b'⟩
  | forget (keys : List CallKey) :
      Performs limit b (.forget keys)
        ⟨.count (b.scheduler.forget keys).1, [],
          { b with scheduler := (b.scheduler.forget keys).2 }⟩

/-- What may come of several demands, one after the other. -/
inductive History (limit : Nat) : Bench W → List (Demand W) → List (Report W) → Prop
  | nil (b : Bench W) : History limit b [] []
  | cons {b : Bench W} {demand : Demand W} {report : Report W} {demands : List (Demand W)}
      {reports : List (Report W)} (h : b.Performs limit demand report)
      (hrest : History limit report.bench demands reports) :
      History limit b (demand :: demands) (report :: reports)

end Bench

/-! ## What a scheduler shows -/

/-- The run that a request is for. -/
def Request.entry (r : Request W) : Entry W := ⟨r.key, r.query, r.captures, r.promise⟩

@[simp] theorem Request.key_entry (r : Request W) : r.entry.key = r.key := rfl

@[simp] theorem Request.resolution_entry (r : Request W) : r.entry.resolution = r.promise := rfl

/-- The run that a job is for. -/
def Job.entry (job : Job W) : Entry W := ⟨job.key, job.query, job.captures, none⟩

/-- The requests that are not forgotten are found as before. -/
theorem Scheduler.request?_forget (s : Scheduler W) (keys : List CallKey) (key : CallKey) :
    (s.forget keys).2.request? key = if key ∈ keys then none else s.request? key := by
  rw [forget, drop, request?, request?, List.find?_filter]
  split
  · rename_i hkey
    rw [List.find?_eq_none]
    rintro r - hr
    simp only [beq_iff_eq, decide_eq_true_eq] at hr
    obtain ⟨hno, rfl⟩ := hr
    simp [hkey] at hno
  · rename_i hkey
    refine congrArg (List.find? · s.requests) (funext fun r => ?_)
    by_cases hr : r.key = key
    · simp [hr, hkey]
    · simp [hr]

namespace Bench

/-- A bench between demands: requests are told apart, nobody else works on them, and a request
waits until it has its resolution. -/
structure Rests (b : Bench W) : Prop where
  sound : b.scheduler.Sound
  idle : b.idle = 0
  state : ∀ r ∈ b.scheduler.requests, r.state = r.entry.state

/-- The ledger of a bench. -/
def ledger (b : Bench W) : Ledger W := ⟨b.scheduler.requests.map Request.entry, b.world⟩

/-- Everything that can be asked of a scheduler is answered as the ledger has it. -/
structure Agrees (b : Bench W) (l : Ledger W) : Prop where
  order : b.scheduler.order = l.entries.map (·.key)
  nodup : b.scheduler.order.Nodup
  entry : ∀ key, (b.scheduler.request? key).map Request.entry = l.entry? key
  state : ∀ key, b.scheduler.state? key = (l.entry? key).map Entry.state
  resolution : ∀ key, b.scheduler.resolution? key = (l.entry? key).bind (·.resolution)
  resolutions : b.scheduler.resolutions = l.entries.filterMap fun e => e.resolution.map (e.key, ·)
  hasPending : b.scheduler.hasPending = !l.waiting.isEmpty
  world : b.world = l.world

theorem rests_fresh (cache : Option ResultCache) (world : W) : (fresh cache world).Rests :=
  ⟨Scheduler.sound_empty, rfl, by simp [fresh, Scheduler.empty]⟩

theorem entry?_ledger (b : Bench W) (key : CallKey) :
    b.ledger.entry? key = (b.scheduler.request? key).map Request.entry := by
  rw [ledger, Ledger.entry?, List.find?_map]
  rfl

theorem Rests.agrees {b : Bench W} (h : b.Rests) : b.Agrees b.ledger where
  order := by simp [h.sound.order, ledger, Request.entry, Function.comp_def]
  nodup := h.sound.order ▸ h.sound.keys
  entry key := (entry?_ledger b key).symm
  state key := by
    rw [entry?_ledger, Scheduler.state?, Option.map_map]
    refine Option.map_congr fun r hr => ?_
    exact h.state r (Scheduler.mem_of_request? hr)
  resolution key := by
    rw [entry?_ledger, Scheduler.resolution?, Option.bind_map]
    rfl
  resolutions := by
    rw [Scheduler.resolutions, h.sound.order, ledger, List.filterMap_map, List.filterMap_map]
    refine List.filterMap_congr fun r hr => ?_
    simp [Scheduler.resolution?, Scheduler.request?_of_mem h.sound.keys hr, Request.entry]
  hasPending := by
    rw [Bool.eq_iff_iff]
    simp [Scheduler.hasPending, Ledger.waiting, ledger, Request.entry]
  world := rfl

/-! ## Registering and forgetting -/

theorem ledger_register (b : Bench W) (key : CallKey) (query : Query W)
    (captures : Fields Value) :
    ledger { b with scheduler := b.scheduler.register key query captures } =
      b.ledger.ask key query captures := by
  have hthere : (b.ledger.entry? key).isSome = b.scheduler.requests.any (·.key == key) := by
    rw [entry?_ledger, Option.isSome_map, Bool.eq_iff_iff, Scheduler.request?, List.find?_isSome,
      List.any_eq_true]
  rw [Ledger.ask, hthere, Scheduler.register]
  split
  · rfl
  · simp [ledger, Request.entry]

theorem Rests.register {b : Bench W} (h : b.Rests) (key : CallKey) (query : Query W)
    (captures : Fields Value) :
    Rests { b with scheduler := b.scheduler.register key query captures } where
  sound := h.sound.register key query captures
  idle := h.idle
  state r hr := by
    rcases Scheduler.mem_of_mem_register hr with hr | rfl
    · exact h.state r hr
    · rfl

theorem ledger_forget (b : Bench W) (keys : List CallKey) :
    ledger { b with scheduler := (b.scheduler.forget keys).2 } = b.ledger.forget keys := by
  rw [ledger, Ledger.forget, ledger, List.filter_map]
  rfl

/-- As many requests are forgotten as have one of the given keys. -/
theorem count_forget (b : Bench W) (keys : List CallKey) :
    (b.scheduler.forget keys).1 =
      (b.ledger.entries.filter fun e => keys.contains e.key).length := by
  have hsplit := List.length_eq_length_filter_add (l := b.scheduler.requests)
    fun r => keys.contains r.key
  have hlisted : (b.ledger.entries.filter fun e => keys.contains e.key).length =
      (b.scheduler.requests.filter fun r => keys.contains r.key).length := by
    rw [ledger, List.filter_map, List.length_map]
    rfl
  rw [hlisted]
  exact Nat.sub_eq_of_eq_add hsplit

theorem Rests.forget {b : Bench W} (h : b.Rests) (keys : List CallKey) :
    Rests { b with scheduler := (b.scheduler.forget keys).2 } where
  sound := h.sound.drop keys
  idle := h.idle
  state r hr := h.state r (List.mem_filter.1 hr).1

/-! ## Rounds -/

theorem Rests.round {limit n : Nat} {b b' : Bench W} {log : List (RoundEvent W)} (h : b.Rests)
    (hround : b.Round limit log n b') : b'.Rests := by
  have hscheduler := congrArg Prod.snd (hround.result_eq h.sound)
  have hidle := hround.idle_eq
  obtain ⟨scheduler, cache, world, idle⟩ := b'
  obtain rfl : scheduler = _ := hscheduler
  refine ⟨h.sound.of_map (Request.progresses_ran _), hidle, fun r hr => ?_⟩
  obtain ⟨q, hq, rfl⟩ := List.mem_map.1 hr
  rw [Request.ran]
  split
  · simp [Scheduler.closed, Request.entry, Entry.state]
  · exact h.state q hq

end Bench

namespace Request

/-- Answers to other requests do not matter in a round. -/
theorem ran_cons_of_ne {r : Request W} {a : Nat × Option Resolution} (hne : r.ticket ≠ a.1)
    (answers : List (Nat × Option Resolution)) : r.ran (a :: answers) = r.ran answers := by
  have hticket : (Scheduler.started r).ticket ≠ a.1 := by rwa [progresses_started.ticket]
  rw [ran, ran, List.foldl_cons, hear, if_neg hticket]

/-- A waiting request comes to what its query does. -/
theorem entry_ran_cons {r : Request W} (hwaiting : r.state = .waiting)
    (hopen : r.promise = none) (outcome : Outcome) {answers : List (Nat × Option Resolution)}
    (hothers : r.ticket ∉ answers.map (·.1)) :
    (r.ran (answerOf (Scheduler.jobOf r, .invoked outcome) :: answers)).entry =
      { r.entry with resolution := some outcome.resolution } := by
  have hstarted : Scheduler.started r = { r with state := .running } := if_pos hwaiting
  have hheard : hear { r with state := .running } (answerOf (Scheduler.jobOf r, .invoked outcome)) =
      answered outcome.resolution? { r with state := .running } := if_pos rfl
  rw [ran, if_pos hwaiting, List.foldl_cons, hstarted, hheard,
    foldl_hear_of_notMem (by rwa [(progresses_answered _).ticket])]
  cases outcome <;>
    simp [Outcome.resolution?, Outcome.resolution, answered, hopen, Scheduler.closed, entry]

end Request

/-- Running the entries of requests is running the jobs of those that wait. -/
theorem runAll_entry {requests : List (Request W)}
    (hstate : ∀ r ∈ requests, r.state = r.entry.state)
    (htickets : (requests.map (·.ticket)).Nodup) (world : W) :
    Entry.runAll (requests.map Request.entry) world =
      (requests.map fun r =>
          (r.ran ((invokeAll ((requests.filter (·.state = .waiting)).map Scheduler.jobOf)
            world).1.map answerOf)).entry,
        (invokeAll ((requests.filter (·.state = .waiting)).map Scheduler.jobOf) world).2) := by
  induction requests generalizing world with
  | nil => rfl
  | cons r requests ih =>
      rw [List.forall_mem_cons] at hstate
      rw [List.map_cons, List.nodup_cons] at htickets
      rw [List.map_cons, Entry.runAll, Entry.run, r.resolution_entry]
      cases hpromise : r.promise with
      | some x =>
          have hfinished : r.state ≠ .waiting := by
            rw [hstate.1]
            simp [Entry.state, hpromise]
          have hstays : ∀ answers, r.ran answers = r := fun _ => if_neg hfinished
          simp [hfinished, hstays, ih hstate.2 htickets.2]
      | none =>
          have hwaiting : r.state = .waiting := by
            rw [hstate.1]
            simp [Entry.state, hpromise]
          have hothers : ∀ world, r.ticket ∉
              ((invokeAll ((requests.filter (·.state = .waiting)).map Scheduler.jobOf)
                world).1.map answerOf).map (·.1) := by
            intro world hmem
            rw [tickets_invokeAll, List.map_map] at hmem
            exact htickets.1 ((List.filter_sublist.map _).mem hmem)
          have hskipped : ∀ work answers, ∀ q ∈ requests,
              q.ran (answerOf (Scheduler.jobOf r, work) :: answers) = q.ran answers := by
            intro work answers q hq
            refine Request.ran_cons_of_ne (fun heq => htickets.1 ?_) answers
            exact List.mem_map.2 ⟨q, hq, heq⟩
          have hrun := r.entry_ran_cons hwaiting hpromise
          simp only [hwaiting, Option.isSome_none, Bool.false_eq_true, if_false, List.filter_cons,
            decide_true, if_true, List.map_cons, invokeAll]
          rw [hrun _ (hothers _), ih hstate.2 htickets.2,
            List.map_congr_left fun q hq => congrArg Request.entry (hskipped _ _ q hq)]
          rfl

namespace Bench

variable {limit n : Nat} {b b' : Bench W} {log : List (RoundEvent W)}

theorem Rests.waiting_iff (h : b.Rests) {r : Request W} (hr : r ∈ b.scheduler.requests) :
    r.state = .waiting ↔ r.promise = none := by
  rw [h.state r hr, Entry.state, r.resolution_entry]
  cases r.promise <;> simp

/-- The requests that a round takes are those that have no resolution. -/
theorem Rests.waiting_ledger (h : b.Rests) :
    b.ledger.waiting = b.scheduler.takeWaiting.1.map Job.entry := by
  rw [h.sound.takeWaiting_eq, List.map_map, Ledger.waiting, ledger, List.filter_map]
  have hsame : b.scheduler.requests.filter ((fun e => e.resolution.isNone) ∘ Request.entry) =
      b.scheduler.requests.filter (·.state = .waiting) := by
    refine List.filter_congr fun r hr => ?_
    rw [Bool.eq_iff_iff]
    simp [h.waiting_iff hr]
  rw [hsame]
  refine List.map_congr_left fun r hr => ?_
  obtain ⟨hmem, hwaiting⟩ := List.mem_filter.1 hr
  simp [Request.entry, Job.entry, Scheduler.jobOf, (h.waiting_iff hmem).1 (by simpa using hwaiting)]

/-- **A round does what the ledger does**, whatever its schedule. -/
theorem Round.ledger_eq (hround : b.Round limit log n b') (h : b.Rests) (hcache : b.cache = none) :
    (n, (invokedIn log).map Job.entry, b'.ledger) =
      (b.ledger.waiting.length, b.ledger.waiting, b.ledger.run) := by
  obtain ⟨hcount, hscheduler⟩ := Prod.mk.inj (hround.result_eq h.sound)
  have hworks := (hround.invokeAll_eq hcache).2
  have hrun := runAll_entry h.state h.sound.tickets b.world
  have htaken : b.scheduler.takeWaiting.1 =
      (b.scheduler.requests.filter (·.state = .waiting)).map Scheduler.jobOf := by
    rw [h.sound.takeWaiting_eq]
  rw [← htaken, hworks] at hrun
  refine Prod.ext ?_ (Prod.ext ?_ ?_)
  · rw [hcount, h.waiting_ledger, List.length_map]
  · rw [hround.invoked_eq hcache, h.waiting_ledger]
  · rw [ledger, hscheduler, List.map_map, Ledger.run]
    simp only [ledger, hrun]
    rfl

/-- After a round nothing is pending. -/
theorem Round.not_hasPending (hround : b.Round limit log n b') (h : b.Rests) :
    b'.scheduler.hasPending = false := by
  obtain ⟨-, hscheduler⟩ := Prod.mk.inj (hround.result_eq h.sound)
  rw [hscheduler, Scheduler.hasPending, List.any_eq_false]
  intro r hr
  obtain ⟨q, hq, rfl⟩ := List.mem_map.1 hr
  rw [Request.ran]
  split
  · simp [Scheduler.closed]
  · rename_i hstate
    simpa using mt (h.waiting_iff hq).2 hstate

/-! ## Demands -/

variable {demand : Demand W} {report : Report W}

theorem Performs.rests (hp : b.Performs limit demand report) (h : b.Rests) :
    report.bench.Rests := by
  cases hp with
  | ask key query captures => exact h.register key query captures
  | run log n b' hround => exact h.round hround
  | forget keys => exact h.forget keys

theorem Performs.cache_eq_none (hp : b.Performs limit demand report) (hcache : b.cache = none) :
    report.bench.cache = none := by
  cases hp with
  | ask => exact hcache
  | run log n b' hround => exact (hround.invokeAll_eq hcache).1
  | forget => exact hcache

/-- Whatever is demanded is done as the ledger does it. -/
theorem Performs.ledger_eq (hp : b.Performs limit demand report) (h : b.Rests)
    (hcache : b.cache = none) :
    (report.reply, (invokedIn report.log).map Job.entry, report.bench.ledger) =
      b.ledger.perform demand := by
  cases hp with
  | ask key query captures =>
      rw [Ledger.perform, ← ledger_register]
      rfl
  | run log n b' hround =>
      obtain ⟨hcount, hrest⟩ := Prod.mk.inj (hround.ledger_eq h hcache)
      rw [Ledger.perform, ← hcount, ← hrest]
  | forget keys =>
      rw [Ledger.perform, ← ledger_forget, ← count_forget]
      rfl

/-- What is demanded can be done. -/
theorem exists_performs (limit : Nat) (h : b.Rests) (demand : Demand W) :
    ∃ report, b.Performs limit demand report := by
  cases demand with
  | ask key query captures => exact ⟨_, .ask key query captures⟩
  | run =>
      obtain ⟨log, hround⟩ := round_runPending limit h.idle
      exact ⟨_, .run log _ _ hround⟩
  | forget keys => exact ⟨_, .forget keys⟩

/-- Requests that are not forgotten keep their resolutions. -/
theorem Performs.resolution?_eq (hp : b.Performs limit demand report) (h : b.Rests)
    {key : CallKey} (hkept : ∀ keys, demand = .forget keys → key ∉ keys) {x : Resolution}
    (hx : b.scheduler.resolution? key = some x) :
    report.bench.scheduler.resolution? key = some x := by
  cases hp with
  | ask other query captures => exact b.scheduler.keeps_register other query captures key x hx
  | run log n b' hround =>
      obtain ⟨-, hscheduler⟩ := Prod.mk.inj (hround.result_eq h.sound)
      exact Scheduler.keeps_of_map (Request.progresses_ran _) (by rw [hscheduler]) key x hx
  | forget keys =>
      rw [Scheduler.resolution?, Scheduler.request?_forget, if_neg (hkept keys rfl)]
      exact hx

/-! ## Sequences of demands -/

end Bench

/-- A report that says and leaves what the ledger does. -/
def Report.Matches (report : Report W) (e : Reply × List (Entry W) × Ledger W) : Prop :=
  report.reply = e.1 ∧ (invokedIn report.log).map Job.entry = e.2.1 ∧ report.bench.Agrees e.2.2

namespace Bench

namespace History

variable {limit : Nat} {b : Bench W} {demands : List (Demand W)} {reports : List (Report W)}

theorem rests (h : History limit b demands reports) (hrests : b.Rests) :
    ∀ report ∈ reports, report.bench.Rests := by
  induction h with
  | nil => simp
  | cons hp _ ih => exact List.forall_mem_cons.2 ⟨hp.rests hrests, ih (hp.rests hrests)⟩

theorem cache_eq_none (h : History limit b demands reports) (hcache : b.cache = none) :
    ∀ report ∈ reports, report.bench.cache = none := by
  induction h with
  | nil => simp
  | cons hp _ ih =>
      exact List.forall_mem_cons.2 ⟨hp.cache_eq_none hcache, ih (hp.cache_eq_none hcache)⟩

/-- Whatever is demanded, one demand after the other, is done as the ledger does it. -/
theorem matches_ledger (h : History limit b demands reports) (hrests : b.Rests)
    (hcache : b.cache = none) : List.Forall₂ Report.Matches reports (b.ledger.history demands) := by
  induction h with
  | nil => exact .nil
  | cons hp _ ih =>
      have heq := hp.ledger_eq hrests hcache
      rw [Ledger.history, ← heq]
      exact .cons ⟨rfl, rfl, (hp.rests hrests).agrees⟩
        (ih (hp.rests hrests) (hp.cache_eq_none hcache))

/-- A resolution stays until its key is forgotten. -/
theorem resolution?_eq (h : History limit b demands reports) (hrests : b.Rests) {key : CallKey}
    (hkept : ∀ keys, Demand.forget keys ∈ demands → key ∉ keys) {x : Resolution}
    (hx : b.scheduler.resolution? key = some x) :
    ∀ report ∈ reports, report.bench.scheduler.resolution? key = some x := by
  induction h with
  | nil => simp
  | cons hp _ ih =>
      have hnext := hp.resolution?_eq hrests (fun keys heq => hkept keys (heq ▸ .head _)) hx
      exact List.forall_mem_cons.2
        ⟨hnext, ih (hp.rests hrests) (fun keys hmem => hkept keys (.tail _ hmem)) hnext⟩

end History

/-- Any sequence of demands can be performed. -/
theorem exists_history (limit : Nat) {b : Bench W} (h : b.Rests) (demands : List (Demand W)) :
    ∃ reports, History limit b demands reports := by
  induction demands generalizing b with
  | nil => exact ⟨[], .nil b⟩
  | cons demand demands ih =>
      obtain ⟨report, hp⟩ := exists_performs limit h demand
      obtain ⟨reports, hrest⟩ := ih (hp.rests h)
      exact ⟨_, .cons hp hrest⟩

/-! ## Single requests -/

/-- What registering, forgetting and running do to single requests. -/
structure Orderly (limit : Nat) (b : Bench W) : Prop where
  /-- Asking again for what is there changes nothing. -/
  asked_again : ∀ key ∈ b.scheduler.order, ∀ query captures,
    b.scheduler.register key query captures = b.scheduler
  /-- A round invokes the queries of what waits, in the order of registration. It says how many
  that were, and nothing is pending afterwards. -/
  round : ∀ log n b', b.Round limit log n b' →
    invokedIn log = ((b.scheduler.order.filterMap b.scheduler.request?).filter
      (·.state = .waiting)).map Scheduler.jobOf ∧
    n = (invokedIn log).length ∧ b'.scheduler.hasPending = false
  /-- A resolution stays until its key is forgotten. -/
  stays : ∀ demands reports, History limit b demands reports → ∀ key x,
    b.scheduler.resolution? key = some x →
    (∀ keys, Demand.forget keys ∈ demands → key ∉ keys) →
    ∀ report ∈ reports, report.bench.scheduler.resolution? key = some x
  /-- The listed requests are forgotten, and all others are as they were. -/
  forgotten : ∀ keys,
    (b.scheduler.forget keys).1 = (b.scheduler.order.filter (keys.contains ·)).length ∧
    (b.scheduler.forget keys).2.order = b.scheduler.order.filter (!keys.contains ·) ∧
    ∀ key, (b.scheduler.forget keys).2.request? key =
      if key ∈ keys then none else b.scheduler.request? key
  /-- What was forgotten starts afresh when it is asked for again: it is the last in the order,
  waits without a resolution, and is invoked in the next round. -/
  afresh : ∀ keys, ∀ key ∈ keys, ∀ query captures,
    let s := (b.scheduler.forget keys).2.register key query captures
    s.order = (b.scheduler.forget keys).2.order ++ [key] ∧
    s.state? key = some .waiting ∧ s.resolution? key = none ∧
    ∀ log n b', Round limit { b with scheduler := s } log n b' →
      ⟨key, query, captures, none⟩ ∈ (invokedIn log).map Job.entry

theorem Rests.orderly {b : Bench W} (h : b.Rests) (hcache : b.cache = none) (limit : Nat) :
    b.Orderly limit where
  asked_again key hkey query captures := by
    rw [h.sound.order] at hkey
    obtain ⟨r, hr, rfl⟩ := List.mem_map.1 hkey
    exact Scheduler.register_of_request? (Scheduler.request?_of_mem h.sound.keys hr) query captures
  round log n b' hround := by
    refine ⟨?_, ?_, hround.not_hasPending h⟩
    · rw [hround.invoked_eq hcache, h.sound.takeWaiting_eq, h.sound.filterMap_request?]
    · rw [hround.invoked_eq hcache]
      exact congrArg Prod.fst (hround.result_eq h.sound)
  stays demands reports hhistory key x hx hkept := hhistory.resolution?_eq h hkept hx
  forgotten keys := by
    refine ⟨?_, ?_, fun key => ?_⟩
    · rw [count_forget, h.agrees.order, List.filter_map, List.length_map]
      rfl
    · rw [(h.forget keys).agrees.order, ledger_forget, h.agrees.order, List.filter_map]
      rfl
    · exact Scheduler.request?_forget b.scheduler keys key
  afresh keys key hkey query captures := by
    have hnone : (b.scheduler.forget keys).2.request? key = none := by
      rw [Scheduler.request?_forget, if_pos hkey]
    have hfound : ((b.scheduler.forget keys).2.register key query captures).request? key =
        some ⟨key, (b.scheduler.forget keys).2.nextTicket, query, captures, .waiting, none⟩ := by
      rw [Scheduler.request?_register, hnone, if_pos rfl, Option.none_or]
    refine ⟨?_, ?_, ?_, fun log n b' hround => ?_⟩
    · rw [Scheduler.register_of_none hnone]
    · rw [Scheduler.state?, hfound]
      rfl
    · rw [Scheduler.resolution?, hfound]
      rfl
    · have hrests := (h.forget keys).register key query captures
      rw [(hround.invoked_eq hcache : invokedIn log = _), ← hrests.waiting_ledger]
      exact List.mem_filter.2
        ⟨List.mem_map.2 ⟨_, Scheduler.mem_of_request? hfound, rfl⟩, rfl⟩

/-- **A scheduler without a cache refines a ledger of requests.** Every sequence of demands can
be performed, under every limit. However its rounds are scheduled, the replies, the queries that
are invoked, and everything that can be asked afterwards are those of the ledger, and on the way
registering, forgetting and running do to single requests what they are meant to. -/
theorem refines_ledger (limit : Nat) (world : W) (demands : List (Demand W)) :
    (∃ reports, History limit (fresh none world) demands reports) ∧
    ∀ reports, History limit (fresh none world) demands reports →
      List.Forall₂ Report.Matches reports (Ledger.history ⟨[], world⟩ demands) ∧
      ∀ b ∈ fresh none world :: reports.map (·.bench), b.Orderly limit := by
  have hfresh := rests_fresh none world
  refine ⟨exists_history limit hfresh demands, fun reports h => ?_⟩
  refine ⟨h.matches_ledger hfresh rfl, List.forall_mem_cons.2 ⟨hfresh.orderly rfl limit, ?_⟩⟩
  intro b hb
  obtain ⟨report, hreport, rfl⟩ := List.mem_map.1 hb
  exact (h.rests hfresh report hreport).orderly (h.cache_eq_none rfl report hreport) limit

/-- What was forgotten is run again when it is asked for again, and otherwise nothing is. -/
example :
    ((Ledger.history ⟨[], 0⟩
      [.ask ⟨⟨"a", 0⟩, "p"⟩ ⟨"q", [], none, "", fun _ n => (.cutOff, n + 1)⟩ [],
        .ask ⟨⟨"a", 0⟩, "p"⟩ ⟨"q", [], none, "", fun _ n => (.cutOff, n + 5)⟩ [], .run, .run,
        .forget [⟨⟨"a", 0⟩, "p"⟩, ⟨⟨"a", 0⟩, "p"⟩],
        .ask ⟨⟨"a", 0⟩, "p"⟩ ⟨"q", [], none, "", fun _ n => (.cutOff, n + 1)⟩ [], .run]).map
      fun e => (e.1, e.2.2.world)) =
      [(.key ⟨⟨"a", 0⟩, "p"⟩, 0), (.key ⟨⟨"a", 0⟩, "p"⟩, 0), (.count 1, 1), (.count 0, 1),
        (.count 1, 1), (.key ⟨⟨"a", 0⟩, "p"⟩, 1), (.count 1, 2)] := by
  decide

end Bench

end Guided
