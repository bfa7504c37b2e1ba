import Guided.Cache.Results
import Guided.Query.Basic
import Guided.Request.Promise

/-!
# Nested runs and their requests

A scheduler keeps the requests for nested runs by their keys, and a list of the keys in the
order they were registered. Asking twice for the same run registers one request. Running
has three separate steps: all waiting requests are taken, every job resolves the promise of
the request it was taken from, and the requests are closed. Requests may be registered and
forgotten between these steps; a promise belongs to the request whose ticket it carries,
not to its key.

## Main definitions

* `Request`, `Job`, `Scheduler`.
* `Scheduler.register`, `forget`, `takeWaiting`, `resolve`, `close`: the single steps.
* `Job.begin`, `Bench.begin`, `Bench.finish`: how a job starts and ends.
* `Bench.runPending`: all steps of one round, in a world with an optional cache.
-/
namespace Guided

/-- The stage of a request. -/
inductive RequestState where
  | waiting
  | running
  | finished
deriving DecidableEq, Repr

/-- A request for a nested run. Its ticket tells it apart from all other requests, also
from earlier ones with the same key. -/
structure Request (W : Type) where
  key : CallKey
  ticket : Nat
  query : Query W
  captures : Fields Value
  state : RequestState
  promise : Promise

/-- What running a request takes: the ticket says which promise it resolves. -/
structure Job (W : Type) where
  key : CallKey
  ticket : Nat
  query : Query W
  captures : Fields Value

/-- The keys of all requests in the order of their registration, the requests, and the next
ticket. -/
structure Scheduler (W : Type) where
  order : List CallKey
  requests : List (Request W)
  nextTicket : Nat

/-- The reason given for a run that was cut off. -/
def cutOffReason : String := "nested query task aborted"

namespace Scheduler

variable {W : Type}

/-- A scheduler without requests. -/
def empty : Scheduler W := ⟨[], [], 0⟩

/-- The request with a given key. -/
def request? (s : Scheduler W) (key : CallKey) : Option (Request W) :=
  s.requests.find? (·.key == key)

/-- The resolution of a request, once it has been reached. -/
def resolution? (s : Scheduler W) (key : CallKey) : Option Resolution :=
  (s.request? key).bind (·.promise)

/-- The stage of a request. -/
def state? (s : Scheduler W) (key : CallKey) : Option RequestState :=
  (s.request? key).map (·.state)

/-- All resolutions that have been reached, in order. -/
def resolutions (s : Scheduler W) : List (CallKey × Resolution) :=
  s.order.filterMap fun key => (s.resolution? key).map (key, ·)

/-- Whether any request has not been resolved. -/
def hasPending (s : Scheduler W) : Bool := s.requests.any (·.promise.isNone)

/-- Ask for a run. A request that is already there stays as it is. -/
def register (s : Scheduler W) (key : CallKey) (query : Query W) (captures : Fields Value) :
    Scheduler W :=
  if s.requests.any (·.key == key) then s
  else
    ⟨s.order ++ [key], s.requests ++ [⟨key, s.nextTicket, query, captures, .waiting, none⟩],
      s.nextTicket + 1⟩

/-- Drop the requests with the given keys, and the keys that have no request any more. -/
def drop (s : Scheduler W) (keys : List CallKey) : Scheduler W :=
  let requests := s.requests.filter fun r => !keys.contains r.key
  { s with requests, order := s.order.filter fun key => requests.any (·.key == key) }

/-- Drop the requests with the given keys, and say how many there were. -/
def forget (s : Scheduler W) (keys : List CallKey) : Nat × Scheduler W :=
  let rest := s.drop keys
  (s.requests.length - rest.requests.length, rest)

/-- The job of a request. -/
def jobOf (r : Request W) : Job W := ⟨r.key, r.ticket, r.query, r.captures⟩

/-- The request with a given key becomes a running one. -/
def start (s : Scheduler W) (key : CallKey) : Scheduler W :=
  { s with
    requests := s.requests.map fun r => if r.key = key then { r with state := .running } else r }

/-- Take the waiting requests with the given keys, key by key. -/
def takeEach (s : Scheduler W) : List CallKey → List (Job W) × Scheduler W
  | [] => ([], s)
  | key :: rest =>
      match s.request? key with
      | none => s.takeEach rest
      | some r =>
          if r.state = .waiting then
            let (jobs, s) := (s.start key).takeEach rest
            (jobOf r :: jobs, s)
          else s.takeEach rest

/-- Take all waiting requests, in their order. -/
def takeWaiting (s : Scheduler W) : List (Job W) × Scheduler W := s.takeEach s.order

/-- Resolve the promise with the given ticket. If its request has been forgotten, nobody
can see the promise any more. A second resolution is passed over. -/
def resolve (s : Scheduler W) (ticket : Nat) (resolution : Resolution) : Scheduler W :=
  { s with
    requests := s.requests.map fun r =>
      if r.ticket = ticket then { r with promise := r.promise.resolveOnce resolution } else r }

/-- A request whose job is over; without a resolution the job was cut off. -/
def closed (r : Request W) : Request W :=
  { r with state := .finished, promise := r.promise.resolveOnce (.failed cutOffReason) }

/-- Close the requests with the given keys, and say how many there are. -/
def close (s : Scheduler W) (keys : List CallKey) : Nat × Scheduler W :=
  ((s.requests.filter fun r => keys.contains r.key).length,
    { s with requests := s.requests.map fun r => if keys.contains r.key then closed r else r })

end Scheduler

/-- The key under which a job's result is cached. -/
def Job.cacheKey {W : Type} (job : Job W) : CacheKey :=
  CacheKey.ofArgs job.query.source (.object job.captures)

/-- How an invocation resolves a promise; one that is cut off does not. -/
def Outcome.resolution? : Outcome → Option Resolution
  | .output o => some (.ready o.result)
  | .failed e => some (.failed e.message)
  | .cutOff => none

/-- What a job that has been started is about to answer: a result that was cached, or the
outcome of its query. -/
inductive Work where
  | found (v : Value)
  | invoked (outcome : Outcome)

/-- How a job resolves its promise, if it does. -/
def Work.resolution? : Work → Option Resolution
  | .found v => some (.ready v)
  | .invoked outcome => outcome.resolution?

/-- What a job leaves for the cache. -/
def Work.toStore? : Work → Option Value
  | .invoked (.output o) => some o.result
  | _ => none

/-- Start a job: take the result from the cache if it is there, otherwise invoke the query. -/
def Job.begin {W : Type} (job : Job W) (cache : Option ResultCache) (world : W) :
    Work × Option ResultCache × W :=
  match cache.map fun cache => cache.lookup job.cacheKey with
  | some (some v, cache) => (.found v, some cache, world)
  | looked =>
      let (outcome, world) := job.query.invoke job.captures world
      (.invoked outcome, looked.map (·.2), world)

/-- Everything nested runs are worked on with: the requests, the cache if there is one,
the world of the queries, and how many further rounds do nothing because the work is in
other hands. -/
structure Bench (W : Type) where
  scheduler : Scheduler W
  cache : Option ResultCache
  world : W
  idle : Nat

namespace Bench

variable {W : Type}

/-- Start a job. -/
def begin (b : Bench W) (job : Job W) : Work × Bench W :=
  let (work, cache, world) := job.begin b.cache b.world
  (work, { b with cache, world })

/-- A job ends: its result is kept in the cache, and its promise is resolved. -/
def finish (b : Bench W) (job : Job W) (work : Work) : Bench W :=
  { b with
    cache := match work.toStore? with
      | some v => b.cache.map (·.insert job.cacheKey v)
      | none => b.cache
    scheduler := match work.resolution? with
      | some r => b.scheduler.resolve job.ticket r
      | none => b.scheduler }

/-- Run one job. -/
def runJob (b : Bench W) (job : Job W) : Bench W :=
  let (work, b) := b.begin job
  b.finish job work

/-- One round: take what waits, run it job by job, and close it. The number of closed
requests is part of the answer. -/
def runPending (b : Bench W) : Nat × Bench W :=
  match b.idle with
  | idle + 1 => (0, { b with idle })
  | 0 =>
      let (jobs, scheduler) := b.scheduler.takeWaiting
      let b := jobs.foldl runJob { b with scheduler }
      let (count, scheduler) := b.scheduler.close (jobs.map (·.key))
      (count, { b with scheduler })

end Bench

end Guided
