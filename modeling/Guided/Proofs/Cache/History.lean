import Guided.Proofs.Cache.Storage

/-!
# A cache and its file over time

A ledger says what a cache with a file is for. It has what the file gave when the cache was
opened, what has been stored since then, and what was there when the file was last written. A
result is the last one stored under its key, or else the one found. Looking up computes what is
not there. Writing takes everything along, also what an earlier attempt has failed to write, and
opening the file again finds what was written last.

A cache with a file refines the ledger, whatever fails on the way. Its file holds a whole text at
any time: the one that was there in the beginning, or that of all results at the last time when
writing went through.

## Main definitions

* `CacheDemand`, `CacheReply`, `CacheOnDisk`: a cache, its file, and what is done with them.
* `CacheLedger`: what this comes to.
* `CacheOnDisk.Shows`: a cache and its file show what is in a ledger.

## Main statements

* `CacheOnDisk.Follows.perform`: every demand is answered as the ledger has it.
* `CacheOnDisk.run_eq_ledger`: so is every sequence of them.
-/
namespace Guided

/-! ## Demands -/

/-- What is done with a cache and its file. Between that, writing begins to fail or goes well
again. -/
inductive CacheDemand where
  | lookup (key : CacheKey) (outcome : Except Error Value)
  | insert (key : CacheKey) (v : Value)
  | persist
  | reopen
  | strike (fault : Option DiskFault)

/-- The value that comes with a demand. -/
def CacheDemand.value? : CacheDemand → Option Value
  | .lookup _ outcome => outcome.toOption
  | .insert _ v => some v
  | .persist | .reopen | .strike _ => none

/-- What a demand is answered with: a result, and whether it was computed, or how writing went. -/
inductive CacheReply where
  | result (answer : Except Error Value) (computed : Bool)
  | written (answer : Except Error Unit)
  | done

/-- A cache and the folder with its file. -/
structure CacheOnDisk where
  cache : PersistentCache
  disk : Disk

namespace CacheOnDisk

/-- A file is opened. -/
def opened (path : String) (disk : Disk) : CacheOnDisk := ⟨.ofDisk disk path, disk⟩

/-- Do what is demanded. -/
def perform (path : String) (s : CacheOnDisk) : CacheDemand → CacheReply × CacheOnDisk
  | .lookup key outcome =>
      let ((answer, computed), cache, disk) := s.cache.lookupOrCompute s.disk key fun _ => outcome
      (.result answer computed, ⟨cache, disk⟩)
  | .insert key v =>
      let (answer, cache, disk) := s.cache.insert s.disk key v
      (.written answer, ⟨cache, disk⟩)
  | .persist =>
      let (answer, disk) := s.cache.persist s.disk
      (.written answer, { s with disk })
  | .reopen => (.done, opened path s.disk)
  | .strike fault => (.done, { s with disk := { s.disk with fault } })

/-- Do what is demanded, one demand after the other. -/
def run (path : String) (s : CacheOnDisk) : List CacheDemand → List CacheReply × CacheOnDisk
  | [] => ([], s)
  | demand :: demands =>
      let (reply, s) := s.perform path demand
      let (replies, s) := s.run path demands
      (reply :: replies, s)

end CacheOnDisk

/-! ## The ledger -/

/-- Results by their keys. -/
abbrev Results := CacheKey → Option Value

/-- What the original file gives and what was found when the cache was opened; what has been
stored since, the latest first, and how often results were asked for and were there; all results
when the file was last written, if it ever was; and how writing fails at present. -/
structure CacheLedger where
  original : Results
  found : Results
  stored : List (CacheKey × Value)
  lookups : Nat
  hits : Nat
  saved : Option Results
  fault : Option DiskFault

namespace CacheLedger

/-- The result under a key: the last one stored, or else the one found. -/
def value? (l : CacheLedger) (key : CacheKey) : Option Value :=
  (l.stored.lookup key).or (l.found key)

/-- The results that the file holds. -/
def held (l : CacheLedger) : Results := l.saved.getD l.original

/-- Store a result. -/
def store (l : CacheLedger) (key : CacheKey) (v : Value) : CacheLedger :=
  { l with stored := (key, v) :: l.stored }

/-- How writing goes. -/
def written (l : CacheLedger) : Except Error Unit :=
  if l.fault.isSome then .error .io else .ok ()

/-- Write all results, if that goes well. -/
def save (l : CacheLedger) : CacheLedger :=
  if l.fault.isSome then l else { l with saved := some l.value? }

/-- Do what is demanded. -/
def perform (l : CacheLedger) : CacheDemand → CacheReply × CacheLedger
  | .lookup key outcome =>
      match l.value? key, outcome with
      | some v, _ => (.result (.ok v) false, { l with lookups := l.lookups + 1, hits := l.hits + 1 })
      | none, .error e => (.result (.error e) true, { l with lookups := l.lookups + 1 })
      | none, .ok v =>
          (.result (.ok v) true, ({ l with lookups := l.lookups + 1 }.store key v).save)
  | .insert key v => (.written l.written, (l.store key v).save)
  | .persist => (.written l.written, l.save)
  | .reopen => (.done, { l with found := l.held, stored := [], lookups := 0, hits := 0 })
  | .strike fault => (.done, { l with fault })

/-- Do what is demanded, one demand after the other. -/
def run (l : CacheLedger) : List CacheDemand → List CacheReply × CacheLedger
  | [] => ([], l)
  | demand :: demands =>
      let (reply, l) := l.perform demand
      let (replies, l) := l.run demands
      (reply :: replies, l)

/-- The ledger of a file that is opened. -/
def opened (path : String) (disk : Disk) : CacheLedger :=
  let found : Results := (PersistentCache.ofDisk disk path).results.get?
  ⟨found, found, [], 0, 0, none, disk.fault⟩

theorem value?_store (l : CacheLedger) (key : CacheKey) (v : Value) (other : CacheKey) :
    (l.store key v).value? other = if other = key then some v else l.value? other := by
  by_cases h : other = key
  · simp [value?, store, h]
  · have hne : (other == key) = false := by simpa using h
    simp [value?, store, List.lookup_cons, h, hne]

end CacheLedger

/-! ## What a cache and its file show -/

namespace CacheOnDisk

variable {path : String} {original : Option String} {s : CacheOnDisk} {l : CacheLedger}

/-- A cache and its file show what is in a ledger. -/
structure Shows (path : String) (original : Option String) (s : CacheOnDisk) (l : CacheLedger) :
    Prop where
  /-- The cache has the last results stored, or else those found, and nothing more. -/
  entries : ∀ key, s.cache.results.get? key = l.value? key
  total : s.cache.results.total = l.lookups
  hits : s.cache.results.hits = l.hits
  /-- The file is the original one until it is written for the first time. -/
  untouched : l.saved = none → s.disk.files path = original
  /-- From then on it is the text of what was saved last, as a whole. -/
  saved : ∀ results, l.saved = some results → ∃ entries : Fields Value,
    Fields.Sorted entries ∧ (∀ key : CacheKey, entries.find? key.text = results key) ∧
      s.disk.files path = some (StoredCache.write entries)
  /-- Opening the file finds what it holds. -/
  opens : ∀ key, (opened path s.disk).cache.results.get? key = l.held key
  /-- If writing goes through, opening the file finds exactly the results of the cache. -/
  persists : (s.cache.persist s.disk).1 = .ok () →
    (opened path (s.cache.persist s.disk).2).cache.results.entries = s.cache.results.entries

/-- What holds between demands: the ledger is followed, and values that are there can be read back
from a file. -/
structure Follows (path : String) (original : Option String) (s : CacheOnDisk) (l : CacheLedger) :
    Prop where
  backed : s.cache.path = some path
  sorted : Fields.Sorted s.cache.results.entries
  kept : ∀ e ∈ s.cache.results.entries, StoredCache.Kept e.2
  entries : ∀ key, s.cache.results.get? key = l.value? key
  total : s.cache.results.total = l.lookups
  hits : s.cache.results.hits = l.hits
  fault : s.disk.fault = l.fault
  untouched : l.saved = none → s.disk.files path = original
  originalKept : ∀ e ∈ ((original.bind StoredCache.load?).getD [] : Fields Value),
    StoredCache.Kept e.2
  originalFound : ∀ key : CacheKey,
    ((original.bind StoredCache.load?).getD [] : Fields Value).find? key.text = l.original key
  saved : ∀ results, l.saved = some results → ∃ entries : Fields Value,
    Fields.Sorted entries ∧ (∀ e ∈ entries, StoredCache.Kept e.2) ∧
      (∀ key : CacheKey, entries.find? key.text = results key) ∧
      s.disk.files path = some (StoredCache.write entries)

theorem follows_opened (disk : Disk)
    (hkept : ∀ e ∈ (opened path disk).cache.results.entries, StoredCache.Kept e.2) :
    Follows path (disk.files path) (opened path disk) (CacheLedger.opened path disk) where
  backed := rfl
  sorted := PersistentCache.sorted_ofDisk disk path
  kept := hkept
  entries _ := rfl
  total := rfl
  hits := rfl
  fault := rfl
  untouched _ := rfl
  originalKept := hkept
  originalFound _ := rfl
  saved := by simp [CacheLedger.opened]

namespace Follows

/-- Opening the file finds what it holds, and only what can be written again. -/
theorem opened (h : Follows path original s l) :
    (∀ key, (opened path s.disk).cache.results.get? key = l.held key) ∧
      ∀ e ∈ (CacheOnDisk.opened path s.disk).cache.results.entries, StoredCache.Kept e.2 := by
  have hload : (CacheOnDisk.opened path s.disk).cache.results.entries =
      ((s.disk.files path).bind StoredCache.load?).getD [] := rfl
  have hget : ∀ key : CacheKey, (CacheOnDisk.opened path s.disk).cache.results.get? key =
      Fields.find? (((s.disk.files path).bind StoredCache.load?).getD []) key.text := fun _ => rfl
  simp only [hload, hget, CacheLedger.held]
  cases hsaved : l.saved with
  | none =>
      rw [h.untouched hsaved]
      exact ⟨h.originalFound, h.originalKept⟩
  | some results =>
      obtain ⟨entries, hsorted, hkept, hfind, hfile⟩ := h.saved results hsaved
      rw [hfile, Option.bind_some, StoredCache.load?_write hsorted hkept]
      exact ⟨hfind, hkept⟩

/-- Nothing but the counts has changed. -/
theorem count (h : Follows path original s l) (lookups hits : Nat) :
    Follows path original
      { s with cache.results.total := lookups, cache.results.hits := hits }
      { l with lookups, hits } :=
  { h with total := rfl, hits := rfl }

/-- A result is stored in memory. -/
theorem store (h : Follows path original s l) (key : CacheKey) {v : Value}
    (hv : StoredCache.Kept v) :
    Follows path original { s with cache.results := s.cache.results.insert key v }
      (l.store key v) where
  backed := h.backed
  sorted := h.sorted.insert key.text v
  kept e he := by
    rcases Fields.mem_insert he with rfl | hmem
    · exact hv
    · exact h.kept e hmem
  entries other := by
    rw [CacheLedger.value?_store, ← h.entries]
    by_cases hother : other = key
    · rw [if_pos hother, hother, ResultCache.get?_insert_self]
    · rw [if_neg hother, ResultCache.get?_insert_of_ne _ hother]
  total := h.total
  hits := h.hits
  fault := h.fault
  untouched := h.untouched
  originalKept := h.originalKept
  originalFound := h.originalFound
  saved := h.saved

/-- All results are written, or nothing has changed. -/
theorem persist (h : Follows path original s l) (hpath : FileName.extension? path ≠ some "tmp") :
    (s.cache.persist s.disk).1 = l.written ∧
      Follows path original { s with disk := (s.cache.persist s.disk).2 } l.save := by
  rcases PersistentCache.persist_cases h.backed hpath s.disk with
    ⟨hwell, disk', heq, hfault, hfile⟩ | ⟨hfails, disk', heq, hfault, hfile⟩
  · have hsaved : l.save = { l with saved := some l.value? } := by
      simp [CacheLedger.save, ← h.fault, hwell]
    rw [heq, hsaved]
    refine ⟨by simp [CacheLedger.written, ← h.fault, hwell], ?_⟩
    exact { h with
      fault := by rw [hfault, ← h.fault, hwell]
      untouched := by simp
      saved := by
        rintro results hresults
        obtain rfl := Option.some.inj hresults
        exact ⟨s.cache.results.entries, h.sorted, h.kept, h.entries, hfile⟩ }
  · obtain ⟨fault, hsome⟩ := Option.ne_none_iff_exists'.1 hfails
    have hstays : l.save = l := by simp [CacheLedger.save, ← h.fault, hsome]
    rw [heq, hstays]
    refine ⟨by simp [CacheLedger.written, ← h.fault, hsome], ?_⟩
    exact { h with
      fault := hfault.trans h.fault
      untouched := fun hsaved => hfile.trans (h.untouched hsaved)
      saved := fun results hresults => by
        obtain ⟨entries, hsorted, hkept, hfind, hwritten⟩ := h.saved results hresults
        exact ⟨entries, hsorted, hkept, hfind, hfile.trans hwritten⟩ }

/-- A result is stored, and all results are written, or the file has not changed. -/
theorem insert (h : Follows path original s l) (hpath : FileName.extension? path ≠ some "tmp")
    (key : CacheKey) {v : Value} (hv : StoredCache.Kept v) :
    (s.cache.insert s.disk key v).1 = (l.store key v).written ∧
      Follows path original
        ⟨(s.cache.insert s.disk key v).2.1, (s.cache.insert s.disk key v).2.2⟩
        (l.store key v).save :=
  (h.store key hv).persist hpath

/-- What is followed is shown. -/
theorem shows (h : Follows path original s l) (hpath : FileName.extension? path ≠ some "tmp") :
    s.Shows path original l where
  entries := h.entries
  total := h.total
  hits := h.hits
  untouched := h.untouched
  saved results hresults := by
    obtain ⟨entries, hsorted, -, hfind, hfile⟩ := h.saved results hresults
    exact ⟨entries, hsorted, hfind, hfile⟩
  opens := h.opened.1
  persists hwritten := by
    rcases PersistentCache.persist_cases h.backed hpath s.disk with
      ⟨-, disk', heq, -, hfile⟩ | ⟨-, disk', heq, -, -⟩
    · have hload : (CacheOnDisk.opened path disk').cache.results.entries =
          ((disk'.files path).bind StoredCache.load?).getD [] := rfl
      rw [heq, hload, hfile, Option.bind_some, StoredCache.load?_write h.sorted h.kept]
      rfl
    · simp [heq] at hwritten

/-- **One demand.** It is answered as the ledger has it, and the ledger is followed on. -/
theorem perform (h : Follows path original s l) (hpath : FileName.extension? path ≠ some "tmp")
    (demand : CacheDemand) (hkept : ∀ v, demand.value? = some v → StoredCache.Kept v) :
    (s.perform path demand).1 = (l.perform demand).1 ∧
      Follows path original (s.perform path demand).2 (l.perform demand).2 := by
  cases demand with
  | lookup key outcome =>
      cases hkey : l.value? key with
      | some v =>
          have hfound : s.cache.results.lookup key = (some v, { s.cache.results with
              total := s.cache.results.total + 1, hits := s.cache.results.hits + 1 }) := by
            rw [ResultCache.lookup, h.entries, hkey]
          simp only [CacheOnDisk.perform, CacheLedger.perform, PersistentCache.lookupOrCompute,
            hfound, hkey, h.total, h.hits, true_and]
          exact h.count _ _
      | none =>
          have hmissed : s.cache.results.lookup key = (none, { s.cache.results with
              total := s.cache.results.total + 1 }) := by
            rw [ResultCache.lookup, h.entries, hkey]
          have hcounted := h.count (l.lookups + 1) l.hits
          cases outcome with
          | error e =>
              simp only [CacheOnDisk.perform, CacheLedger.perform, PersistentCache.lookupOrCompute,
                hmissed, hkey, h.total, true_and]
              simpa only [h.hits] using hcounted
          | ok v =>
              have hstored := hcounted.insert hpath key (hkept v rfl)
              simp only [CacheOnDisk.perform, CacheLedger.perform, PersistentCache.lookupOrCompute,
                hmissed, hkey, h.total, true_and]
              simpa only [h.hits] using hstored.2
  | insert key v =>
      have hstored := h.insert hpath key (hkept v rfl)
      exact ⟨congrArg CacheReply.written hstored.1, hstored.2⟩
  | persist =>
      have hwritten := h.persist hpath
      exact ⟨congrArg CacheReply.written hwritten.1, hwritten.2⟩
  | reopen =>
      obtain ⟨hfinds, hkepts⟩ := h.opened
      exact ⟨rfl, { h with
        backed := rfl
        sorted := PersistentCache.sorted_ofDisk s.disk path
        kept := hkepts
        entries := hfinds
        total := rfl
        hits := rfl }⟩
  | strike fault => exact ⟨rfl, { h with fault := rfl }⟩

/-- Any number of demands. -/
theorem run (h : Follows path original s l) (hpath : FileName.extension? path ≠ some "tmp")
    (demands : List CacheDemand)
    (hkept : ∀ demand ∈ demands, ∀ v, demand.value? = some v → StoredCache.Kept v) :
    (s.run path demands).1 = (l.run demands).1 ∧
      Follows path original (s.run path demands).2 (l.run demands).2 := by
  induction demands generalizing s l with
  | nil => exact ⟨rfl, h⟩
  | cons demand demands ih =>
      rw [List.forall_mem_cons] at hkept
      obtain ⟨hreply, hnext⟩ := h.perform hpath demand hkept.1
      obtain ⟨hreplies, hlast⟩ := ih hnext hkept.2
      exact ⟨congrArg₂ List.cons hreply hreplies, hlast⟩

end Follows

/-- **A cache with a file refines its ledger.** Whatever is demanded, and whatever fails between,
the answers are those of the ledger: a result is computed if and only if none was stored under its
key since the cache was opened and none was found then, and the answer is the one stored last, or
else the one found. In the end, the cache and its file show what is in the ledger. -/
theorem run_eq_ledger {path : String} (hpath : FileName.extension? path ≠ some "tmp") (disk : Disk)
    (hfound : ∀ e ∈ (opened path disk).cache.results.entries, StoredCache.Kept e.2)
    (demands : List CacheDemand)
    (hkept : ∀ demand ∈ demands, ∀ v, demand.value? = some v → StoredCache.Kept v) :
    ((opened path disk).run path demands).1 = ((CacheLedger.opened path disk).run demands).1 ∧
      ((opened path disk).run path demands).2.Shows path (disk.files path)
        ((CacheLedger.opened path disk).run demands).2 :=
  have h := (follows_opened disk hfound).run hpath demands hkept
  ⟨h.1, h.2.shows hpath⟩

/-- A file that is no cache, a key with a zero character in it, a failing computation, a file that
breaks off, one that cannot be moved, and writing that goes well in the end: the file is as it was
until then, and both results are found when it is opened again. -/
theorem run_eq_ledger_broken :
    let disk : Disk := ⟨fun name => if name = "a.json" then some "not json" else none, none⟩
    let one : CacheKey := ⟨"query\x00[1]"⟩
    let two : CacheKey := ⟨"query"⟩
    let failing : List CacheDemand :=
      [.lookup one (.error .io), .strike (some (.cut 3)), .lookup one (.ok (.number (.integer 1))),
        .strike (some .stuck), .insert two (.string "two"), .lookup one (.error .io)]
    let demands : List CacheDemand := failing ++
      [.strike none, .persist, .reopen, .lookup one (.error .io), .lookup two (.error .io)]
    ((opened "a.json" disk).run "a.json" demands).1 =
        [.result (.error .io) true, .done, .result (.ok (.number (.integer 1))) true,
          .done, .written (.error .io), .result (.ok (.number (.integer 1))) false,
          .done, .written (.ok ()), .done, .result (.ok (.number (.integer 1))) false,
          .result (.ok (.string "two")) false] ∧
      ((opened "a.json" disk).run "a.json" failing).2.disk.files "a.json" = some "not json" ∧
      ((opened "a.json" disk).run "a.json" demands).2.cache.results.total = 2 := by
  intro disk one two failing demands
  have hpath : FileName.extension? "a.json" ≠ some "tmp" := by decide +kernel
  have hload : StoredCache.load? "not json" = none := by decide +kernel
  have hempty : (opened "a.json" disk).cache.results.entries = [] := by
    change ((some "not json").bind StoredCache.load?).getD [] = []
    rw [Option.bind_some, hload, Option.getD_none]
  have hfound : ∀ e ∈ (opened "a.json" disk).cache.results.entries, StoredCache.Kept e.2 := by
    simp [hempty]
  have hkept : ∀ demand ∈ demands, ∀ v, demand.value? = some v → StoredCache.Kept v := by
    have hone : StoredCache.Kept (.number (.integer 1)) :=
      StoredCache.kept_of_readable ⟨by decide, by decide⟩
    have htwo : StoredCache.Kept (.string "two") := StoredCache.kept_of_readable trivial
    simp [demands, failing, CacheDemand.value?, hone, htwo, Except.toOption]
  have hledger : CacheLedger.opened "a.json" disk =
      ⟨fun _ => none, fun _ => none, [], 0, 0, none, none⟩ := by
    have hnothing : (PersistentCache.ofDisk disk "a.json").results.get? = fun _ => none := by
      funext key
      change (opened "a.json" disk).cache.results.entries.find? key.text = none
      rw [hempty, Fields.find?_nil]
    rw [CacheLedger.opened, hnothing]
  have hfirst := run_eq_ledger hpath disk hfound failing fun demand h =>
    hkept demand (List.mem_append_left _ h)
  obtain ⟨hreplies, hshows⟩ := run_eq_ledger hpath disk hfound demands hkept
  rw [hledger] at hfirst hreplies hshows
  exact ⟨hreplies, hfirst.2.untouched rfl, hshows.total⟩

end CacheOnDisk

end Guided
