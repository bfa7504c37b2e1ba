import Guided.Engine.Settle
import Guided.Proofs.Constraint.Asking

/-!
# What settling does

A round of settling works on nested runs and publishes, of the runs that a constraint asks
for, those that are ready. So settling adds results to a state and changes nothing else in
it, every result added is the one that the scheduler has in the end, and no result is
published twice. It takes no more rounds than it may.

## Main definitions

* `ProgramState.Gains`: results of a scheduler have been added to a state.
* `Constraint.Settles`: what is known of the end of settling.

## Main statements

* `publishReady_spec`, `publishReady_of_waiting`: what is published.
* `Constraint.settles_settleWithin`: settling settles.
-/
namespace Guided

variable {W : Type}

/-! ## Publishing -/

/-- The error is that a result has been published before. -/
def Error.PublishesTwice (err : Error) : Prop := ∃ key, err = .request (.alreadyPublished key)

theorem Error.AtLimit.not_publishesTwice {err : Error} (h : err.AtLimit) :
    ¬ err.PublishesTwice := by
  obtain ⟨limit, rfl⟩ := h
  simp [Error.PublishesTwice]

namespace ResultTable

variable {t : ResultTable} {key : CallKey}

theorem get?_append (t added : ResultTable) (key : CallKey) :
    get? (t ++ added) key = (t.get? key).or (get? added key) :=
  List.lookup_append

theorem contains_iff : t.contains key = true ↔ ∃ v, (key, v) ∈ t := by
  simp [contains, get?]

theorem mem_of_get? {v : Value} (h : t.get? key = some v) : (key, v) ∈ t := by
  obtain ⟨before, after, rfl, -⟩ := List.lookup_eq_some_iff.1 h
  simp

end ResultTable

theorem ProgramState.withResult_of_not_contains {s : ProgramState} {key : CallKey}
    (h : s.results.contains key = false) (v : Value) :
    s.withResult key v = .ok { s with results := s.results ++ [(key, v)] } := by
  rw [withResult, ResultTable.publish, h]
  rfl

/-- Results of some runs have been added to a state, those that a scheduler has for them. -/
def ProgramState.Gains (s t : ProgramState) (keys : List CallKey) (scheduler : Scheduler W) :
    Prop :=
  ∃ added : ResultTable, t = { s with results := s.results ++ added } ∧
    ∀ entry ∈ added, entry.1 ∈ keys ∧ scheduler.resolution? entry.1 = some (.ready entry.2)

namespace ProgramState.Gains

variable {s t u : ProgramState} {keys : List CallKey} {scheduler scheduler' : Scheduler W}

theorem refl (s : ProgramState) (keys : List CallKey) (scheduler : Scheduler W) :
    s.Gains s keys scheduler :=
  ⟨[], by simp, by simp⟩

theorem trans (h : s.Gains t keys scheduler) (h' : t.Gains u keys scheduler) :
    s.Gains u keys scheduler := by
  obtain ⟨added, rfl, hadded⟩ := h
  obtain ⟨more, rfl, hmore⟩ := h'
  refine ⟨added ++ more, by simp, fun entry hentry => ?_⟩
  exact (List.mem_append.1 hentry).elim (hadded entry) (hmore entry)

/-- Resolutions stay, so that what has been added is still what the scheduler has. -/
theorem of_keeps (h : s.Gains t keys scheduler) (hkeeps : scheduler.Keeps scheduler') :
    s.Gains t keys scheduler' := by
  obtain ⟨added, rfl, hadded⟩ := h
  refine ⟨added, rfl, fun entry hentry => ?_⟩
  exact ⟨(hadded entry hentry).1, hkeeps _ _ (hadded entry hentry).2⟩

theorem prompt_eq (h : s.Gains t keys scheduler) : t.prompt = s.prompt := by
  obtain ⟨added, rfl, -⟩ := h
  rfl

theorem vars_eq (h : s.Gains t keys scheduler) : t.vars = s.vars := by
  obtain ⟨added, rfl, -⟩ := h
  rfl

end ProgramState.Gains

section Publishing

variable {scheduler : Scheduler W} {keys : List CallKey} {p q : Publication}

/-- What is published: results that are ready, as many as are counted, and in the end every
run with a resolution has its result published. -/
theorem publishReady_spec (h : publishReady scheduler keys p = .ok q) :
    ∃ added : ResultTable,
      q.state = { p.state with results := p.state.results ++ added } ∧
      q.published = p.published + added.length ∧
      (∀ entry ∈ added, entry.1 ∈ keys ∧
        scheduler.resolution? entry.1 = some (.ready entry.2)) ∧
      ∀ key ∈ keys, (scheduler.resolution? key).isSome → q.state.results.contains key := by
  induction keys generalizing p with
  | nil =>
      obtain rfl : p = q := by simpa [publishReady] using h
      exact ⟨[], by simp, by simp, by simp, by simp⟩
  | cons key keys ih =>
      have hwiden : ∀ added : ResultTable,
          (∀ entry ∈ added, entry.1 ∈ keys ∧
            scheduler.resolution? entry.1 = some (.ready entry.2)) →
          ∀ entry ∈ added, entry.1 ∈ key :: keys ∧
            scheduler.resolution? entry.1 = some (.ready entry.2) :=
        fun added hadded entry hentry => ⟨.tail _ (hadded entry hentry).1, (hadded entry hentry).2⟩
      rw [publishReady] at h
      split at h
      · rename_i hcontains
        obtain ⟨added, hstate, hcount, hadded, hall⟩ := ih h
        refine ⟨added, hstate, hcount, hwiden added hadded,
          List.forall_mem_cons.2 ⟨fun _ => ?_, hall⟩⟩
        obtain ⟨v, hv⟩ := ResultTable.contains_iff.1 hcontains
        rw [hstate]
        exact ResultTable.contains_iff.2 ⟨v, List.mem_append_left _ hv⟩
      · rename_i hcontains
        have hfresh := Bool.eq_false_iff.2 hcontains
        split at h
        · rename_i v hready
          rw [ProgramState.withResult_of_not_contains hfresh] at h
          obtain ⟨added, hstate, hcount, hadded, hall⟩ := ih h
          refine ⟨(key, v) :: added, ?_, ?_, ?_, ?_⟩
          · simpa using hstate
          · rw [hcount, List.length_cons]
            dsimp only
            omega
          · exact List.forall_mem_cons.2 ⟨⟨List.mem_cons_self, hready⟩, hwiden added hadded⟩
          · refine List.forall_mem_cons.2 ⟨fun _ => ?_, hall⟩
            rw [hstate]
            exact ResultTable.contains_iff.2 ⟨v, by simp⟩
        · simp at h
        · rename_i hnone
          obtain ⟨added, hstate, hcount, hadded, hall⟩ := ih h
          refine ⟨added, hstate, hcount, hwiden added hadded,
            List.forall_mem_cons.2 ⟨fun hsome => ?_, hall⟩⟩
          simp [hnone] at hsome

/-- The only error of publishing is that a run has failed. -/
theorem exists_failed_of_publishReady {err : Error}
    (h : publishReady scheduler keys p = .error err) :
    ∃ key reason, err = .request (.nestedRunFailed key reason) := by
  induction keys generalizing p with
  | nil => simp [publishReady] at h
  | cons key keys ih =>
      rw [publishReady] at h
      split at h
      · exact ih h
      · rename_i hcontains
        split at h
        · rw [ProgramState.withResult_of_not_contains (Bool.eq_false_iff.2 hcontains)] at h
          exact ih h
        · exact ⟨key, _, (Except.error.inj h).symm⟩
        · exact ih h

/-- Nothing is published while no run that is open has a resolution. -/
theorem publishReady_of_waiting
    (h : ∀ key ∈ keys, p.state.results.contains key = false → scheduler.resolution? key = none) :
    publishReady scheduler keys p = .ok { p with
      outstanding := p.outstanding + keys.countP fun key => !p.state.results.contains key } := by
  induction keys generalizing p with
  | nil => rfl
  | cons key keys ih =>
      rw [List.forall_mem_cons] at h
      cases hcontains : p.state.results.contains key with
      | true => simp only [publishReady, hcontains, if_true, ih h.2, List.countP_cons]; rfl
      | false =>
          simp only [publishReady, hcontains, Bool.false_eq_true, if_false, h.1 hcontains,
            List.countP_cons]
          have hrest := ih (p := { p with outstanding := p.outstanding + 1 }) h.2
          rw [hrest]
          simp [Nat.add_assoc, Nat.add_comm 1]

/-- What is published depends on the resolutions of the runs asked for. -/
theorem publishReady_congr {scheduler' : Scheduler W}
    (h : ∀ key ∈ keys, scheduler.resolution? key = scheduler'.resolution? key)
    (p : Publication) : publishReady scheduler keys p = publishReady scheduler' keys p := by
  induction keys generalizing p with
  | nil => rfl
  | cons key keys ih =>
      rw [List.forall_mem_cons] at h
      simp only [publishReady, h.1, ih h.2]

end Publishing

/-! ## Rounds -/

namespace Constraint

variable {root : Constraint W} {name : String} {s t : ProgramState} {b : Bench W}

theorem settleRound_snd (root : Constraint W) (name : String) (s : ProgramState) (b : Bench W) :
    (root.settleRound name s b).2 = b.runPending.2 := by
  rw [settleRound]
  split
  · rfl
  · split <;> rfl

theorem gains_of_settleRound (h : (root.settleRound name s b).1 = .ok t) :
    s.Gains t (root.callKeys s.prompt) b.runPending.2.scheduler := by
  rw [settleRound] at h
  split at h
  · simp at h
  · rename_i p hpublish
    split at h
    · simp at h
    · obtain rfl := Except.ok.inj h
      obtain ⟨added, hstate, -, hadded, -⟩ := publishReady_spec hpublish
      exact ⟨added, hstate, hadded⟩

theorem not_publishesTwice_of_settleRound {err : Error}
    (h : (root.settleRound name s b).1 = .error err) : ¬ err.PublishesTwice := by
  rw [settleRound] at h
  split at h
  · rename_i e hpublish
    obtain rfl : e = err := Except.error.inj h
    obtain ⟨key, reason, rfl⟩ := exists_failed_of_publishReady hpublish
    simp [Error.PublishesTwice]
  · split at h
    · obtain rfl := Except.error.inj h
      simp [Error.PublishesTwice]
    · simp at h

/-- Evaluation on a bench takes no round and fails only where a pattern is beyond a limit. -/
theorem forwardOn_spec (root : Constraint W) (s : ProgramState) (b : Bench W) :
    Bench.Works 0 b (root.forwardOn s b).2 ∧
      ∀ err, (root.forwardOn s b).1 = .error err → err.AtLimit := by
  obtain ⟨answer, calls, -, hlimit, heq⟩ := root.exists_askAll_forward s
  rw [forwardOn, heq]
  exact ⟨(Bench.Works.done b).askAll s.prompt calls, hlimit⟩

/-- What is known of the end of settling: it took so many rounds at most, a verdict is not open
and comes with results that the scheduler has, and an error is not that a result has been
published before. -/
structure Settles (root : Constraint W) (rounds : Nat) (s : ProgramState) (b : Bench W)
    (settled : Except Error (Eval × ProgramState) × Bench W) : Prop where
  works : ∃ n ≤ rounds, Bench.Works n b settled.2
  decided : ∀ eval t, settled.1 = .ok (eval, t) → eval.isPending = false ∧
    s.Gains t (root.callKeys s.prompt) settled.2.scheduler
  failed : ∀ err, settled.1 = .error err → ¬ err.PublishesTwice

theorem Settles.of_error {err : Error} {rounds n : Nat} {b' : Bench W} (hn : n ≤ rounds)
    (hworks : Bench.Works n b b') (h : ¬ err.PublishesTwice) :
    root.Settles rounds s b (.error err, b') where
  works := ⟨n, hn, hworks⟩
  decided := by simp
  failed e he := by rwa [← Except.error.inj he]

theorem settles_value (root : Constraint W) (rounds : Nat) (v : Value) (s : ProgramState)
    (b : Bench W) : root.Settles rounds s b (.ok (.value v, s), b) where
  works := ⟨0, Nat.zero_le _, .done b⟩
  decided eval t h := by
    obtain ⟨rfl, rfl⟩ := Prod.mk.inj (Except.ok.inj h)
    exact ⟨rfl, .refl _ _ _⟩
  failed := by simp

/-- Settling after rounds that have already been taken. -/
theorem Settles.after {rounds n m : Nat} {b' : Bench W}
    {settled : Except Error (Eval × ProgramState) × Bench W} (hn : n + m ≤ rounds)
    (hworks : Bench.Works n b b') (hgains : s.Gains t (root.callKeys s.prompt) b'.scheduler)
    (h : root.Settles m t b' settled) : root.Settles rounds s b settled where
  works := by
    obtain ⟨k, hk, hmore⟩ := h.works
    exact ⟨n + k, by omega, hworks.trans hmore⟩
  decided eval u hok := by
    obtain ⟨k, -, hmore⟩ := h.works
    obtain ⟨hdecided, hlater⟩ := h.decided eval u hok
    rw [hgains.prompt_eq] at hlater
    exact ⟨hdecided, (hgains.of_keeps hmore.keeps).trans hlater⟩
  failed := h.failed

/-- **Settling settles.** -/
theorem settles_settleWithin (root : Constraint W) (name : String) (rounds left : Nat)
    (eval : Eval) (s : ProgramState) (b : Bench W) :
    root.Settles left s b (root.settleWithin name rounds left eval s b) := by
  induction left generalizing eval s b with
  | zero =>
      cases eval with
      | value v => exact root.settles_value 0 v s b
      | pending => exact .of_error (Nat.zero_le _) (.done b) (by simp [Error.PublishesTwice])
  | succ left ih =>
      cases eval with
      | value v => exact root.settles_value _ v s b
      | pending =>
          have hworks : Bench.Works 1 b (root.settleRound name s b).2 := by
            rw [settleRound_snd]
            exact .round _ _ _ (.done b)
          rw [settleWithin]
          cases hround : root.settleRound name s b with
          | mk answer b₁ =>
              rw [hround] at hworks
              cases answer with
              | error err =>
                  have hfailed := not_publishesTwice_of_settleRound (by rw [hround])
                  exact .of_error (by omega) hworks hfailed
              | ok t =>
                  have hgains := gains_of_settleRound (by rw [hround])
                  rw [← settleRound_snd root name s b, hround] at hgains
                  obtain ⟨hasked, hlimit⟩ := root.forwardOn_spec t b₁
                  dsimp only
                  cases hforward : root.forwardOn t b₁ with
                  | mk answer b₂ =>
                      rw [hforward] at hasked hlimit
                      have hworks₂ := hworks.trans hasked
                      cases answer with
                      | error err =>
                          exact .of_error (by omega) hworks₂
                            (hlimit err rfl).not_publishesTwice
                      | ok eval =>
                          exact .after (by omega) hworks₂ (hgains.of_keeps hasked.keeps)
                            (ih eval t b₂)

end Constraint

end Guided
