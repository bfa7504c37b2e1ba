import Guided.Proofs.Engine.Run
import Guided.Proofs.Engine.Scan

/-!
# What a run reports and what it changes

Whatever graph a run is about and however it ends, its log is one of tokens with one last
event behind them, and the log, the count of tokens, the text of the variable and the table
of results stay in step: exactly what is reported has been added to the text, and exactly
results of the graph's own calls have been added to the table. A text that is dropped and an
evaluation that fails leave no trace in the state.

## Main definitions

* `Engine.Advances`: what a run may do to a state.
* `Progress.Logs`: the log and the state are in step.

## Main statements

* `Engine.logs_take`, `Engine.logs_consume`: one event, and all of them.
* `Engine.run_log`: the log and the final state of a run.
-/
namespace Guided

variable {W : Type}

/-- An event that reports a token. -/
def EngineEvent.IsToken (event : EngineEvent) : Prop :=
  ∃ streamId token text, event = .token streamId token text

/-- The text of a variable; one that has not been started has none. -/
def ProgramState.textOf (s : ProgramState) (name : String) : List Char :=
  ((s.find? name).getD Variable.fresh).text.toList

theorem reportedText_concat (emitted : List EngineEvent) (streamId token : Nat) (text : String) :
    reportedText (emitted ++ [.token streamId token text]) =
      reportedText emitted ++ text.toList := by
  simp [reportedText]

namespace Engine

variable {e : Engine W} {s t u : ProgramState} {added : List Char} {b b' : Bench W}

/-! ## What may change -/

/-- From one state to another the text of the variable has gone on, and results that the
scheduler has for calls of the constraint have been added. All else is as it was, save for
what pattern leaves retain. -/
structure Advances (e : Engine W) (scheduler : Scheduler W) (s t : ProgramState)
    (added : List Char) : Prop where
  prompt : t.prompt = s.prompt
  text : t.textOf e.variableName = s.textOf e.variableName ++ added
  others : ∀ name, name ≠ e.variableName → t.find? name = s.find? name
  results : ∃ more : ResultTable, t.results = s.results ++ more ∧ ∀ entry ∈ more,
    entry.1 ∈ e.root.callKeys s.prompt ∧ scheduler.resolution? entry.1 = some (.ready entry.2)

theorem advances_refl (e : Engine W) (scheduler : Scheduler W) (s : ProgramState) :
    e.Advances scheduler s s [] :=
  ⟨rfl, by simp, fun _ _ => rfl, [], by simp⟩

namespace Advances

variable {scheduler scheduler' : Scheduler W}

theorem of_keeps (h : e.Advances scheduler s t added) (hkeeps : scheduler.Keeps scheduler') :
    e.Advances scheduler' s t added := by
  obtain ⟨more, hresults, hmore⟩ := h.results
  exact ⟨h.prompt, h.text, h.others, more, hresults, fun entry hentry =>
    ⟨(hmore entry hentry).1, hkeeps _ _ (hmore entry hentry).2⟩⟩

/-- Results of the constraint's calls are added. -/
theorem gains (h : e.Advances scheduler s t added)
    (hgains : t.Gains u (e.root.callKeys t.prompt) scheduler) :
    e.Advances scheduler s u added := by
  obtain ⟨more, hresults, hmore⟩ := h.results
  obtain ⟨latest, rfl, hlatest⟩ := hgains
  rw [h.prompt] at hlatest
  refine ⟨h.prompt, h.text, h.others, more ++ latest, ?_, ?_⟩
  · rw [← List.append_assoc, ← hresults]
  · exact fun entry hentry =>
      (List.mem_append.1 hentry).elim (hmore entry) (hlatest entry)

/-- The text of the variable goes on. -/
theorem updateVariable (h : e.Advances scheduler s t added) {f : Variable → Variable}
    {piece : String} (hf : ∀ v, (f v).text = v.text ++ piece) :
    e.Advances scheduler s (t.updateVariable e.variableName f) (added ++ piece.toList) where
  prompt := h.prompt
  text := by
    rw [ProgramState.textOf, ProgramState.find?_updateVariable_self, Option.getD_some, hf,
      String.toList_append, ← List.append_assoc, ← h.text]
    rfl
  others name hname := by rw [t.find?_updateVariable_of_ne hname, h.others name hname]
  results := h.results

/-- Leaves follow the text and change nothing but what they retain. -/
theorem following (h : e.Advances scheduler s t added) (piece : String) :
    e.Advances scheduler s (e.root.following t e.variableName piece) (added ++ piece.toList) := by
  have htoken : e.Advances scheduler s (t.withToken e.variableName piece)
      (added ++ piece.toList) := h.updateVariable fun _ => rfl
  obtain ⟨patterns, heq⟩ := e.root.exists_following_eq t e.variableName piece
  rw [heq]
  exact ⟨htoken.prompt, htoken.text, htoken.others, htoken.results⟩

end Advances

/-! ## Judging -/

theorem settles_judge (e : Engine W) (s : ProgramState) (b : Bench W) :
    e.root.Settles e.maxRounds s b (e.judge s b) := by
  obtain ⟨hasked, hlimit⟩ := e.root.forwardOn_spec s b
  rw [judge]
  cases hforward : e.root.forwardOn s b with
  | mk answer b₁ =>
      rw [hforward] at hasked hlimit
      cases answer with
      | error err => exact .of_error (Nat.zero_le _) hasked (hlimit err rfl).not_publishesTwice
      | ok eval =>
          exact .after (Nat.le_of_eq (Nat.zero_add _)) hasked (.refl _ _ _)
            (e.root.settles_settleWithin _ _ _ _ _ _)

theorem Advances.of_judge (h : e.Advances b.scheduler s t added) {eval : Eval}
    (hjudge : e.judge t b = (.ok (eval, u), b')) : e.Advances b'.scheduler s u added := by
  have hsettles := e.settles_judge t b
  rw [hjudge] at hsettles
  obtain ⟨n, -, hworks⟩ := hsettles.works
  exact (h.of_keeps hworks.keeps).gains (hsettles.decided eval u rfl).2

theorem keeps_of_judge {answer : Except Error (Eval × ProgramState)}
    (hjudge : e.judge t b = (answer, b')) : b.scheduler.Keeps b'.scheduler := by
  obtain ⟨n, -, hworks⟩ := (e.settles_judge t b).works
  rw [hjudge] at hworks
  exact hworks.keeps

theorem not_publishesTwice_of_judge {err : Error} (hjudge : e.judge t b = (.error err, b')) :
    ¬ err.PublishesTwice :=
  (e.settles_judge t b).failed err (by rw [hjudge])

end Engine

/-! ## The log -/

/-- The log holds one token for every text kept, and the state has come from the first one by
what the log reports. -/
structure Progress.Logs (p : Progress) (e : Engine W) (s : ProgramState) (b : Bench W) : Prop where
  tokens : ∀ event ∈ p.emitted, event.IsToken
  count : p.emitted.length = p.generated
  room : p.generated ≤ e.maxTokens
  advances : e.Advances b.scheduler s p.state (reportedText p.emitted)

namespace Progress.Logs

variable {e : Engine W} {s t : ProgramState} {p : Progress} {b b' : Bench W}

theorem of_keeps (h : p.Logs e s b) (hkeeps : b.scheduler.Keeps b'.scheduler) : p.Logs e s b' :=
  ⟨h.tokens, h.count, h.room, h.advances.of_keeps hkeeps⟩

/-- A text is kept and reported. -/
theorem keep (h : p.Logs e s b) (hroom : p.generated < e.maxTokens) (event : TokenEvent)
    {text : String} (hnext : e.Advances b.scheduler s t (reportedText p.emitted ++ text.toList)) :
    (Engine.keep p event text t).Logs e s b where
  tokens := by
    intro logged hlogged
    rcases List.mem_append.1 hlogged with hlogged | hlogged
    · exact h.tokens logged hlogged
    · exact ⟨_, _, _, List.mem_singleton.1 hlogged⟩
  count := by simp [Engine.keep, h.count]
  room := hroom
  advances := by
    rw [Engine.keep, reportedText_concat]
    exact hnext

end Progress.Logs

namespace Engine

variable {e : Engine W} {s : ProgramState} {p : Progress} {b : Bench W}

/-- What a part of a run leaves behind: a log in step with the state, and no error about a
result published twice. -/
structure Leaves {α : Type} (e : Engine W) (s : ProgramState)
    (left : Except Error α × Progress × Bench W) : Prop where
  logs : left.2.1.Logs e s left.2.2
  failed : ∀ err, left.1 = .error err → ¬ err.PublishesTwice

theorem Leaves.of_ok {α : Type} {a : α} (h : p.Logs e s b) : e.Leaves s (.ok a, p, b) :=
  ⟨h, by simp⟩

theorem Leaves.of_error {α : Type} {err : Error} (h : p.Logs e s b)
    (herr : ¬ err.PublishesTwice) : e.Leaves (α := α) s (.error err, p, b) :=
  ⟨h, fun _ heq => by rwa [← Except.error.inj heq]⟩

/-- One event: a text that is kept is reported, and one that is dropped leaves no trace. -/
theorem logs_take (h : p.Logs e s b) (hroom : p.generated < e.maxTokens) (event : TokenEvent) :
    e.Leaves s (e.take event p b) := by
  have hpassed : Progress.Logs { p with streamId := event.streamId } e s b :=
    ⟨h.tokens, h.count, h.room, h.advances⟩
  rw [take]
  split
  · exact .of_ok hpassed
  · rw [tryText_eq_judge]
    have hnext := h.advances.following (event.text.getD "")
    cases hjudge : e.judge (e.root.following p.state e.variableName (event.text.getD "")) b with
    | mk answer b' =>
        have hkept := hpassed.of_keeps (keeps_of_judge hjudge)
        cases answer with
        | error err => exact .of_error hkept (not_publishesTwice_of_judge hjudge)
        | ok judged =>
            obtain ⟨eval, next⟩ := judged
            dsimp only
            split
            · exact .of_ok hkept
            · exact .of_ok (hkept.keep hroom event (hnext.of_judge hjudge))

/-- All events, one after the other. -/
theorem logs_consume (h : p.Logs e s b) (events : List TokenEvent) :
    e.Leaves s (e.consume events p b) := by
  induction events generalizing p b with
  | nil => exact .of_ok h
  | cons event rest ih =>
      rw [consume]
      split
      · exact .of_ok h
      · rename_i hroom
        have htaken := logs_take h (Nat.not_le.1 hroom) event
        cases htake : e.take event p b with
        | mk answer left =>
            obtain ⟨p', b'⟩ := left
            rw [htake] at htaken
            rcases answer with err | _ | reason
            · exact .of_error htaken.logs (htaken.failed err rfl)
            · exact ih htaken.logs
            · exact .of_ok htaken.logs

/-- Generation starts with an empty log. -/
theorem logs_generate (e : Engine W) (s : ProgramState) (events : List TokenEvent)
    (b : Bench W) : e.Leaves s (e.generate s events b) := by
  have hsame : ∀ v : Variable, (id v).text = v.text ++ "" := by simp
  have hstart : e.Advances b.scheduler s (s.beginVariable e.variableName) [] :=
    (e.advances_refl b.scheduler s).updateVariable hsame
  have hlogs : ∀ t b', e.Advances b'.scheduler s t [] →
      Progress.Logs ⟨t, 0, 0, []⟩ e s b' :=
    fun t b' hadvances => ⟨by simp, rfl, Nat.zero_le _, hadvances⟩
  rw [generate]
  cases hjudge : e.judge (s.beginVariable e.variableName) b with
  | mk answer b' =>
      cases answer with
      | error err =>
          exact .of_error (hlogs _ _ (hstart.of_keeps (keeps_of_judge hjudge)))
            (not_publishesTwice_of_judge hjudge)
      | ok judged =>
          obtain ⟨eval, t⟩ := judged
          have hjudged := hlogs t b' (hstart.of_judge hjudge)
          dsimp only
          split
          · exact .of_ok hjudged
          · exact logs_consume hjudged events

/-! ## The end -/

theorem keeps_finalValues (root : Constraint W) (s : ProgramState) (name : String)
    (b : Bench W) : b.scheduler.Keeps (root.finalValues s [name] b.scheduler).2 := by
  obtain ⟨answer, calls, -, heq⟩ := root.exists_askAll_finalValues s name
  rw [heq]
  exact ((Bench.Works.done b).askAll s.prompt calls).keeps

theorem not_publishesTwice_of_postprocess {c : Constraint W} {scheduler : Scheduler W}
    {err : Error} (h : (c.postprocess s scheduler).1 = .error err) : ¬ err.PublishesTwice := by
  rw [Constraint.postprocess] at h
  split at h
  · rename_i leaf _
    rw [PatternLeaf.postprocess] at h
    split at h
    · obtain rfl := Except.error.inj h
      simp [Error.PublishesTwice]
    · split at h
      · rename_i e hmatch
        obtain rfl : e = err := Except.error.inj h
        exact (Regex.atLimit_of_fullMatch hmatch).not_publishesTwice
      · simp at h
      · obtain rfl := Except.error.inj h
        simp [Error.PublishesTwice]
  · rw [InlineCall.postprocess] at h
    split at h
    · simp at h
    · obtain rfl := Except.error.inj h
      simp [Error.PublishesTwice]
  · obtain rfl := Except.error.inj h
    simp [Error.PublishesTwice]

theorem not_publishesTwice_of_finalValues {root : Constraint W} {name : String}
    {scheduler : Scheduler W} {err : Error}
    (h : (root.finalValues s [name] scheduler).1 = .error err) : ¬ err.PublishesTwice := by
  simp only [Constraint.finalValues, Constraint.finalValue] at h
  cases howner : (root.owners name).head? with
  | none => simp [howner] at h
  | some c =>
      rw [howner] at h
      dsimp only at h
      cases hpost : c.postprocess s scheduler with
      | mk answer scheduler' =>
          rw [hpost] at h
          cases answer with
          | ok v => simp at h
          | error e =>
              obtain rfl : e = err := Except.error.inj h
              exact not_publishesTwice_of_postprocess (by rw [hpost])

variable {t : ProgramState} {added : List Char} {reason : FinishReason} {b' : Bench W}

/-- How a run can end once the variable is finished: judging fails, or the text is not accepted,
or its final value is taken. -/
theorem finish_cases (e : Engine W) (t : ProgramState) (reason : FinishReason) (b : Bench W) :
    (∃ err b₁, e.judge (t.finishVariable e.variableName) b = (.error err, b₁) ∧
      e.finish t reason b = (.error err, b₁)) ∨
    ∃ eval u b₁, e.judge (t.finishVariable e.variableName) b = (.ok (eval, u), b₁) ∧
      (e.finish t reason b = (.ok ⟨u, reason, false, none⟩, b₁) ∨
        e.finish t reason b =
          ((e.root.finalValues u [e.variableName] b₁.scheduler).1.map fun values =>
              ⟨u, reason, true, some values⟩,
            b₁.withScheduler (e.root.finalValues u [e.variableName] b₁.scheduler).2)) := by
  rw [finish]
  rcases hjudge : e.judge (t.finishVariable e.variableName) b with ⟨err | ⟨eval, u⟩, b₁⟩
  · exact .inl ⟨err, b₁, rfl, rfl⟩
  · refine .inr ⟨eval, u, b₁, rfl, ?_⟩
    dsimp only
    split
    · right
      rcases e.root.finalValues u [e.variableName] b₁.scheduler with ⟨err | values, scheduler⟩ <;>
        rfl
    · exact .inl rfl

/-- The end of a run marks the variable as finished and does nothing else to its text. -/
theorem finish_ok (h : e.Advances b.scheduler s t added) {outcome : EngineOutcome}
    (hfinish : e.finish t reason b = (.ok outcome, b')) :
    e.Advances b'.scheduler s outcome.state added ∧
      ∃ text, outcome.state.find? e.variableName = some ⟨text, true⟩ := by
  have hsame : ∀ v : Variable, ({ v with finished := true } : Variable).text = v.text ++ "" := by
    simp
  have hfinished : e.Advances b.scheduler s (t.finishVariable e.variableName) added := by
    simpa [ProgramState.finishVariable] using h.updateVariable hsame
  rcases e.finish_cases t reason b with ⟨err, b₁, -, hend⟩ | ⟨eval, u, b₁, hjudge, hend⟩
  · simp [hend] at hfinish
  · have hjudged := hfinished.of_judge hjudge
    have hvars : u.vars = (t.finishVariable e.variableName).vars :=
      ((e.settles_judge _ b).decided eval u (by rw [hjudge])).2.vars_eq
    have hvar : ∃ text, u.find? e.variableName = some ⟨text, true⟩ := by
      rw [ProgramState.find?, hvars]
      exact ⟨_, t.find?_updateVariable_self e.variableName _⟩
    rcases hend with hend | hend
    · obtain ⟨houtcome, rfl⟩ := Prod.mk.inj (hend.symm.trans hfinish)
      rw [← Except.ok.inj houtcome]
      exact ⟨hjudged, hvar⟩
    · obtain ⟨houtcome, rfl⟩ := Prod.mk.inj (hend.symm.trans hfinish)
      have hkeeps := keeps_finalValues e.root u e.variableName b₁
      cases hvalues : (e.root.finalValues u [e.variableName] b₁.scheduler).1 with
      | error err => simp [hvalues, Except.map] at houtcome
      | ok values =>
          rw [hvalues] at houtcome
          rw [← Except.ok.inj houtcome]
          exact ⟨hjudged.of_keeps hkeeps, hvar⟩

theorem not_publishesTwice_of_finish {err : Error}
    (hfinish : e.finish t reason b = (.error err, b')) : ¬ err.PublishesTwice := by
  rcases e.finish_cases t reason b with ⟨e', b₁, hjudge, hend⟩ | ⟨eval, u, b₁, -, hend | hend⟩
  · obtain ⟨herr, -⟩ := Prod.mk.inj (hend.symm.trans hfinish)
    rw [← Except.error.inj herr]
    exact not_publishesTwice_of_judge hjudge
  · simp [hend] at hfinish
  · obtain ⟨herr, -⟩ := Prod.mk.inj (hend.symm.trans hfinish)
    cases hvalues : (e.root.finalValues u [e.variableName] b₁.scheduler).1 with
    | error e' =>
        rw [hvalues] at herr
        rw [← Except.error.inj herr]
        exact not_publishesTwice_of_finalValues hvalues
    | ok values => simp [hvalues, Except.map] at herr

/-! ## The run -/

/-- **The log of a run.** Whatever the graph, the stream and the requests that others have made,
a run reports tokens, no more than it may, and then how it ended. It never fails because a result
has been published before. If it succeeds, exactly the texts reported have been added to the
variable, which is finished; nothing else in the state is different, but for results of calls of
the graph under this prompt, each of which is the one that the scheduler has. -/
theorem run_log (e : Engine W) (s : ProgramState) (events : List TokenEvent) (b : Bench W) :
    ∃ tokens streamId, (∀ event ∈ tokens, event.IsToken) ∧ tokens.length ≤ e.maxTokens ∧
      (∀ err, (e.run s events b).1 = .error err →
        (e.run s events b).2.1 = tokens ++ [.error streamId err.message] ∧
        ∀ key, err ≠ .request (.alreadyPublished key)) ∧
      ∀ outcome, (e.run s events b).1 = .ok outcome →
        (e.run s events b).2.1 = tokens ++ [.finish streamId outcome.reason] ∧
        (∃ text, outcome.state.find? e.variableName = some ⟨text, true⟩ ∧
          text.toList = s.textOf e.variableName ++ reportedText tokens) ∧
        (∀ name, name ≠ e.variableName → outcome.state.find? name = s.find? name) ∧
        outcome.state.prompt = s.prompt ∧
        (∀ key v, s.results.get? key = some v → outcome.state.results.get? key = some v) ∧
        ∀ key v, s.results.get? key = none → outcome.state.results.get? key = some v →
          key ∈ e.root.callKeys s.prompt ∧
            (e.run s events b).2.2.scheduler.resolution? key = some (.ready v) := by
  have hgenerated := e.logs_generate s events b
  rw [run]
  rcases hgenerate : e.generate s events b with ⟨answer, p, b₁⟩
  rw [hgenerate] at hgenerated
  obtain ⟨hlogs, hfailed⟩ := hgenerated
  have hroom : p.emitted.length ≤ e.maxTokens := hlogs.count ▸ hlogs.room
  refine ⟨p.emitted, p.streamId, hlogs.tokens, hroom, ?_⟩
  rcases answer with err | reason
  · refine ⟨?_, by simp⟩
    intro e' he'
    obtain rfl : err = e' := Except.error.inj he'
    exact ⟨rfl, fun key hkey => hfailed _ rfl ⟨key, hkey⟩⟩
  · dsimp only
    rcases hfinish : e.finish p.state reason b₁ with ⟨err | outcome, b₂⟩
    · refine ⟨?_, by simp⟩
      intro e' he'
      obtain rfl : err = e' := Except.error.inj he'
      exact ⟨rfl, fun key hkey => not_publishesTwice_of_finish hfinish ⟨key, hkey⟩⟩
    · refine ⟨by simp, ?_⟩
      intro o ho
      obtain rfl : outcome = o := Except.ok.inj ho
      obtain ⟨hadvances, text, hvar⟩ := finish_ok hlogs.advances hfinish
      obtain ⟨more, hresults, hmore⟩ := hadvances.results
      have htext := hadvances.text
      rw [ProgramState.textOf, hvar] at htext
      refine ⟨rfl, ⟨text, hvar, htext⟩, hadvances.others, hadvances.prompt, ?_, ?_⟩
      · intro key v hv
        rw [hresults, ResultTable.get?_append, hv, Option.some_or]
      · intro key v hnone hv
        rw [hresults, ResultTable.get?_append, hnone, Option.none_or] at hv
        exact hmore (key, v) (ResultTable.mem_of_get? hv)

end Engine

end Guided
