import Guided.Engine.Run
import Guided.Proofs.Constraint.Postprocess
import Guided.Proofs.Pattern.Residual
import Guided.Proofs.Program.Updates

/-!
# Runs under a single pattern

An engine whose constraint is one pattern on its variable needs neither nested runs nor
rounds, and what its leaf retains always belongs to the whole text so far. So a run is a
scan of its events that asks about each text whether the pattern rejects everything so far
with it, and that keeps the texts until there is a reason to stop.

## Main definitions

* `Scan`, `Regex.scan`: the scan.
* `Progress.Shows`: a run that has come to what a scan has come to.
* `piecesText`, `pieceCount`, `reportedText`: the texts of events.

## Main statements

* `Engine.run_pattern`: a run under a pattern is the scan.
* `Engine.run_eq_scan`: the same for every pattern that is read, with acceptance by its language.
* `Regex.reportedText_scan`, `Regex.text_scan_prefix`: what a scan has kept.
* `Regex.text_scan_of_stop`, `Regex.scan_stop_of_residual`: when a scan keeps everything.
-/
namespace Guided

/-! ## The scan -/

/-- What a scan of events has come to: the text kept and the number of its pieces, the stream
of the last event taken, and what is to be reported. -/
structure Scan where
  text : String
  kept : Nat
  streamId : Nat
  emitted : List EngineEvent

/-- A scan that has taken nothing. -/
def Scan.start : Scan := ⟨"", 0, 0, []⟩

/-- The text that comes with an event. -/
def TokenEvent.piece (event : TokenEvent) : String := event.text.getD ""

/-- An event of which nothing is kept leaves its stream behind. -/
def Scan.pass (s : Scan) (event : TokenEvent) : Scan := { s with streamId := event.streamId }

/-- A piece of text is kept and reported; an empty one is nothing. -/
def Scan.keep (s : Scan) (event : TokenEvent) : Scan :=
  if event.piece = "" then s.pass event
  else ⟨s.text ++ event.piece, s.kept + 1, event.streamId,
    s.emitted ++ [.token event.streamId event.token event.piece]⟩

/-- Whether a pattern rejects the text so far with one more piece. -/
def Regex.refuses (r : Regex) (s : Scan) (event : TokenEvent) : Bool :=
  event.piece != "" && (r.residual (s.text ++ event.piece)).isNone

/-- Scan events for the reason to stop. -/
def Regex.scan (r : Regex) (maxTokens : Nat) : List TokenEvent → Scan → FinishReason × Scan
  | [], s => (if maxTokens ≤ s.kept then .length else .cancelled, s)
  | event :: rest, s =>
      if maxTokens ≤ s.kept then (.length, s)
      else if r.refuses s event then (.violated, s.pass event)
      else
        match event.finishReason with
        | some reason => (reason, s.keep event)
        | none => r.scan maxTokens rest (s.keep event)

/-! ## Evaluating a pattern -/

section Evaluation

variable {W : Type} {id inputId : NodeId} {name text : String} {r : Regex} {state : ProgramState}

theorem Constraint.walk_pattern : (Constraint.pattern (W := W) id inputId name r).walk =
    if id = inputId then [.pattern id inputId name r]
    else [.pattern id inputId name r, .reference inputId name] := by
  by_cases hid : id = inputId
  · rw [if_pos hid]
    simp [Constraint.walk, Constraint.walkFrom, Constraint.pattern, Constraint.reference,
      Constraint.listed, Constraint.id, hid]
  · rw [if_neg hid]
    simp [Constraint.walk, Constraint.walkFrom, Constraint.pattern, Constraint.reference,
      Constraint.listed, Constraint.id, hid]

/-- The pattern decides the final value of its variable: a text that matches. -/
theorem Constraint.finalValues_pattern (id inputId : NodeId)
    (hvar : state.find? name = some ⟨text, true⟩) (hmatch : r.fullMatch text = .ok true)
    (scheduler : Scheduler W) :
    (Constraint.pattern id inputId name r).finalValues state [name] scheduler =
      (.ok [(name, .string text)], scheduler) := by
  have howner : ((Constraint.pattern (W := W) id inputId name r).owners name).head? =
      some (.pattern id inputId name r) := by
    rw [Constraint.owners, Constraint.walk_pattern]
    split <;> simp [Constraint.owns, Constraint.operator, Constraint.pattern]
  have hpost : (Constraint.pattern id inputId name r).postprocess state scheduler =
      (.ok (.string text), scheduler) := by
    simp [Constraint.postprocess, Constraint.pattern, Constraint.operator, PatternLeaf.postprocess,
      hvar, hmatch]
  simp only [Constraint.finalValues, Constraint.finalValue, howner, hpost]
  rfl

/-- The variable is being generated and has this text, and what the pattern retains describes
a beginning of it. -/
structure ProgramState.Holds (state : ProgramState) (id : NodeId) (name : String) (r : Regex)
    (text : String) : Prop where
  variable_eq : state.find? name = some ⟨text, false⟩
  retained : ∀ st, state.pattern? id = some st → st.Covers ⟨name, r⟩ text

/-- As long as the variable is generated, the pattern is true unless it rejects the text. -/
theorem ProgramState.Holds.evaluate_eq (h : state.Holds id name r text) :
    PatternLeaf.evaluate ⟨name, r⟩ id state = .ok (.ofBool (r.residual text).isSome) := by
  have hcovers : ∀ v, state.find? name = some v → ∀ st, state.pattern? id = some st →
      st.Covers ⟨name, r⟩ v.text := by
    intro v hv st hst
    rw [h.variable_eq, Option.some.injEq] at hv
    rw [← hv]
    exact h.retained st hst
  rw [PatternLeaf.evaluate_eq_evaluateFresh hcovers, PatternLeaf.evaluateFresh, h.variable_eq]
  rfl

/-- One more piece of text is followed by the pattern. -/
theorem ProgramState.Holds.following (h : state.Holds id name r text) (piece : String) :
    ((Constraint.pattern (W := W) id inputId name r).following state name piece).Holds
      id name r (text ++ piece) := by
  have hvar : (state.withToken name piece).find? name = some ⟨text ++ piece, false⟩ := by
    rw [state.find?_withToken_self, h.variable_eq]
    rfl
  refine ⟨by rw [Constraint.find?_following, hvar], ?_⟩
  have hids : ∀ c ∈ (Constraint.pattern (W := W) id inputId name r).walk,
      ∀ d ∈ (Constraint.pattern (W := W) id inputId name r).walk, c.id = d.id → c = d := by
    rw [Constraint.walk_pattern]
    by_cases hid : id = inputId
    · simp [hid]
    · simp [hid, Ne.symm hid, Constraint.pattern, Constraint.reference, Constraint.id]
  have hmem : Constraint.pattern (W := W) id inputId name r ∈
      (Constraint.pattern (W := W) id inputId name r).walk := by
    rw [Constraint.walk_pattern]
    split <;> simp
  have hfollow : PatternLeaf.follow ⟨name, r⟩ (state.pattern? id) (text ++ piece) =
      PatternLeaf.followFresh ⟨name, r⟩ (text ++ piece) :=
    PatternLeaf.follow_of_covers fun st hst => (h.retained st hst).append piece
  have hretained : (Constraint.advance (Constraint.pattern (W := W) id inputId name r).walk state
      name (text ++ piece) (state.withToken name piece)).pattern? id =
        some (PatternLeaf.follow ⟨name, r⟩ (state.pattern? id) (text ++ piece)) :=
    Constraint.pattern?_advance_of_mem hids hmem rfl rfl _
  intro st hst
  simp only [Constraint.following, hvar, Option.getD_some] at hst
  rw [hretained, hfollow, Option.some.injEq] at hst
  rw [← hst]
  exact PatternState.covers_followFresh ⟨name, r⟩ (text ++ piece)

/-- A variable of a fresh state starts with the empty text. -/
theorem ProgramState.holds_start (prompt : String) :
    ((ProgramState.start prompt).beginVariable name).Holds id name r "" := by
  refine ⟨ProgramState.find?_updateVariable_self _ _ _, ?_⟩
  intro st hst
  simp [ProgramState.pattern?, ProgramState.beginVariable, ProgramState.updateVariable,
    ProgramState.start] at hst

end Evaluation

/-! ## The run -/

section Run

variable {W : Type} {e : Engine W} {id inputId : NodeId} {r : Regex} {s : Scan} {p : Progress}
  {state : ProgramState} {text : String}

/-- A verdict that is not open is settled. -/
theorem Constraint.settle_value (root : Constraint W) (name : String) (rounds : Nat) (v : Value)
    (state : ProgramState) (b : Bench W) :
    root.settle name rounds (.value v) state b = (.ok (.value v, state), b) := by
  rw [Constraint.settle]
  cases rounds <;> rfl

namespace Engine

/-- The pattern decides without nested runs. -/
theorem judge_pattern (hroot : e.root = .pattern id inputId e.variableName r) {v : Variable}
    (hvar : state.find? e.variableName = some v) {w : Value}
    (hleaf : PatternLeaf.evaluate ⟨e.variableName, r⟩ id state = .ok (.value w)) (b : Bench W) :
    e.judge state b = (.ok (.value w, state), b) := by
  rw [judge, Constraint.forwardOn, hroot, Constraint.forward_pattern hvar, hleaf]
  exact Constraint.settle_value _ _ _ _ _ _

/-- A further piece of text is judged by whether the pattern can go on behind it. -/
theorem tryText_pattern (hroot : e.root = .pattern id inputId e.variableName r)
    (h : state.Holds id e.variableName r text) (piece : String) (b : Bench W) :
    e.tryText state piece b = (.ok (.ofBool (r.residual (text ++ piece)).isSome,
      e.root.following state e.variableName piece), b) := by
  have hforward : ∀ next : ProgramState, next.Holds id e.variableName r (text ++ piece) →
      e.root.forward next b.scheduler =
        (.ok (.ofBool (r.residual (text ++ piece)).isSome), b.scheduler) := by
    intro next hnext
    rw [hroot, Constraint.forward_pattern hnext.variable_eq, hnext.evaluate_eq]
  have hnext : (e.root.following state e.variableName piece).Holds id e.variableName r
      (text ++ piece) := by
    rw [hroot]
    exact h.following piece
  simp only [tryText, Constraint.followOn, Constraint.follow, hforward _ hnext]
  exact Constraint.settle_value _ _ _ _ _ _

end Engine

/-- A run has come to what the scan has come to. -/
structure Progress.Shows (p : Progress) (id : NodeId) (name : String) (r : Regex) (s : Scan) :
    Prop where
  holds : p.state.Holds id name r s.text
  generated : p.generated = s.kept
  streamId : p.streamId = s.streamId
  emitted : p.emitted = s.emitted

namespace Engine

/-- One event: the engine and the scan take it in the same way. -/
theorem take_pattern (hroot : e.root = .pattern id inputId e.variableName r)
    (h : p.Shows id e.variableName r s) (event : TokenEvent) (b : Bench W) :
    ∃ next, e.take event p b =
        (.ok (if r.refuses s event then some .violated else event.finishReason), next, b) ∧
      next.Shows id e.variableName r (if r.refuses s event then s.pass event else s.keep event) := by
  obtain ⟨hholds, hgenerated, -, hemitted⟩ := h
  by_cases hempty : event.piece = ""
  · have hrefuses : r.refuses s event = false := by simp [Regex.refuses, hempty]
    have hkeep : s.keep event = s.pass event := by simp [Scan.keep, hempty]
    refine ⟨{ p with streamId := event.streamId }, ?_, ?_⟩
    · rw [TokenEvent.piece] at hempty
      simp [take, hempty, hrefuses]
    · simp only [hrefuses, Bool.false_eq_true, if_false, hkeep]
      exact ⟨hholds, hgenerated, rfl, hemitted⟩
  · have htry : e.tryText p.state (event.text.getD "") b = _ :=
      tryText_pattern hroot hholds event.piece b
    have hrefuses : r.refuses s event = (r.residual (s.text ++ event.piece)).isNone := by
      simp [Regex.refuses, hempty]
    simp only [take]
    split
    · rename_i heq
      exact absurd heq hempty
    · rw [htry, hrefuses]
      cases hres : r.residual (s.text ++ event.piece) with
      | none => exact ⟨_, rfl, hholds, hgenerated, rfl, hemitted⟩
      | some q =>
          have hkeep : s.keep event = ⟨s.text ++ event.piece, s.kept + 1, event.streamId,
              s.emitted ++ [.token event.streamId event.token event.piece]⟩ := by
            simp [Scan.keep, hempty]
          have hnext : (e.root.following p.state e.variableName event.piece).Holds id
              e.variableName r (s.text ++ event.piece) := by
            rw [hroot]
            exact hholds.following event.piece
          refine ⟨_, rfl, ?_⟩
          simp only [Option.isNone_some, Bool.false_eq_true, if_false, hkeep]
          refine ⟨hnext, ?_, rfl, ?_⟩
          · exact congrArg (· + 1) hgenerated
          · exact congrArg (· ++ [EngineEvent.token event.streamId event.token event.piece])
              hemitted

/-- All events: consuming them is scanning them. -/
theorem consume_pattern (hroot : e.root = .pattern id inputId e.variableName r)
    (h : p.Shows id e.variableName r s) (events : List TokenEvent) (b : Bench W) :
    ∃ next, e.consume events p b = (.ok (r.scan e.maxTokens events s).1, next, b) ∧
      next.Shows id e.variableName r (r.scan e.maxTokens events s).2 := by
  induction events generalizing p s with
  | nil =>
      refine ⟨p, ?_, h⟩
      rw [consume, Regex.scan, h.generated]
  | cons event rest ih =>
      rw [consume, Regex.scan, h.generated]
      split
      · exact ⟨p, rfl, h⟩
      · obtain ⟨next, htake, hnext⟩ := take_pattern hroot h event b
        rw [htake]
        cases hrefuses : r.refuses s event with
        | true =>
            rw [hrefuses] at hnext
            exact ⟨next, rfl, hnext⟩
        | false =>
            rw [hrefuses] at hnext
            cases hreason : event.finishReason with
            | some reason => exact ⟨next, rfl, hnext⟩
            | none => exact ih hnext

/-- Generation is the scan of all events. -/
theorem generate_pattern (hroot : e.root = .pattern id inputId e.variableName r) (prompt : String)
    (events : List TokenEvent) (b : Bench W) :
    ∃ p, e.generate (.start prompt) events b =
        (.ok (r.scan e.maxTokens events .start).1, p, b) ∧
      p.Shows id e.variableName r (r.scan e.maxTokens events .start).2 := by
  have hholds : ((ProgramState.start prompt).beginVariable e.variableName).Holds id
      e.variableName r "" := ProgramState.holds_start prompt
  have hjudge := judge_pattern hroot hholds.variable_eq hholds.evaluate_eq b
  obtain ⟨p, hconsume, hshows⟩ := consume_pattern (s := .start) (p := ⟨_, 0, 0, []⟩) hroot
    ⟨hholds, rfl, rfl, rfl⟩ events b
  refine ⟨p, ?_, hshows⟩
  rw [generate]
  simp only [hjudge]
  exact hconsume

/-- The end: the whole text is matched, and it is the final value if it matches. -/
theorem finish_pattern (hroot : e.root = .pattern id inputId e.variableName r)
    (hlimits : Pattern.checkLimits r.pattern = .ok ())
    (h : state.Holds id e.variableName r text) (reason : FinishReason) (b : Bench W) :
    ∃ final, final.find? e.variableName = some ⟨text, true⟩ ∧
      e.finish state reason b = (.ok ⟨final, reason, Pattern.matchesAll r.pattern text.toList,
        if Pattern.matchesAll r.pattern text.toList then some [(e.variableName, .string text)]
        else none⟩, b) := by
  have hvar : (state.finishVariable e.variableName).find? e.variableName = some ⟨text, true⟩ := by
    rw [ProgramState.finishVariable, ProgramState.find?_updateVariable_self, h.variable_eq]
    rfl
  have hmatch := Regex.fullMatch_eq hlimits text
  have hleaf : PatternLeaf.evaluate ⟨e.variableName, r⟩ id (state.finishVariable e.variableName) =
      .ok (.value (.bool (Pattern.matchesAll r.pattern text.toList))) := by
    simp only [PatternLeaf.evaluate, hvar, if_true, hmatch]
    rfl
  refine ⟨_, hvar, ?_⟩
  rw [finish, judge_pattern hroot hvar hleaf]
  cases hmatches : Pattern.matchesAll r.pattern text.toList with
  | false => rfl
  | true =>
      rw [hmatches] at hmatch
      have hvalues := Constraint.finalValues_pattern (W := W) id inputId hvar hmatch b.scheduler
      rw [← hroot] at hvalues
      simp only [Eval.truth?, Value.truthy, Option.getD_some, if_true, hvalues]
      rfl

/-- **A run under one pattern.** It is the scan of its events, and it accepts what has been
kept if the pattern matches all of it; the final value is the text kept. -/
theorem run_pattern (hroot : e.root = .pattern id inputId e.variableName r)
    (hlimits : Pattern.checkLimits r.pattern = .ok ()) (prompt : String)
    (events : List TokenEvent) (b : Bench W) {reason : FinishReason}
    (hscan : r.scan e.maxTokens events .start = (reason, s)) :
    ∃ final, final.find? e.variableName = some ⟨s.text, true⟩ ∧
      e.run (.start prompt) events b =
        (.ok ⟨final, reason, Pattern.matchesAll r.pattern s.text.toList,
          if Pattern.matchesAll r.pattern s.text.toList then
            some [(e.variableName, .string s.text)]
          else none⟩, s.emitted ++ [.finish s.streamId reason], b) := by
  obtain ⟨p, hgenerate, hshows⟩ := generate_pattern hroot prompt events b
  rw [hscan] at hgenerate hshows
  obtain ⟨final, hvar, hfinish⟩ := finish_pattern hroot hlimits hshows.holds reason b
  refine ⟨final, hvar, ?_⟩
  rw [run, hgenerate]
  simp only [hfinish, hshows.emitted, hshows.streamId]

end Engine

end Run

/-! ## What a scan keeps -/

/-- The texts that come with events, one after the other. -/
def piecesText (events : List TokenEvent) : List Char :=
  events.flatMap fun event => event.piece.toList

/-- How many events come with a text. -/
def pieceCount (events : List TokenEvent) : Nat := events.countP (·.piece != "")

/-- The texts that are reported, one after the other. -/
def reportedText (emitted : List EngineEvent) : List Char :=
  emitted.flatMap fun event =>
    match event with
    | .token _ _ text => text.toList
    | .finish _ _ | .error _ _ => []

namespace Scan

variable {s : Scan}

@[simp] theorem text_keep (s : Scan) (event : TokenEvent) :
    (s.keep event).text = s.text ++ event.piece := by
  rw [keep]
  split
  · rename_i hempty
    rw [hempty, String.append_empty, pass]
  · rfl

theorem kept_keep (s : Scan) (event : TokenEvent) (rest : List TokenEvent) :
    (s.keep event).kept + pieceCount rest = s.kept + pieceCount (event :: rest) := by
  rw [pieceCount, pieceCount, List.countP_cons, keep]
  by_cases hempty : event.piece = ""
  · simp [hempty, pass]
  · simp only [hempty, if_false, bne_iff_ne, ne_eq, not_false_eq_true, if_true]
    omega

/-- Exactly what is kept is reported. -/
theorem reportedText_keep (h : reportedText s.emitted = s.text.toList) (event : TokenEvent) :
    reportedText (s.keep event).emitted = (s.keep event).text.toList := by
  rw [reportedText] at h ⊢
  rw [keep]
  split
  · exact h
  · simp [h, String.toList_append]

end Scan

namespace Regex

variable {r : Regex} {s : Scan} {maxTokens : Nat} {events earlier : List TokenEvent}
  {last : TokenEvent}

/-- The texts reported make up the text kept. -/
theorem reportedText_scan (maxTokens : Nat) (events : List TokenEvent)
    (h : reportedText s.emitted = s.text.toList) :
    reportedText (r.scan maxTokens events s).2.emitted =
      (r.scan maxTokens events s).2.text.toList := by
  induction events generalizing s with
  | nil => exact h
  | cons event rest ih =>
      rw [Regex.scan]
      split
      · exact h
      · split
        · exact h
        · split
          · exact Scan.reportedText_keep h event
          · exact ih (Scan.reportedText_keep h event)

/-- The text kept is a beginning of the texts that came. -/
theorem text_scan_prefix (r : Regex) (maxTokens : Nat) (events : List TokenEvent) (s : Scan) :
    ∃ rest, s.text.toList ++ piecesText events =
      (r.scan maxTokens events s).2.text.toList ++ rest := by
  induction events generalizing s with
  | nil => exact ⟨[], rfl⟩
  | cons event rest ih =>
      have hkeep : s.text.toList ++ piecesText (event :: rest) =
          (s.keep event).text.toList ++ piecesText rest := by
        rw [Scan.text_keep, String.toList_append, List.append_assoc]
        rfl
      rw [Regex.scan]
      split
      · exact ⟨_, rfl⟩
      · split
        · exact ⟨_, rfl⟩
        · rw [hkeep]
          split
          · exact ⟨_, rfl⟩
          · exact ih (s.keep event)

/-- An event that is taken, and not refused, is kept. -/
theorem scan_cons_of_kept (hroom : s.kept < maxTokens) (hkept : r.refuses s last = false)
    (events : List TokenEvent) :
    r.scan maxTokens (last :: events) s =
      match last.finishReason with
      | some reason => (reason, s.keep last)
      | none => r.scan maxTokens events (s.keep last) := by
  simp only [Regex.scan, if_neg (Nat.not_le.2 hroom), hkept, Bool.false_eq_true, if_false]

theorem kept_of_scan_stop (h : (r.scan maxTokens (last :: events) s).1 = .stop) :
    s.kept < maxTokens ∧ r.refuses s last = false := by
  rw [Regex.scan] at h
  split at h
  · simp at h
  · split at h
    · simp at h
    · rename_i hroom hkept
      exact ⟨Nat.not_le.1 hroom, by simpa using hkept⟩

/-- A scan that an event stops has kept all texts if only the last event can do that. -/
theorem text_scan_of_stop (hearlier : ∀ event ∈ earlier, event.finishReason = none)
    (hstop : (r.scan maxTokens (earlier ++ [last]) s).1 = .stop) :
    (r.scan maxTokens (earlier ++ [last]) s).2.text.toList =
      s.text.toList ++ piecesText (earlier ++ [last]) := by
  induction earlier generalizing s with
  | nil =>
      obtain ⟨hroom, hkept⟩ := kept_of_scan_stop hstop
      have htext : (s.keep last).text.toList = s.text.toList ++ piecesText [last] := by
        simp [piecesText, String.toList_append]
      rw [List.nil_append, scan_cons_of_kept hroom hkept, ← htext]
      cases last.finishReason <;> rfl
  | cons event rest ih =>
      obtain ⟨hroom, hkept⟩ := kept_of_scan_stop hstop
      have hnone := hearlier event List.mem_cons_self
      have hscan : r.scan maxTokens (event :: (rest ++ [last])) s =
          r.scan maxTokens (rest ++ [last]) (s.keep event) := by
        rw [scan_cons_of_kept hroom hkept, hnone]
      rw [List.cons_append, hscan] at hstop ⊢
      rw [ih (fun e he => hearlier e (List.mem_cons_of_mem _ he)) hstop, Scan.text_keep,
        String.toList_append, List.append_assoc]
      rfl

/-- A pattern that can go on behind a text refuses no piece of it. -/
theorem refuses_eq_false {event : TokenEvent} {rest : List Char}
    (h : (Pattern.residual r.pattern (s.text.toList ++ (event.piece.toList ++ rest))).isSome) :
    r.refuses s event = false := by
  rw [← List.append_assoc, Pattern.residual_append] at h
  cases hres : Pattern.residual r.pattern (s.text.toList ++ event.piece.toList) with
  | none => simp [hres] at h
  | some q => simp [Regex.refuses, Regex.residual, String.toList_append, hres]

/-- A scan comes to the event that ends a stream if the pattern can go on behind all texts,
there is room for all of them, and the event comes with one. -/
theorem scan_stop_of_residual (hearlier : ∀ event ∈ earlier, event.finishReason = none)
    (hlast : last.finishReason = some .stop) (hpiece : last.piece ≠ "")
    (hroom : s.kept + pieceCount (earlier ++ [last]) ≤ maxTokens)
    (hres : (Pattern.residual r.pattern
      (s.text.toList ++ piecesText (earlier ++ [last]))).isSome) :
    (r.scan maxTokens (earlier ++ [last]) s).1 = .stop := by
  have hpos : ∀ rest, 0 < pieceCount (rest ++ [last]) := by
    intro rest
    rw [pieceCount, List.countP_pos_iff]
    exact ⟨last, List.mem_append_right _ List.mem_cons_self, by simpa using hpiece⟩
  have hfits : s.kept < maxTokens := by
    have hcount := hpos earlier
    omega
  induction earlier generalizing s with
  | nil =>
      have hkept : r.refuses s last = false := refuses_eq_false hres
      rw [List.nil_append, scan_cons_of_kept hfits hkept, hlast]
  | cons event rest ih =>
      have hkept : r.refuses s event = false := refuses_eq_false hres
      have hnext : (s.keep event).kept + pieceCount (rest ++ [last]) ≤ maxTokens := by
        rw [Scan.kept_keep]
        exact hroom
      rw [List.cons_append, scan_cons_of_kept hfits hkept, hearlier event List.mem_cons_self]
      refine ih (fun e he => hearlier e (List.mem_cons_of_mem _ he)) hnext ?_ ?_
      · rw [Scan.text_keep, String.toList_append, List.append_assoc]
        exact hres
      · have hcount := hpos rest
        omega

end Regex

/-! ## The run and the language -/

/-- **Every run under one pattern.** Whatever the stream brings, a run from a fresh state
succeeds and is the scan of its events: the scan gives the reason and the whole log, its text is
the text of the variable, and it is accepted, with the text as final value, exactly if the
pattern matches all of it. -/
theorem Engine.run_eq_scan {W : Type} {e : Engine W} {id inputId : NodeId} {source : String}
    {r : Regex} (hparse : Regex.parse source = .ok r)
    (hlimits : Pattern.checkLimits r.pattern = .ok ())
    (hroot : e.root = .pattern id inputId e.variableName r) (prompt : String)
    (events : List TokenEvent) (b : Bench W) :
    ∃ s outcome, r.scan e.maxTokens events .start = (outcome.reason, s) ∧
      e.run (.start prompt) events b =
        (.ok outcome, s.emitted ++ [.finish s.streamId outcome.reason], b) ∧
      outcome.state.find? e.variableName = some ⟨s.text, true⟩ ∧
      (outcome.accepted = true ↔ Pattern.Accepts r.pattern s.text.toList) ∧
      outcome.values =
        if outcome.accepted then some [(e.variableName, .string s.text)] else none := by
  rcases hscan : r.scan e.maxTokens events .start with ⟨reason, s⟩
  obtain ⟨final, hvar, hrun⟩ := run_pattern hroot hlimits prompt events b hscan
  have haccepts := Pattern.matchesAll_iff (Regex.wellFormed_of_parse hparse) s.text.toList
  exact ⟨s, _, rfl, hrun, hvar, haccepts, rfl⟩

namespace Sample

/-- An engine for the pattern of `leaf`, with room for three texts. -/
def engine : Engine Unit := ⟨leaf, "X", 3, 0⟩

/-- Events with a missing and an empty text, of which the last one brings what cannot follow. -/
def events : List TokenEvent :=
  [⟨5, 1, some "aa", none, none⟩, ⟨6, 2, none, none, none⟩, ⟨6, 3, some "", none, none⟩,
    ⟨7, 4, some "b", none, none⟩, ⟨8, 5, some "b", none, some .stop⟩]

end Sample

/-- A run that drops its last text and the reason that comes with it, and accepts the rest. -/
theorem Engine.run_eq_scan_sample : ∃ outcome,
    Sample.engine.run (.start "") Sample.events ⟨.empty, none, (), 0⟩ =
      (.ok outcome, [.token 5 1 "aa", .token 7 4 "b", .finish 8 .violated],
        ⟨.empty, none, (), 0⟩) ∧
      outcome.state.find? "X" = some ⟨"aab", true⟩ ∧
      (outcome.accepted = true ↔
        Pattern.Accepts [.repetition 1 none [.literal 'a'], .literal 'b'] "aab".toList) ∧
      outcome.values = if outcome.accepted then some [("X", .string "aab")] else none := by
  have hparse : Regex.parse "a+b" =
      .ok ⟨"a+b", [.repetition 1 none [.literal 'a'], .literal 'b']⟩ := by rfl
  have hroot : Sample.engine.root = .pattern ⟨"a+b", 1⟩ ⟨"X", 0⟩ Sample.engine.variableName
      ⟨"a+b", [.repetition 1 none [.literal 'a'], .literal 'b']⟩ := rfl
  obtain ⟨s, outcome, hscan, hrun, hvar, haccepts, hvalues⟩ :=
    Engine.run_eq_scan hparse (by rfl) hroot "" Sample.events ⟨.empty, none, (), 0⟩
  obtain ⟨hreason, rfl⟩ : FinishReason.violated = outcome.reason ∧
      ⟨"aab", 2, 8, [.token 5 1 "aa", .token 7 4 "b"]⟩ = s := Prod.mk.inj hscan
  rw [← hreason] at hrun
  exact ⟨outcome, hrun, hvar, haccepts, hvalues⟩

end Guided
