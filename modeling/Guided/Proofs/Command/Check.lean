import Guided.Command.Run
import Guided.Proofs.Engine.Scan
import Guided.Proofs.Token.Incremental
import Mathlib.Algebra.Module.Submodule.Lattice
import Mathlib.Data.List.Permutation

/-!
# Checks

A check sends a text through the tokenizer and back, and what comes back through an engine.
The events carry the text: the pieces make it up, only the last event ends the stream, and
it never comes without a piece, since the decoder always has some text left for the last id.
So an engine whose limit leaves room for all pieces comes to the end of the stream exactly
if the pattern can go on behind the whole text.

## Main definitions

* `Carries`: a stream of events that carries a text.
* `Regex.Answers`: how a check of a text ends.

## Main statements

* `eventsOfIds_spec`: the events of ids, with the decoder behind them.
* `tokenEvents_cases`: the events of a text, unless ids run out.
* `check_answers`: a check answers for every text and every limit.
-/
namespace Guided

/-! ## The events of a text -/

section Events

variable {t : Tokenizer} {d : IncrementalDecoder} {ids seen : List Nat} {given text : List Char}

theorem piecesText_checkEvent (id : Nat) (chunk : Option (List Char)) (events : List TokenEvent) :
    piecesText (checkEvent id chunk :: events) = chunk.getD [] ++ piecesText events := by
  cases chunk <;> simp [piecesText, TokenEvent.piece, checkEvent]

/-- The events of ids: none of them ends the stream, there is one for each id, they come with
what the decoder gives out, and before the last of them some text is still to come. -/
theorem eventsOfIds_spec (hbackend : t.backend = .byteLevel) (hknown : ∀ id ∈ ids, t.Known id)
    (h : d.Follows t seen given) :
    ∃ events d', eventsOfIds t d ids = .ok (events, d') ∧
      (∀ event ∈ events, event.finishReason = none) ∧ (events = [] ↔ ids = []) ∧
      d'.Follows t (seen ++ ids) (given ++ piecesText events) ∧
      ∀ earlier last, events = earlier ++ [last] →
        given ++ piecesText earlier ≠ t.textOf (seen ++ ids) := by
  induction ids generalizing d seen given with
  | nil =>
      refine ⟨[], d, rfl, by simp, by simp, ?_, by simp⟩
      simpa [piecesText] using h
  | cons id ids ih =>
      rw [List.forall_mem_cons] at hknown
      obtain ⟨chunk, d₁, hadd, hfollows⟩ := h.add hbackend hknown.1
      obtain ⟨events, d', hevents, hreasons, hnil, hfollows', hlast⟩ := ih hknown.2 hfollows
      refine ⟨checkEvent id chunk :: events, d', ?_, ?_, by simp, ?_, ?_⟩
      · simp only [eventsOfIds, hadd, hevents, Except.map]
      · rw [List.forall_mem_cons]
        exact ⟨rfl, hreasons⟩
      · rw [piecesText_checkEvent, ← List.append_assoc]
        simpa using hfollows'
      · intro earlier last heq
        cases earlier with
        | nil =>
            obtain ⟨-, hmore⟩ := List.cons.inj heq
            have hids : ids = [] := hnil.1 hmore
            rw [hids]
            simpa [piecesText] using h.ne_textOf id
        | cons first earlier =>
            obtain ⟨hfirst, hmore⟩ := List.cons.inj heq
            have hrest := hlast earlier last hmore
            rw [← hfirst, piecesText_checkEvent, ← List.append_assoc]
            simpa using hrest

/-- Only the last event is changed at the end. -/
theorem endEvents_concat (rest : Option (List Char)) (earlier : List TokenEvent)
    (last : TokenEvent) : ∃ final, endEvents rest (earlier ++ [last]) = earlier ++ [final] ∧
      final.finishReason = some .stop ∧
        final.piece.toList = last.piece.toList ++ rest.getD [] := by
  induction earlier with
  | nil =>
      refine ⟨_, rfl, rfl, ?_⟩
      cases rest <;> simp [TokenEvent.piece, String.toList_append]
  | cons event earlier ih =>
      obtain ⟨final, hend, hfinal⟩ := ih
      refine ⟨final, ?_, hfinal⟩
      have hcons : endEvents rest (event :: (earlier ++ [last])) =
          event :: endEvents rest (earlier ++ [last]) := by
        cases earlier <;> rfl
      rw [List.cons_append, hcons, hend, List.cons_append]

/-- A stream of events that carries a text: the pieces make it up, and the last event, if
there has to be one, comes with a piece and alone ends the stream. -/
structure Carries (events : List TokenEvent) (text : List Char) : Prop where
  pieces : piecesText events = text
  ends : text ≠ [] → ∃ earlier last, events = earlier ++ [last] ∧
    (∀ event ∈ earlier, event.finishReason = none) ∧ last.finishReason = some .stop ∧
      last.piece ≠ ""

/-- Events of ids that stand for a text carry it. -/
theorem carries_of_encode {t' : Tokenizer} (hencode : t.encode text = (.ok ids, t'))
    (hbackend : t'.backend = .byteLevel) (hreads : t'.Reads ids text) :
    ∃ events, tokenEvents t text = .ok events ∧ Carries events text := by
  have htext := hreads.textOf_eq
  obtain ⟨events, d, hevents, hreasons, hnil, hfollows, hlast⟩ :=
    eventsOfIds_spec hbackend hreads.known (IncrementalDecoder.follows_empty t')
  simp only [List.nil_append] at hfollows hlast
  simp only [tokenEvents, hencode, hevents]
  by_cases hids : ids = []
  · have hnothing : text = [] := by
      rw [← htext, hids]
      rfl
    rw [hnil.2 hids, hnothing]
    exact ⟨[], rfl, rfl, fun hne => absurd rfl hne⟩
  · have hevent : ¬ events = [] := fun hempty => hids (hnil.1 hempty)
    obtain ⟨earlier, last, hconcat⟩ := (List.eq_nil_or_concat' events).resolve_left hevent
    obtain ⟨rest, d', hflush, hgiven⟩ := hfollows.flush hbackend
    obtain ⟨final, hend, hstop, hpiece⟩ := endEvents_concat rest earlier last
    have hpieces : piecesText earlier ++ final.piece.toList = text := by
      rw [hpiece, ← htext, ← hgiven, hconcat]
      simp [piecesText]
    refine ⟨earlier ++ [final], ?_, ?_, ?_⟩
    · simp only [hflush, hconcat, hend]
      rw [if_neg (by simp)]
    · rw [← hpieces]
      simp [piecesText]
    · intro _
      refine ⟨earlier, final, rfl, ?_, hstop, ?_⟩
      · intro event hmem
        exact hreasons event (hconcat ▸ List.mem_append_left _ hmem)
      · intro hempty
        rw [hempty, String.toList_empty, List.append_nil, ← htext] at hpieces
        exact hlast earlier last hconcat hpieces

/-- The events of a text carry it, unless there are more markers than ids for them. -/
theorem tokenEvents_cases (hbackend : t.backend = .byteLevel) (hbase : 256 ≤ t.special.base)
    (hsound : t.special.Sound) (text : List Char) :
    (t.special.HasRoom (markerNames text) ∧
      ∃ events, tokenEvents t text = .ok events ∧ Carries events text) ∨
    (¬ t.special.HasRoom (markerNames text) ∧
      tokenEvents t text = .error (.token .exhausted)) := by
  rcases Tokenizer.encodeSegments_cases hbackend hsound (segments text) with
    ⟨hroom, ids, t', hencode⟩ | ⟨hfull, hencode⟩
  · left
    obtain ⟨hbackend', -, hlater⟩ := Tokenizer.reads_of_encodeSegments hbackend hbase hencode
    have hreads := hlater t' (SpecialTokens.extends_refl _)
    rw [flatMap_text_segments] at hreads
    exact ⟨hroom, carries_of_encode hencode hbackend' hreads⟩
  · right
    refine ⟨hfull, ?_⟩
    rcases hanswer : t.encodeSegments (segments text) with ⟨answer, t'⟩
    rw [hanswer] at hencode
    obtain rfl : answer = .error (.token .exhausted) := hencode
    rw [tokenEvents, Tokenizer.encode, hanswer]

end Events

/-! ## The run -/

/-- How a check over the events of a text ends: with the text kept, which is a beginning of the
text and the text reported, and which is accepted if the pattern matches all of it. With room
for all pieces, a check of some text comes to the end of the stream and accepts exactly if the
pattern matches the text, which is then the value of the variable. -/
structure Regex.Answers (r : Regex) (t : String) (maxTokens : Nat) (events : List TokenEvent)
    (outcome : EngineOutcome) (emitted : List EngineEvent) (kept : String) : Prop where
  text : outcome.state.find? checkVariable = some ⟨kept, true⟩
  reported : reportedText emitted = kept.toList
  finished : ∃ tokens streamId, emitted = tokens ++ [.finish streamId outcome.reason]
  beginning : ∃ rest, t = kept ++ rest
  accepted : outcome.accepted = true ↔ Pattern.Accepts r.pattern kept.toList
  complete : t ≠ "" → pieceCount events ≤ maxTokens →
    (outcome.reason = .stop ∧ outcome.accepted = true ↔ Pattern.Accepts r.pattern t.toList) ∧
      (Pattern.Accepts r.pattern t.toList → outcome.values = some [(checkVariable, .string t)])

section Scan

variable {r : Regex} {events : List TokenEvent} {t : String}

/-- Where the events of a text stop a scan, they have all been kept. -/
theorem Carries.text_of_stop (h : Carries events t.toList) (r : Regex) (maxTokens : Nat)
    (hne : t ≠ "") (hstop : (r.scan maxTokens events .start).1 = .stop) :
    (r.scan maxTokens events .start).2.text = t := by
  obtain ⟨earlier, last, rfl, hearlier, -, -⟩ := h.ends (by simpa using hne)
  rw [← String.toList_inj, Regex.text_scan_of_stop hearlier hstop, h.pieces]
  rfl

/-- A text that the pattern matches is scanned to its end. -/
theorem Carries.stop_of_accepts (h : Carries events t.toList) (hr : Pattern.WellFormed r.pattern)
    (maxTokens : Nat) (hne : t ≠ "") (hroom : pieceCount events ≤ maxTokens)
    (haccepts : Pattern.Accepts r.pattern t.toList) :
    (r.scan maxTokens events .start).1 = .stop := by
  obtain ⟨earlier, last, rfl, hearlier, hlast, hpiece⟩ := h.ends (by simpa using hne)
  have hres : (Pattern.residual r.pattern t.toList).isSome := by
    rw [Option.isSome_iff_ne_none]
    intro hnone
    have hnot := Pattern.not_accepts_of_residual_eq_none hr hnone []
    rw [List.append_nil] at hnot
    exact hnot haccepts
  refine Regex.scan_stop_of_residual hearlier hlast hpiece ?_ ?_
  · simpa [Scan.start] using hroom
  · rw [h.pieces]
    exact hres

/-- A check over events that carry a text. -/
theorem checkRun_of_carries (hr : Pattern.WellFormed r.pattern)
    (hlimits : Pattern.checkLimits r.pattern = .ok ()) (h : Carries events t.toList)
    (maxTokens : Nat) :
    ∃ outcome emitted bench kept, checkRun r maxTokens events = (.ok outcome, emitted, bench) ∧
      r.Answers t maxTokens events outcome emitted kept := by
  have hroot : (checkEngine r maxTokens).root =
      .pattern ⟨checkVariable, 1⟩ ⟨checkVariable, 0⟩ checkVariable r := rfl
  have htext := h.text_of_stop r maxTokens
  have hstop := h.stop_of_accepts hr maxTokens
  have hreported := Regex.reportedText_scan (r := r) (s := .start) maxTokens events rfl
  obtain ⟨rest, hprefix⟩ := r.text_scan_prefix maxTokens events .start
  rcases hscan : r.scan maxTokens events .start with ⟨reason, s⟩
  rw [hscan] at htext hstop hreported hprefix
  obtain ⟨final, hvar, hrun⟩ := Engine.run_pattern hroot hlimits "" events emptyBench hscan
  have hmatches := Pattern.matchesAll_iff hr s.text.toList
  refine ⟨_, _, _, s.text, hrun, hvar, ?_, ⟨_, _, rfl⟩, ⟨String.ofList rest, ?_⟩, hmatches, ?_⟩
  · rw [← hreported]
    simp [reportedText]
  · rw [h.pieces] at hprefix
    rw [← String.toList_inj, String.toList_append, String.toList_ofList, ← hprefix]
    rfl
  · intro hne hroom
    constructor
    · constructor
      · intro hends
        rw [← htext hne hends.1, ← hmatches]
        exact hends.2
      · intro haccepts
        have hends := hstop hne hroom haccepts
        refine ⟨hends, hmatches.2 ?_⟩
        rw [htext hne hends]
        exact haccepts
    · intro haccepts
      have hkept := htext hne (hstop hne hroom haccepts)
      rw [hkept] at hmatches ⊢
      exact if_pos (hmatches.2 haccepts)

end Scan

/-- **A check answers.** The byte-level tokenizer takes every text apart and puts it together
again, unless the text has more different markers than there are ids. So a check with a pattern
that can be matched as a whole ends without an error, whatever its limit. It keeps and reports
a beginning of the text, and accepts it if the pattern matches all of it. With room for the
pieces of a text that is not empty, it comes to the end of the stream and accepts exactly if
the pattern matches the text, which is then the value of the variable. -/
theorem check_answers {source : String} {r : Regex} (h : Regex.parse source = .ok r)
    (hlimits : Pattern.checkLimits r.pattern = .ok ()) (t : String) :
    ∃ tokenizer, Tokenizer.create .byteLevel = .ok tokenizer ∧
      ((markerNames t.toList).toFinset.card ≤ word32Bound - 1000 →
        ∃ events, tokenEvents tokenizer t.toList = .ok events ∧
          ∀ maxTokens, ∃ outcome emitted bench kept,
            checkRun r maxTokens events = (.ok outcome, emitted, bench) ∧
              r.Answers t maxTokens events outcome emitted kept) ∧
      (word32Bound - 1000 < (markerNames t.toList).toFinset.card →
        tokenEvents tokenizer t.toList = .error (.token .exhausted)) := by
  have hcreate : Tokenizer.create .byteLevel = .ok ⟨.byteLevel, ⟨1000, []⟩⟩ := by rfl
  have hsound : SpecialTokens.Sound ⟨1000, []⟩ := ⟨List.nodup_nil, by decide⟩
  have hroom : SpecialTokens.HasRoom ⟨1000, []⟩ (markerNames t.toList) ↔
      (markerNames t.toList).toFinset.card ≤ word32Bound - 1000 := by
    simp only [SpecialTokens.HasRoom, List.nil_append, word32Bound]
    omega
  refine ⟨_, hcreate, ?_⟩
  rw [← Nat.not_le, ← hroom]
  rcases tokenEvents_cases (t := ⟨.byteLevel, ⟨1000, []⟩⟩) rfl (by decide) hsound t.toList with
    ⟨hfits, events, hevents, hcarries⟩ | ⟨hfull, herror⟩
  · refine ⟨fun _ => ⟨events, hevents, ?_⟩, fun hfull => absurd hfits hfull⟩
    exact checkRun_of_carries (Regex.wellFormed_of_parse h) hlimits hcarries
  · exact ⟨fun hfits => absurd hfits hfull, fun _ => herror⟩

/-- An accented letter and what markers are made of. -/
def Regex.marked : Regex :=
  ⟨"é[</:>a-z]+", [.literal 'é', .repetition 1 none
    [.oneOf [.single '<', .single '/', .single ':', .single '>', .range 'a' 'z']]]⟩

/-- A check of a text with a character of two bytes and a marker. -/
theorem check_answers_marked :
    ∃ tokenizer events, Tokenizer.create .byteLevel = .ok tokenizer ∧
      tokenEvents tokenizer "é<weave:x/>".toList = .ok events ∧
        ∀ maxTokens, ∃ outcome emitted bench kept,
          checkRun .marked maxTokens events = (.ok outcome, emitted, bench) ∧
            Regex.marked.Answers "é<weave:x/>" maxTokens events outcome emitted kept := by
  have hparse : Regex.parse "é[</:>a-z]+" = .ok .marked := by cbv
  have hlimits : Pattern.checkLimits Regex.marked.pattern = .ok () := by cbv
  have hnames : markerNames "é<weave:x/>".toList = ["weave:x"] := by decide +kernel
  obtain ⟨tokenizer, hcreate, hanswers, -⟩ := check_answers hparse hlimits "é<weave:x/>"
  obtain ⟨events, hevents, hruns⟩ := hanswers (by rw [hnames]; decide)
  exact ⟨tokenizer, events, hcreate, hevents, hruns⟩

end Guided
