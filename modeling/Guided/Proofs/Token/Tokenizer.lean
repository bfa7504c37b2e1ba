import Guided.Proofs.Text.Utf8
import Guided.Token.Tokenizer
import Mathlib.Data.Finset.Card
import Mathlib.Data.Finset.Dedup

/-!
# Texts and their token ids

Cutting a text at its markers loses nothing, and neither do the ids of the parts: every
special id goes on standing for its name as long as the registry only grows, and ids of
bytes are read as bytes. So the ids of a text stand for the text, now and later. Encoding
fails only where the text has more different markers than there are ids.

## Main definitions

* `Segment.text`: a part as it stood in the text.
* `SpecialTokens.Extends`: a registry that has grown.
* `Tokenizer.readId`, `Tokenizer.textOf`: decoding as a reader.
* `Tokenizer.Reads`: ids that are read as a text with nothing left over.

## Main statements

* `flatMap_text_segments`: the parts make up the text.
* `Tokenizer.decode_eq_textOf`: decoding is the reader.
* `Tokenizer.reads_of_encodeSegments`: what the ids of parts stand for.
* `Tokenizer.encodeSegments_cases`: when encoding succeeds.
-/
namespace Guided

/-! ## The parts of a text -/

/-- A part as it stood in the text. -/
def Segment.text : Segment → List Char
  | .plain s => s
  | .marker name => Tokenizer.markerText (markerName name)

/-- The special name of a part that is a marker. -/
def Segment.name? : Segment → Option String
  | .plain _ => none
  | .marker name => some (markerName name)

/-- The special names of the markers in a text, in order. -/
def markerNames (s : List Char) : List String := (segments s).filterMap Segment.name?

theorem toList_markerName (name : List Char) :
    (markerName name).toList = "weave:".toList ++ name := by
  unfold markerName
  exact String.toList_ofList

theorem text_marker (name : List Char) :
    (Segment.marker name).text = markerOpen ++ name ++ markerClose := by
  have hopen : markerOpen = '<' :: "weave:".toList := by decide +kernel
  calc (Segment.marker name).text
      = '<' :: (markerName name).toList ++ markerClose := rfl
    _ = '<' :: ("weave:".toList ++ name) ++ markerClose := by rw [toList_markerName]
    _ = markerOpen ++ name ++ markerClose := by
      rw [hopen, List.cons_append, List.cons_append, List.cons_append]

theorem flatMap_text_plainSegment (s : List Char) : (plainSegment s).flatMap Segment.text = s := by
  cases s with
  | nil => rfl
  | cons c s => simp [plainSegment, Segment.text]

/-- The parts make up the text. -/
theorem flatMap_text_segments (s : List Char) : (segments s).flatMap Segment.text = s := by
  rw [segments]
  split
  · exact flatMap_text_plainSegment s
  · rename_i before inside hopen
    have hs := eq_append_of_splitAt? hopen
    split
    · exact flatMap_text_plainSegment s
    · rename_i name rest hclose
      have hinside := eq_append_of_splitAt? hclose
      have hshorter := length_lt_of_splitAt? (by decide) hopen
      split
      · have hrest := length_lt_of_splitAt? (by decide) hclose
        rw [List.flatMap_append, List.flatMap_cons, flatMap_text_plainSegment, text_marker,
          flatMap_text_segments rest, hs, hinside]
        simp only [List.append_assoc]
      · rw [List.flatMap_cons, Segment.text, flatMap_text_segments inside, ← hs]
termination_by s.length
decreasing_by all_goals omega

/-! ## Special ids -/

namespace SpecialTokens

/-- A registry that has grown: ids count from the same number, and names keep their places. -/
def Extends (t later : SpecialTokens) : Prop := later.base = t.base ∧ t.names <+: later.names

variable {t later : SpecialTokens}

theorem extends_refl (t : SpecialTokens) : t.Extends t := ⟨rfl, List.prefix_refl _⟩

theorem Extends.trans {last : SpecialTokens} (h : t.Extends later) (h' : later.Extends last) :
    t.Extends last := ⟨h'.1.trans h.1, h.2.trans h'.2⟩

/-- An id goes on standing for its name. -/
theorem Extends.nameOf? (h : t.Extends later) {id : Nat} {name : String}
    (hid : t.nameOf? id = some name) : later.nameOf? id = some name := by
  rw [SpecialTokens.nameOf?] at hid ⊢
  rw [h.1]
  split at hid
  · rename_i hbase
    obtain ⟨more, hmore⟩ := h.2
    obtain ⟨hplace, -⟩ := List.getElem?_eq_some_iff.1 hid
    rw [if_pos hbase, ← hmore, List.getElem?_append_left hplace]
    exact hid
  · simp at hid

theorem nameOf?_of_lt {id : Nat} (h : id < t.base) : t.nameOf? id = none := by
  rw [nameOf?, if_neg (Nat.not_le.2 h)]

/-- An id that is given stands for its name. -/
theorem idFor_spec {name : String} {id : Nat} (h : t.idFor name = .ok (id, later)) :
    t.Extends later ∧ later.nameOf? id = some name := by
  rw [idFor] at h
  split at h
  · rename_i hknown
    obtain ⟨rfl, rfl⟩ : t.base + t.names.idxOf name = id ∧ t = later := by simpa using h
    have hplace : t.names[t.names.idxOf name]? = some name :=
      List.getElem?_idxOf (by simpa using hknown)
    refine ⟨extends_refl t, ?_⟩
    rw [nameOf?, if_pos (Nat.le_add_right _ _), Nat.add_sub_cancel_left, hplace]
  · dsimp only at h
    split at h
    · obtain ⟨rfl, rfl⟩ : t.base + t.names.length = id ∧
          { t with names := t.names ++ [name] } = later := by simpa using h
      refine ⟨⟨rfl, List.prefix_append _ _⟩, ?_⟩
      rw [nameOf?, if_pos (Nat.le_add_right _ _), Nat.add_sub_cancel_left,
        List.getElem?_concat_length]
    · simp at h

/-- Names are different, and all of them have ids. -/
structure Sound (t : SpecialTokens) : Prop where
  nodup : t.names.Nodup
  bounded : t.base + t.names.length ≤ word32Bound

/-- There are ids for all of these names as well. -/
def HasRoom (t : SpecialTokens) (names : List String) : Prop :=
  t.base + (t.names ++ names).toFinset.card ≤ word32Bound

theorem Sound.hasRoom_nil (h : t.Sound) : t.HasRoom [] := by
  rw [HasRoom, List.append_nil, List.toFinset_card_of_nodup h.nodup]
  exact h.bounded

theorem hasRoom_cons_of_mem {name : String} (h : name ∈ t.names) (names : List String) :
    t.HasRoom (name :: names) ↔ t.HasRoom names := by
  have hsame : (t.names ++ name :: names).toFinset = (t.names ++ names).toFinset := by
    ext other
    simp only [List.mem_toFinset, List.mem_append, List.mem_cons]
    constructor
    · rintro (hother | rfl | hother)
      · exact .inl hother
      · exact .inl h
      · exact .inr hother
    · rintro (hother | hother)
      · exact .inl hother
      · exact .inr (.inr hother)
  rw [HasRoom, hsame, HasRoom]

/-- A name gets an id exactly if there is room for it, whatever other names are to come. -/
theorem Sound.idFor_cases (h : t.Sound) (name : String) (names : List String) :
    (∃ id later, t.idFor name = .ok (id, later) ∧ later.Sound ∧
      (t.HasRoom (name :: names) ↔ later.HasRoom names)) ∨
    (t.idFor name = .error (.token .exhausted) ∧ ¬ t.HasRoom (name :: names)) := by
  by_cases hknown : name ∈ t.names
  · left
    refine ⟨t.base + t.names.idxOf name, t, ?_, h, hasRoom_cons_of_mem hknown names⟩
    rw [idFor, if_pos (by simpa using hknown)]
  · have hlonger : (t.names ++ [name]).Nodup := by
      rw [List.nodup_append]
      refine ⟨h.nodup, List.nodup_singleton name, ?_⟩
      intro other hother last hlast
      rw [List.mem_singleton] at hlast
      rintro rfl
      exact hknown (hlast ▸ hother)
    have hcount : (t.names ++ [name]).toFinset.card = t.names.length + 1 := by
      rw [List.toFinset_card_of_nodup hlonger, List.length_append, List.length_singleton]
    rw [idFor, if_neg (by simpa using hknown)]
    by_cases hroom : t.base + t.names.length < word32Bound
    · left
      refine ⟨_, _, if_pos hroom, ⟨hlonger, ?_⟩, ?_⟩
      · simp only [List.length_append, List.length_singleton]
        omega
      · simp only [HasRoom, List.append_assoc, List.singleton_append]
    · right
      refine ⟨if_neg hroom, ?_⟩
      have hmore : (t.names ++ [name]).toFinset.card ≤ (t.names ++ name :: names).toFinset.card := by
        apply Finset.card_le_card
        intro other hother
        simp only [List.mem_toFinset, List.mem_append, List.mem_cons, List.not_mem_nil,
          or_false] at hother ⊢
        rcases hother with hother | hother
        · exact .inl hother
        · exact .inr (.inl hother)
      rw [HasRoom]
      omega

end SpecialTokens

/-! ## Decoding as a reader -/

namespace Tokenizer

open Utf8State

/-- Read one id: a special one as its marker, behind what an unfinished character leaves, and
any other as a byte. -/
def readId (t : Tokenizer) (state : Utf8State) (id : Nat) : List Char × Utf8State :=
  match t.special.nameOf? id with
  | some name => (finish state ++ markerText name, none)
  | none => read state id

/-- The text of ids that are read to their end. -/
def textOf (t : Tokenizer) (ids : List Nat) : List Char :=
  outputFrom t.readId none ids ++ finish (stateFrom t.readId none ids)

/-- An id that a byte-level tokenizer can decode. -/
def Known (t : Tokenizer) (id : Nat) : Prop := (t.special.nameOf? id).isSome ∨ id < 256

variable {t : Tokenizer} {state : Utf8State} {ids : List Nat}

/-- Ids that are not special are read as bytes. -/
theorem read_plain (t : Tokenizer) (state : Utf8State)
    (h : ∀ id ∈ ids, t.special.nameOf? id = none) :
    outputFrom t.readId state ids = outputFrom read state ids ∧
      stateFrom t.readId state ids = stateFrom read state ids := by
  induction ids generalizing state with
  | nil => exact ⟨rfl, rfl⟩
  | cons id ids ih =>
      rw [List.forall_mem_cons] at h
      have hread : t.readId state id = read state id := by rw [readId, h.1]
      rw [outputFrom_cons, stateFrom_cons, outputFrom_cons, stateFrom_cons, hread]
      obtain ⟨houtput, hstate⟩ := ih (read state id).2 h.2
      exact ⟨by rw [houtput], hstate⟩

theorem decodeRun_eq (hbackend : t.backend = .byteLevel) (h : ∀ id ∈ ids, id < 256) :
    t.decodeRun ids = .ok (decodeLossy ids) := by
  have hfind : ids.find? (fun id => decide (255 < id)) = none := by
    rw [List.find?_eq_none]
    intro id hid
    have hbyte := h id hid
    simp only [decide_eq_true_eq]
    omega
  rw [decodeRun]
  split
  · rename_i hempty
    rw [List.isEmpty_iff.1 hempty]
    rfl
  · simp only [hbackend, TokenBackend.byteLevel, TokenBackend.decodeBytes, hfind]

/-- A special id ends what an unfinished character leaves, and reading starts again. -/
theorem textOf_append_special {id : Nat} {name : String} (h : t.special.nameOf? id = some name)
    (run : List Nat) : t.textOf (run ++ id :: ids) =
      t.textOf run ++ markerText name ++ t.textOf ids := by
  have hread : ∀ state, t.readId state id = (finish state ++ markerText name, none) := by
    intro state
    rw [readId, h]
  simp only [textOf, outputFrom_append, stateFrom_append, outputFrom_cons, stateFrom_cons, hread,
    List.append_assoc]

/-- Behind a run of bytes, decoding goes on as the reader does. -/
theorem decodeAfter_eq (hbackend : t.backend = .byteLevel) {run : List Nat}
    (hrun : ∀ id ∈ run, t.special.nameOf? id = none ∧ id < 256)
    (hids : ∀ id ∈ ids, t.Known id) : t.decodeAfter run ids = .ok (t.textOf (run ++ ids)) := by
  induction ids generalizing run with
  | nil =>
      obtain ⟨houtput, hstate⟩ := read_plain t none fun id hid => (hrun id hid).1
      rw [decodeAfter, decodeRun_eq hbackend fun id hid => (hrun id hid).2, List.append_nil, textOf,
        houtput, hstate, decodeLossy, readAll_eq]
  | cons id ids ih =>
      rw [List.forall_mem_cons] at hids
      rw [decodeAfter]
      cases hname : t.special.nameOf? id with
      | none =>
          have hbyte : id < 256 := by simpa [Known, hname] using hids.1
          have hlonger : ∀ d ∈ run ++ [id], t.special.nameOf? d = none ∧ d < 256 := by
            rw [List.forall_mem_append, List.forall_mem_singleton]
            exact ⟨hrun, hname, hbyte⟩
          have hrest := ih hlonger hids.2
          rw [List.append_assoc, List.singleton_append] at hrest
          exact hrest
      | some name =>
          have hplain : t.decodeAfter [] ids = .ok (t.textOf ids) := ih (by simp) hids.2
          obtain ⟨houtput, hstate⟩ :=
            read_plain t none fun id hid => (hrun id hid).1
          have htext : decodeLossy run = t.textOf run := by
            rw [decodeLossy, readAll_eq, textOf, houtput, hstate]
          simp only [decodeRun_eq hbackend fun id hid => (hrun id hid).2, hplain, htext,
            textOf_append_special hname, bind, Except.bind, pure, Except.pure]

/-- Decoding is the reader, for ids that can be decoded. -/
theorem decode_eq_textOf (hbackend : t.backend = .byteLevel) (hids : ∀ id ∈ ids, t.Known id) :
    t.decode ids = .ok (t.textOf ids) := by
  exact decodeAfter_eq hbackend (by simp) hids

/-- The ids can be decoded, and they are read as this text with nothing left over. -/
structure Reads (t : Tokenizer) (ids : List Nat) (text : List Char) : Prop where
  known : ∀ id ∈ ids, t.Known id
  output : outputFrom t.readId none ids = text
  state : stateFrom t.readId none ids = none

variable {others : List Nat} {text more : List Char}

theorem reads_nil (t : Tokenizer) : t.Reads [] [] := ⟨by simp, rfl, rfl⟩

theorem Reads.append (h : t.Reads ids text) (h' : t.Reads others more) :
    t.Reads (ids ++ others) (text ++ more) := by
  refine ⟨?_, ?_, ?_⟩
  · rw [List.forall_mem_append]
    exact ⟨h.known, h'.known⟩
  · rw [outputFrom_append, h.state, h.output, h'.output]
  · rw [stateFrom_append, h.state, h'.state]

theorem Reads.textOf_eq (h : t.Reads ids text) : t.textOf ids = text := by
  rw [textOf, h.output, h.state]
  exact List.append_nil text

/-- A plain text, where no special id is a byte. -/
theorem reads_utf8Bytes (h : 256 ≤ t.special.base) (s : List Char) : t.Reads (utf8Bytes s) s := by
  have hnone : ∀ id ∈ utf8Bytes s, t.special.nameOf? id = none := by
    intro id hid
    have hbyte := lt_of_mem_utf8Bytes hid
    exact SpecialTokens.nameOf?_of_lt (by omega)
  obtain ⟨houtput, hstate⟩ := read_plain t none hnone
  refine ⟨fun id hid => .inr (lt_of_mem_utf8Bytes hid), ?_, ?_⟩
  · rw [houtput, output_utf8Bytes]
  · rw [hstate, state_utf8Bytes]

theorem reads_special {id : Nat} {name : String} (h : t.special.nameOf? id = some name) :
    t.Reads [id] (markerText name) := by
  have hread : t.readId none id = (markerText name, none) := by
    rw [readId, h]
    rfl
  refine ⟨?_, ?_, ?_⟩
  · rw [List.forall_mem_singleton]
    exact .inl (by rw [h]; rfl)
  · rw [outputFrom_cons, hread, outputFrom_nil, List.append_nil]
  · rw [stateFrom_cons, hread, stateFrom_nil]

/-! ## Encoding -/

section Encoding

variable {t' : Tokenizer} {segs : List Segment} {name : List Char}

/-- The ids of a plain part are its bytes. -/
theorem encodeSegments_plain (hbackend : t.backend = .byteLevel) (s : List Char)
    (segs : List Segment) : t.encodeSegments (.plain s :: segs) =
      ((t.encodeSegments segs).1.map (utf8Bytes s ++ ·), (t.encodeSegments segs).2) := by
  have hbytes : t.backend.encode s = .ok (utf8Bytes s) := by
    rw [hbackend]
    rfl
  rw [encodeSegments, hbytes]

/-- A marker has the id of its name. -/
theorem encodeSegments_marker {id : Nat} {special : SpecialTokens}
    (hid : t.special.idFor (markerName name) = .ok (id, special)) (segs : List Segment) :
    t.encodeSegments (.marker name :: segs) =
      ((encodeSegments { t with special } segs).1.map (id :: ·),
        (encodeSegments { t with special } segs).2) := by
  rw [encodeSegments, hid]

theorem encodeSegments_marker_of_error {e : Error}
    (hid : t.special.idFor (markerName name) = .error e) (segs : List Segment) :
    t.encodeSegments (.marker name :: segs) = (.error e, t) := by
  rw [encodeSegments, hid]

theorem exists_of_map_eq_ok {f : List Nat → List Nat} {answer : Except Error (List Nat) × Tokenizer}
    (h : (answer.1.map f, answer.2) = (.ok ids, t')) :
    ∃ more, answer = (.ok more, t') ∧ f more = ids := by
  obtain ⟨_ | more, after⟩ := answer
  · simp [Except.map] at h
  · obtain ⟨hids, rfl⟩ : f more = ids ∧ after = t' := by simpa [Except.map] using h
    exact ⟨more, rfl, hids⟩

/-- What the ids of parts stand for, in every registry that has grown from the one they were
given in: the parts as they stood in the text. -/
theorem reads_of_encodeSegments (hbackend : t.backend = .byteLevel) (hbase : 256 ≤ t.special.base)
    (h : t.encodeSegments segs = (.ok ids, t')) :
    t'.backend = .byteLevel ∧ t.special.Extends t'.special ∧
      ∀ later : Tokenizer, t'.special.Extends later.special →
        later.Reads ids (segs.flatMap Segment.text) := by
  induction segs generalizing t ids with
  | nil =>
      obtain ⟨rfl, rfl⟩ : [] = ids ∧ t = t' := by simpa [encodeSegments] using h
      exact ⟨hbackend, SpecialTokens.extends_refl _, fun later _ => reads_nil later⟩
  | cons seg segs ih =>
      cases seg with
      | plain s =>
          rw [encodeSegments_plain hbackend] at h
          obtain ⟨more, hmore, rfl⟩ := exists_of_map_eq_ok h
          obtain ⟨hbackend', hextends, hlater⟩ := ih hbackend hbase hmore
          refine ⟨hbackend', hextends, ?_⟩
          intro later hgrown
          have hsame : later.special.base = t.special.base := (hextends.trans hgrown).1
          have hplain : later.Reads (utf8Bytes s) s := reads_utf8Bytes (by omega) s
          exact hplain.append (hlater later hgrown)
      | marker name =>
          cases hid : t.special.idFor (markerName name) with
          | error e => simp [encodeSegments_marker_of_error hid] at h
          | ok given =>
              obtain ⟨id, special⟩ := given
              obtain ⟨hfirst, hname⟩ := SpecialTokens.idFor_spec hid
              rw [encodeSegments_marker hid] at h
              obtain ⟨more, hmore, rfl⟩ := exists_of_map_eq_ok h
              have hbase' : 256 ≤ special.base := by
                rw [hfirst.1]
                exact hbase
              obtain ⟨hbackend', hextends, hlater⟩ :=
                ih (t := { t with special }) hbackend hbase' hmore
              refine ⟨hbackend', hfirst.trans hextends, ?_⟩
              intro later hgrown
              have hmarker := reads_special ((hextends.trans hgrown).nameOf? hname)
              exact hmarker.append (hlater later hgrown)

/-- Encoding succeeds as long as there are ids, whatever other names are to come: what it
leaves is room for these. -/
theorem encodeSegments_room (hbackend : t.backend = .byteLevel) (hsound : t.special.Sound)
    (segs : List Segment) (more : List String) :
    (∃ ids t', t.encodeSegments segs = (.ok ids, t') ∧ t'.special.Sound ∧
      (t.special.HasRoom (segs.filterMap Segment.name? ++ more) ↔ t'.special.HasRoom more)) ∨
    ((t.encodeSegments segs).1 = .error (.token .exhausted) ∧
      ¬ t.special.HasRoom (segs.filterMap Segment.name? ++ more)) := by
  induction segs generalizing t with
  | nil => exact .inl ⟨[], t, by rw [encodeSegments], hsound, Iff.rfl⟩
  | cons seg segs ih =>
      cases seg with
      | plain s =>
          have hnames : (Segment.plain s :: segs).filterMap Segment.name? =
              segs.filterMap Segment.name? := by
            rw [List.filterMap_cons_none]
            rfl
          rw [hnames, encodeSegments_plain hbackend]
          rcases ih hbackend hsound with ⟨ids, t', hrest, hroom⟩ | ⟨hrest, hfull⟩
          · exact .inl ⟨utf8Bytes s ++ ids, t', by rw [hrest]; rfl, hroom⟩
          · exact .inr ⟨by rw [hrest]; rfl, hfull⟩
      | marker name =>
          have hnames : (Segment.marker name :: segs).filterMap Segment.name? =
              markerName name :: segs.filterMap Segment.name? := by
            rw [List.filterMap_cons_some]
            rfl
          rw [hnames, List.cons_append]
          rcases hsound.idFor_cases (markerName name) (segs.filterMap Segment.name? ++ more) with
            ⟨id, special, hid, hsound', hiff⟩ | ⟨hid, hfull⟩
          · rw [encodeSegments_marker hid, hiff]
            rcases ih (t := { t with special }) hbackend hsound' with
              ⟨ids, t', hrest, hroom⟩ | ⟨hrest, hfull⟩
            · exact .inl ⟨id :: ids, t', by rw [hrest]; rfl, hroom⟩
            · exact .inr ⟨by rw [hrest]; rfl, hfull⟩
          · exact .inr ⟨by rw [encodeSegments_marker_of_error hid], hfull⟩

/-- Encoding succeeds exactly if there is an id for every marker; otherwise ids have run
out. -/
theorem encodeSegments_cases (hbackend : t.backend = .byteLevel) (hsound : t.special.Sound)
    (segs : List Segment) :
    (t.special.HasRoom (segs.filterMap Segment.name?) ∧
      ∃ ids t', t.encodeSegments segs = (.ok ids, t')) ∨
    (¬ t.special.HasRoom (segs.filterMap Segment.name?) ∧
      (t.encodeSegments segs).1 = .error (.token .exhausted)) := by
  have hcases := encodeSegments_room hbackend hsound segs []
  rw [List.append_nil] at hcases
  rcases hcases with ⟨ids, t', hids, hsound', hroom⟩ | ⟨herror, hfull⟩
  · exact .inl ⟨hroom.2 hsound'.hasRoom_nil, ids, t', hids⟩
  · exact .inr ⟨hfull, herror⟩

end Encoding

end Tokenizer

end Guided
