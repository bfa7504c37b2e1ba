import Guided.Proofs.Token.Tokenizer

/-!
# Texts that are encoded one after the other

A tokenizer goes on from text to text with the special names that it has met so far. It learns
new ones and forgets none, also where the ids run out in the middle of a text. So the ids of a
text are decoded to this text from then on, however many other texts are encoded in between.

## Main definitions

* `Tokenizer.after`: a tokenizer after several texts.
* `Tokenizer.Continues`: a tokenizer that has gone on.

## Main statements

* `Tokenizer.continues_after`: encoding goes on.
* `Tokenizer.hasRoom_after`: as long as there are ids, they do for what is to come.
* `Tokenizer.decode_after`: ids of a text are decoded to it, at any later time.
-/
namespace Guided

namespace Tokenizer

variable {t later : Tokenizer} {text : List Char} {ids : List Nat}

/-- A tokenizer after texts have been encoded one after the other, whatever came of it. -/
def after (t : Tokenizer) (texts : List (List Char)) : Tokenizer :=
  texts.foldl (fun t text => (t.encode text).2) t

@[simp] theorem after_cons (t : Tokenizer) (text : List Char) (texts : List (List Char)) :
    t.after (text :: texts) = (t.encode text).2.after texts := rfl

theorem after_append (t : Tokenizer) (texts more : List (List Char)) :
    t.after (texts ++ more) = (t.after texts).after more :=
  List.foldl_append

/-! ## Going on -/

/-- A tokenizer that has gone on has the same backend, and its registry has grown. -/
structure Continues (t later : Tokenizer) : Prop where
  backend : later.backend = t.backend
  special : t.special.Extends later.special

theorem continues_refl (t : Tokenizer) : t.Continues t := ⟨rfl, SpecialTokens.extends_refl _⟩

theorem Continues.trans {last : Tokenizer} (h : t.Continues later) (h' : later.Continues last) :
    t.Continues last :=
  ⟨h'.backend.trans h.backend, h.special.trans h'.special⟩

/-- Encoding goes on, also where it fails in the end. -/
theorem continues_encodeSegments (t : Tokenizer) (segs : List Segment) :
    t.Continues (t.encodeSegments segs).2 := by
  induction segs generalizing t with
  | nil => exact continues_refl t
  | cons seg segs ih =>
      cases seg with
      | plain s =>
          rw [encodeSegments]
          cases t.backend.encode s with
          | error e => exact continues_refl t
          | ok ids => exact ih t
      | marker name =>
          cases hid : t.special.idFor (markerName name) with
          | error e =>
              rw [encodeSegments_marker_of_error hid]
              exact continues_refl t
          | ok given =>
              obtain ⟨id, special⟩ := given
              rw [encodeSegments_marker hid]
              have hgrown : t.Continues { t with special } :=
                ⟨rfl, (SpecialTokens.idFor_spec hid).1⟩
              exact hgrown.trans (ih _)

theorem continues_after (t : Tokenizer) (texts : List (List Char)) : t.Continues (t.after texts) := by
  induction texts generalizing t with
  | nil => exact continues_refl t
  | cons text texts ih => exact (continues_encodeSegments t (segments text)).trans (ih _)

/-! ## Ids for all markers -/

/-- As long as there are ids for the markers of all texts, encoding them leaves room for what is
to come. -/
theorem hasRoom_after (hbackend : t.backend = .byteLevel) (hsound : t.special.Sound)
    (texts : List (List Char)) {more : List String}
    (hroom : t.special.HasRoom (texts.flatMap markerNames ++ more)) :
    (t.after texts).special.Sound ∧ (t.after texts).special.HasRoom more := by
  induction texts generalizing t with
  | nil => exact ⟨hsound, hroom⟩
  | cons text texts ih =>
      rw [List.flatMap_cons, List.append_assoc] at hroom
      have hgoes := (continues_encodeSegments t (segments text)).backend.trans hbackend
      rcases encodeSegments_room hbackend hsound (segments text)
        (texts.flatMap markerNames ++ more) with ⟨ids, t', hids, hsound', hiff⟩ | ⟨-, hfull⟩
      · rw [after_cons, encode]
        rw [hids] at hgoes ⊢
        exact ih hgoes hsound' (hiff.1 hroom)
      · exact absurd hroom hfull

/-- With room for its markers, a text can be encoded. -/
theorem exists_encode (hbackend : t.backend = .byteLevel) (hsound : t.special.Sound)
    (hroom : t.special.HasRoom (markerNames text)) : ∃ ids, (t.encode text).1 = .ok ids := by
  rcases encodeSegments_cases hbackend hsound (segments text) with ⟨-, ids, t', hids⟩ | ⟨hfull, -⟩
  · exact ⟨ids, by rw [encode, hids]⟩
  · exact absurd hroom hfull

/-! ## Decoding later -/

/-- The ids of a text are decoded to it by every tokenizer that has gone on from there. -/
theorem Continues.decode_eq (hbackend : t.backend = .byteLevel) (hbase : 256 ≤ t.special.base)
    (hids : (t.encode text).1 = .ok ids) (h : (t.encode text).2.Continues later) :
    later.decode ids = .ok text := by
  have hencode : t.encodeSegments (segments text) = (.ok ids, (t.encode text).2) := by
    rw [← hids]
    rfl
  obtain ⟨hbackend', -, hreads⟩ := reads_of_encodeSegments hbackend hbase hencode
  have hread := hreads later h.special
  rw [decode_eq_textOf (h.backend.trans hbackend') hread.known, hread.textOf_eq,
    flatMap_text_segments]

/-- **Ids of a text stand for it from then on.** A new tokenizer of bytes encodes texts one after
the other. As long as they have no more different markers than there are ids, each of them gets
its ids. Once a text has got ids, these are decoded to exactly this text, whatever further texts
are encoded before that and whatever any of the texts consist of. -/
theorem decode_after :
    ∃ t, Tokenizer.create .byteLevel = .ok t ∧ ∀ before text between,
      (((before ++ [text]).flatMap markerNames).toFinset.card ≤ word32Bound - 1000 →
        ∃ ids, ((t.after before).encode text).1 = .ok ids) ∧
      ∀ ids, ((t.after before).encode text).1 = .ok ids →
        (t.after (before ++ text :: between)).decode ids = .ok text := by
  have hcreate : Tokenizer.create .byteLevel = .ok ⟨.byteLevel, ⟨1000, []⟩⟩ := by rfl
  have hsound : SpecialTokens.Sound ⟨1000, []⟩ := ⟨List.nodup_nil, by decide⟩
  refine ⟨_, hcreate, fun before text between => ?_⟩
  have hgoes := continues_after ⟨.byteLevel, ⟨1000, []⟩⟩ before
  constructor
  · intro hfits
    have hroom : SpecialTokens.HasRoom ⟨1000, []⟩
        (before.flatMap markerNames ++ markerNames text) := by
      simp only [List.flatMap_append, List.flatMap_singleton] at hfits
      simp only [SpecialTokens.HasRoom, List.nil_append, word32Bound] at hfits ⊢
      omega
    obtain ⟨hsound', hroom'⟩ :=
      hasRoom_after (t := ⟨.byteLevel, ⟨1000, []⟩⟩) rfl hsound before hroom
    exact exists_encode hgoes.backend hsound' hroom'
  · intro ids hids
    have hbase : 256 ≤ ((⟨.byteLevel, ⟨1000, []⟩⟩ : Tokenizer).after before).special.base := by
      rw [hgoes.special.1]
      decide
    rw [after_append, after_cons]
    exact Continues.decode_eq hgoes.backend hbase hids (continues_after _ between)

/-- Markers, a marker within an opening, an opening without an end, and a new name before the ids are
decoded. -/
theorem decode_after_marked :
    ∃ t ids, Tokenizer.create .byteLevel = .ok t ∧
      ((t.after ["é<weave:x/>".toList]).encode "<weave:<weave:y/>é</<weave:x/><weave:".toList).1 =
        .ok ids ∧
      (t.after ["é<weave:x/>".toList, "<weave:<weave:y/>é</<weave:x/><weave:".toList,
        "<weave:z/><weave:y/>".toList]).decode ids =
          .ok "<weave:<weave:y/>é</<weave:x/><weave:".toList := by
  obtain ⟨t, hcreate, hafter⟩ := decode_after
  obtain ⟨hfits, hdecode⟩ := hafter ["é<weave:x/>".toList]
    "<weave:<weave:y/>é</<weave:x/><weave:".toList ["<weave:z/><weave:y/>".toList]
  have hnames : ["é<weave:x/>".toList, "<weave:<weave:y/>é</<weave:x/><weave:".toList].flatMap
      markerNames = ["weave:x", "weave:y", "weave:x"] := by decide +kernel
  obtain ⟨ids, hids⟩ := hfits (by rw [List.singleton_append, hnames]; decide)
  exact ⟨t, ids, hcreate, hids, hdecode ids hids⟩

end Tokenizer

end Guided
