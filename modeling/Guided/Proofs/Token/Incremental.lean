import Guided.Proofs.Token.Tokenizer
import Guided.Token.Incremental

/-!
# Decoding token by token is decoding

Over bytes, a decoder that has given out some text holds ids whose text is still to come,
behind a few that serve as context. Both what has been given out and the context end
between characters, so that the text of further ids is the same behind either of them.
Every id keeps this up, and nothing is lost in the end.

## Main definitions

* `Tokenizer.Between`: ids that end between characters.
* `IncrementalDecoder.Follows`: what a decoder knows about the ids it has seen.

## Main statements

* `Tokenizer.Between.of_append`: the last ids of such ids end between characters, too.
* `IncrementalDecoder.Follows.add`: one more id.
* `IncrementalDecoder.Follows.flush`: the end.
* `IncrementalDecoder.decode_eq_chunks`: all ids of a text.
-/
namespace Guided

namespace Tokenizer

open Utf8State

/-- Nothing is left unfinished behind these ids. -/
def Between (t : Tokenizer) (ids : List Nat) : Prop := stateFrom t.readId none ids = none

variable {t : Tokenizer} {xs ys ids : List Nat}

theorem between_nil : t.Between [] := rfl

theorem between_append_iff (h : t.Between xs) : t.Between (xs ++ ys) ↔ t.Between ys := by
  rw [Between, stateFrom_append, h, Between]

/-- Behind ids that end between characters, reading starts again. -/
theorem textOf_append (h : t.Between xs) (ys : List Nat) :
    t.textOf (xs ++ ys) = t.textOf xs ++ t.textOf ys := by
  have hnothing : finish none = [] := rfl
  have hxs : stateFrom t.readId none xs = none := h
  simp only [textOf, outputFrom_append, stateFrom_append, hxs, hnothing, List.append_nil,
    List.append_assoc]

@[simp] theorem textOf_nil : t.textOf [] = [] := rfl

theorem bounded_readId {state : Utf8State} (h : Bounded state) (id : Nat) :
    Bounded (t.readId state id).2 := by
  rw [readId]
  split
  · exact bounded_none
  · exact bounded_read h id

/-- Where a reader that begins within a character ends between characters, so does one that
begins afresh: from the first byte that does not continue a character on, they agree. -/
theorem Between.of_bounded {state : Utf8State} (hbounded : Bounded state)
    (h : stateFrom t.readId state ids = none) : t.Between ids := by
  induction ids generalizing state with
  | nil => exact between_nil
  | cons id ids ih =>
      rw [stateFrom_cons] at h
      rw [Between, stateFrom_cons]
      have hagree : (t.readId state id).2 = (t.readId none id).2 ∨ (t.readId none id).2 = none := by
        simp only [readId]
        split
        · exact .inl rfl
        · exact read_eq_or hbounded id
      rcases hagree with hsame | hfresh
      · rw [← hsame]
        exact h
      · rw [hfresh]
        exact ih (bounded_readId hbounded id) h

/-- The last ids of ids that end between characters end between characters. -/
theorem Between.of_append (h : t.Between (xs ++ ys)) : t.Between ys := by
  have hbounded : ∀ (state : Utf8State) (zs : List Nat), Bounded state →
      Bounded (stateFrom t.readId state zs) := by
    intro state zs
    induction zs generalizing state with
    | nil => exact fun hstate => hstate
    | cons id zs ih => exact fun hstate => ih _ (bounded_readId hstate id)
  rw [Between, stateFrom_append] at h
  exact .of_bounded (hbounded none xs bounded_none) h

/-- A text that does not end in a replacement character leaves nothing unfinished. -/
theorem between_of_not_isIncomplete (h : IncrementalDecoder.isIncomplete (t.textOf ids) = false) :
    t.Between ids := by
  cases hstate : stateFrom t.readId none ids with
  | none => exact hstate
  | some p =>
      have hlast : t.textOf ids = outputFrom t.readId none ids ++ [replacementChar] := by
        rw [textOf, hstate]
        rfl
      rw [IncrementalDecoder.isIncomplete, hlast, List.getLast?_concat] at h
      simp at h

/-- An id that gives nothing out leaves a character unfinished. -/
theorem readId_ne (state : Utf8State) (id : Nat) :
    (t.readId state id).1 ≠ [] ∨ (t.readId state id).2 ≠ none := by
  have hstart : ∀ b, (start b).1 ≠ [] ∨ (start b).2 ≠ none := by
    intro b
    rw [start]
    split
    · simp
    · split
      · simp
      · split
        · simp
        · split
          · simp
          · split <;> simp
  rw [readId]
  split
  · left
    simp [markerText]
  · cases state with
    | none => exact hstart id
    | some p =>
        rw [Utf8State.read]
        split
        · dsimp only
          split <;> simp
        · left
          simp

/-- Some text comes from any ids. -/
theorem textOf_ne_nil (h : ids ≠ []) : t.textOf ids ≠ [] := by
  have hsome : ∀ (zs : List Nat) (state : Utf8State), state ≠ none ∨ zs ≠ [] →
      outputFrom t.readId state zs ++ finish (stateFrom t.readId state zs) ≠ [] := by
    intro zs
    induction zs with
    | nil =>
        intro state hstate
        cases state with
        | none => simp at hstate
        | some p => simp [finish]
    | cons id zs ih =>
        intro state _
        rw [outputFrom_cons, stateFrom_cons, List.append_assoc]
        rcases readId_ne state id with hout | hstate
        · exact fun hnil => hout (List.append_eq_nil_iff.1 hnil).1
        · exact fun hnil => ih _ (.inl hstate) (List.append_eq_nil_iff.1 hnil).2
  exact hsome ids none (.inr h)

end Tokenizer

namespace IncrementalDecoder

variable {t : Tokenizer} {d : IncrementalDecoder} {seen : List Nat} {given : List Char}

/-- What a decoder knows about the ids it has seen: the text of a beginning of them has been
given out, the others are held back, and some ids before them serve as context. -/
structure Knows (t : Tokenizer) (d : IncrementalDecoder) (begun context held : List Nat) :
    Prop where
  pending : d.pending = context ++ held
  shown : d.shown = utf8Length (t.textOf context)
  begun : t.Between begun
  context : t.Between context
  known : ∀ id ∈ d.pending, t.Known id

/-- A decoder that has given out this text for the ids it has seen. -/
def Follows (t : Tokenizer) (d : IncrementalDecoder) (seen : List Nat) (given : List Char) : Prop :=
  ∃ begun context held, seen = begun ++ held ∧ given = t.textOf begun ∧
    d.Knows t begun context held

theorem follows_empty (t : Tokenizer) : empty.Follows t [] [] :=
  ⟨[], [], [], rfl, rfl, rfl, rfl, Tokenizer.between_nil, Tokenizer.between_nil, by simp [empty]⟩

@[simp] theorem getD_nonempty (text : List Char) : (nonempty text).getD [] = text := by
  cases text <;> rfl

/-- What is new behind a context is the text of the ids behind it. -/
theorem fresh_textOf {context : List Nat} (h : t.Between context) (ids : List Nat) :
    fresh (utf8Length (t.textOf context)) (t.textOf (context ++ ids)) = t.textOf ids := by
  rw [fresh, Tokenizer.textOf_append h, dropBytes?_append]
  rfl

/-- Text is still to come if there are further ids. -/
theorem Follows.ne_textOf (h : d.Follows t seen given) (id : Nat) :
    given ≠ t.textOf (seen ++ [id]) := by
  obtain ⟨begun, context, held, rfl, rfl, hknows⟩ := h
  intro heq
  rw [List.append_assoc, Tokenizer.textOf_append hknows.begun] at heq
  have hnothing := List.append_right_eq_self.1 heq.symm
  exact Tokenizer.textOf_ne_nil (by simp) hnothing

/-- A decoder that holds nothing back keeps ids as context only. -/
theorem follows_of_between {kept : List Nat} (hseen : t.Between seen) (hkept : t.Between kept)
    (hknown : ∀ id ∈ kept, t.Known id) :
    Follows t ⟨kept, utf8Length (t.textOf kept)⟩ seen (t.textOf seen) :=
  ⟨seen, kept, [], (List.append_nil _).symm, rfl, (List.append_nil _).symm, rfl, hseen, hkept,
    hknown⟩

/-- **One more id.** Its chunk is given out behind the text so far. -/
theorem Follows.add (hbackend : t.backend = .byteLevel) (h : d.Follows t seen given) {id : Nat}
    (hid : t.Known id) : ∃ chunk d', d.add t id = (.ok chunk, d') ∧
      d'.Follows t (seen ++ [id]) (given ++ chunk.getD []) := by
  obtain ⟨begun, context, held, rfl, rfl, hknows⟩ := h
  have hpending : d.pending ++ [id] = context ++ (held ++ [id]) := by
    rw [hknows.pending, List.append_assoc]
  have hknown : ∀ i ∈ d.pending ++ [id], t.Known i := by
    rw [List.forall_mem_append, List.forall_mem_singleton]
    exact ⟨hknows.known, hid⟩
  have hfresh : fresh d.shown (t.textOf (d.pending ++ [id])) = t.textOf (held ++ [id]) := by
    rw [hknows.shown, hpending]
    exact fresh_textOf hknows.context _
  rw [IncrementalDecoder.add]
  simp only [Tokenizer.decode_eq_textOf hbackend hknown]
  by_cases hincomplete : isIncomplete (t.textOf (d.pending ++ [id])) = true
  · rw [if_pos hincomplete]
    refine ⟨none, _, rfl, begun, context, held ++ [id], List.append_assoc _ _ _, ?_, ?_⟩
    · simp
    · exact ⟨hpending, hknows.shown, hknows.begun, hknows.context, hknown⟩
  · rw [if_neg hincomplete]
    have hdone : t.Between (d.pending ++ [id]) :=
      Tokenizer.between_of_not_isIncomplete (by simpa using hincomplete)
    have hheld : t.Between (held ++ [id]) := by
      rw [hpending] at hdone
      exact (Tokenizer.between_append_iff hknows.context).1 hdone
    have hseen : t.Between (begun ++ held ++ [id]) := by
      rw [List.append_assoc, Tokenizer.between_append_iff hknows.begun]
      exact hheld
    have hgiven : t.textOf begun ++ (nonempty (t.textOf (held ++ [id]))).getD [] =
        t.textOf (begun ++ held ++ [id]) := by
      rw [getD_nonempty, List.append_assoc, Tokenizer.textOf_append hknows.begun]
    by_cases hlong : contextLimit < (d.pending ++ [id]).length
    · rw [if_pos hlong]
      generalize hlength : (d.pending ++ [id]).length - contextKept = dropped
      have hkept : ∀ i ∈ (d.pending ++ [id]).drop dropped, t.Known i :=
        fun i hi => hknown i (List.mem_of_mem_drop hi)
      have hbetween : t.Between ((d.pending ++ [id]).drop dropped) := by
        rw [← List.take_append_drop dropped (d.pending ++ [id])] at hdone
        exact hdone.of_append
      simp only [Tokenizer.decode_eq_textOf hbackend hkept]
      refine ⟨_, _, rfl, ?_⟩
      rw [hfresh, hgiven]
      exact follows_of_between hseen hbetween hkept
    · rw [if_neg hlong]
      refine ⟨_, _, rfl, ?_⟩
      rw [hfresh, hgiven]
      exact follows_of_between hseen hdone hknown

/-- **The end.** With what is still held back, the text of all ids has been given out. -/
theorem Follows.flush (hbackend : t.backend = .byteLevel) (h : d.Follows t seen given) :
    ∃ rest d', d.flush t = (.ok rest, d') ∧ given ++ rest.getD [] = t.textOf seen := by
  obtain ⟨begun, context, held, rfl, rfl, hknows⟩ := h
  have hseen := Tokenizer.textOf_append hknows.begun held
  rw [IncrementalDecoder.flush]
  by_cases hempty : d.pending.isEmpty = true
  · rw [if_pos hempty]
    have hnil : context ++ held = [] := by
      rw [← hknows.pending]
      exact List.isEmpty_iff.1 hempty
    have hheld : held = [] := (List.append_eq_nil_iff.1 hnil).2
    exact ⟨none, d, rfl, by simp [hheld]⟩
  · rw [if_neg hempty]
    simp only [Tokenizer.decode_eq_textOf hbackend hknows.known]
    refine ⟨_, _, rfl, ?_⟩
    rw [getD_nonempty, hknows.shown, hknows.pending, fresh_textOf hknows.context, hseen]

theorem Follows.eq_empty (h : d.Follows t seen given) (hnil : d.pending = []) : d = empty := by
  obtain ⟨begun, context, held, -, -, hknows⟩ := h
  have hcontext : context = [] := (List.append_eq_nil_iff.1 (hknows.pending.symm.trans hnil)).1
  have hshown : d.shown = 0 := by
    rw [hknows.shown, hcontext]
    rfl
  obtain ⟨pending, shown⟩ := d
  exact congrArg₂ IncrementalDecoder.mk hnil hshown

/-- In the end the decoder starts again. -/
theorem Follows.flush_snd (hbackend : t.backend = .byteLevel) (h : d.Follows t seen given) :
    (d.flush t).2 = empty := by
  have hknown : ∀ id ∈ d.pending, t.Known id := by
    obtain ⟨_, _, _, -, -, hknows⟩ := h
    exact hknows.known
  rw [IncrementalDecoder.flush]
  by_cases hempty : d.pending.isEmpty = true
  · rw [if_pos hempty]
    exact h.eq_empty (List.isEmpty_iff.1 hempty)
  · rw [if_neg hempty]
    simp only [Tokenizer.decode_eq_textOf hbackend hknown]

/-- **Several ids.** No id fails, and the chunks are given out behind the text so far. -/
theorem Follows.addAll (hbackend : t.backend = .byteLevel) (h : d.Follows t seen given)
    {ids : List Nat} (hids : ∀ id ∈ ids, t.Known id) :
    ∃ chunks : List (Option (List Char)), (d.addAll t ids).1 = chunks.map .ok ∧
      (d.addAll t ids).2.Follows t (seen ++ ids) (given ++ chunks.flatMap (·.getD [])) := by
  induction ids generalizing d seen given with
  | nil => exact ⟨[], rfl, by simpa [IncrementalDecoder.addAll] using h⟩
  | cons id ids ih =>
      rw [List.forall_mem_cons] at hids
      obtain ⟨chunk, d', hadd, hfollows⟩ := h.add hbackend hids.1
      obtain ⟨chunks, hchunks, hrest⟩ := ih hfollows hids.2
      refine ⟨chunk :: chunks, ?_, ?_⟩
      · rw [IncrementalDecoder.addAll, hadd, List.map_cons, ← hchunks]
      · rw [IncrementalDecoder.addAll, hadd]
        simpa using hrest

/-- **Decoding token by token is decoding.** Of bytes and special ids, in any order, a new decoder
gives out chunk by chunk, and with what it has held back in the end, the text that all ids are
decoded to at once. Then it starts again. -/
theorem decode_eq_chunks (hbackend : t.backend = .byteLevel) {ids : List Nat}
    (hids : ∀ id ∈ ids, t.Known id) :
    ∃ (chunks : List (Option (List Char))) (rest : Option (List Char)),
      (empty.addAll t ids).1 = chunks.map .ok ∧
      (empty.addAll t ids).2.flush t = (.ok rest, empty) ∧
      t.decode ids = .ok (chunks.flatMap (·.getD []) ++ rest.getD []) := by
  obtain ⟨chunks, hchunks, hfollows⟩ := (follows_empty t).addAll hbackend hids
  obtain ⟨rest, d', hflush, htext⟩ := hfollows.flush hbackend
  have hagain : d' = empty := by
    rw [← hfollows.flush_snd hbackend, hflush]
  refine ⟨chunks, rest, hchunks, hagain ▸ hflush, ?_⟩
  rw [List.nil_append, List.nil_append] at htext
  rw [htext, Tokenizer.decode_eq_textOf hbackend hids]

/-- A replacement character that is in the text, a character that a marker breaks off, a byte that
continues nothing, one of four bytes where the context is cut, and an unfinished one. -/
theorem decode_eq_chunks_broken :
    let t : Tokenizer := ⟨.byteLevel, ⟨1000, ["weave:x"]⟩⟩
    let ids := [0xEF, 0xBF, 0xBD, 0xC3, 1000, 0xA9, 0xF0, 0x9F, 0x98, 0x80, 0x21, 0xE2, 0x82]
    (∀ id ∈ ids, t.Known id) ∧
      ∃ (chunks : List (Option (List Char))) (rest : Option (List Char)),
        (empty.addAll t ids).1 = chunks.map .ok ∧
        (empty.addAll t ids).2.flush t = (.ok rest, empty) ∧
        t.decode ids = .ok (chunks.flatMap (·.getD []) ++ rest.getD []) := by
  intro t ids
  have hids : ∀ id ∈ ids, t.Known id := by
    intro id hid
    by_cases hspecial : id = 1000
    · left
      rw [hspecial]
      rfl
    · right
      simp only [ids, List.mem_cons, List.not_mem_nil, or_false] at hid
      omega
  exact ⟨hids, decode_eq_chunks rfl hids⟩

end IncrementalDecoder

end Guided
