import Guided.Token.Backend
import Guided.Token.Special

/-!
# Texts with markers

A marker is an opening, a name and a closing. Markers become special tokens, and the
text between them goes through the backend. An opening without a closing is plain text;
so is one whose name would be empty or contain another opening bracket, and then what
follows the opening is looked at again.

## Main definitions

* `splitAt?`: a text around the first occurrence of another.
* `Segment`, `segments`: the plain parts and the markers of a text.
* `Tokenizer`, `Tokenizer.encode`, `Tokenizer.decode`.
-/
namespace Guided

/-- The rest of a text after a given beginning. -/
def afterBeginning? : List Char → List Char → Option (List Char)
  | [], s => some s
  | _ :: _, [] => none
  | a :: beginning, c :: s => if a = c then afterBeginning? beginning s else none

/-- What comes before and after the first occurrence of `part`. -/
def splitAt? (part : List Char) : List Char → Option (List Char × List Char)
  | [] => if part.isEmpty then some ([], []) else none
  | c :: s =>
      match afterBeginning? part (c :: s) with
      | some rest => some ([], rest)
      | none => (splitAt? part s).map fun (before, after) => (c :: before, after)

theorem eq_append_of_afterBeginning? {part s rest : List Char}
    (h : afterBeginning? part s = some rest) : s = part ++ rest := by
  induction part generalizing s with
  | nil => simpa [afterBeginning?] using h
  | cons a part ih =>
      cases s with
      | nil => simp [afterBeginning?] at h
      | cons c s =>
          by_cases hac : a = c
          · simp only [afterBeginning?, hac, if_true] at h
            rw [hac, ih h, List.cons_append]
          · simp [afterBeginning?, hac] at h

/-- The two sides and the part make up the text. -/
theorem eq_append_of_splitAt? {part s before after : List Char}
    (h : splitAt? part s = some (before, after)) : s = before ++ part ++ after := by
  induction s generalizing before after with
  | nil =>
      cases part with
      | nil =>
          simp [splitAt?] at h
          simp [h]
      | cons a part => simp [splitAt?] at h
  | cons c s ih =>
      unfold splitAt? at h
      split at h
      · next rest hrest =>
          obtain ⟨rfl, rfl⟩ := by simpa using h
          simpa using eq_append_of_afterBeginning? hrest
      · obtain ⟨⟨b, a⟩, hs, heq⟩ := Option.map_eq_some_iff.1 h
        simp only [Prod.mk.injEq] at heq
        obtain ⟨rfl, rfl⟩ := heq
        simp [ih hs]

/-- The beginning of a marker. -/
def markerOpen : List Char := "<weave:".toList

/-- The end of a marker. -/
def markerClose : List Char := "/>".toList

/-- The special name of a marker. -/
def markerName (name : List Char) : String := String.ofList ("weave:".toList ++ name)

/-- A part of a text. -/
inductive Segment where
  | plain (s : List Char)
  | marker (name : List Char)
deriving DecidableEq, Repr

/-- A plain part, unless it is empty. -/
def plainSegment (s : List Char) : List Segment := if s.isEmpty then [] else [.plain s]

/-- Whether a text between opening and closing names a marker. -/
def isMarkerName (name : List Char) : Bool := !name.isEmpty && !name.contains '<'

theorem length_lt_of_splitAt? {part s before after : List Char} (hpart : part ≠ [])
    (h : splitAt? part s = some (before, after)) : after.length < s.length := by
  have hpos : 0 < part.length := List.length_pos_iff.2 hpart
  rw [eq_append_of_splitAt? h]
  simp only [List.length_append]
  omega

/-- The parts of a text, from left to right. -/
def segments (s : List Char) : List Segment :=
  match _hopen : splitAt? markerOpen s with
  | none => plainSegment s
  | some (before, inside) =>
      match _hclose : splitAt? markerClose inside with
      | none => plainSegment s
      | some (name, rest) =>
          if isMarkerName name then plainSegment before ++ .marker name :: segments rest
          else .plain (before ++ markerOpen) :: segments inside
termination_by s.length
decreasing_by
  · exact Nat.lt_trans (length_lt_of_splitAt? (by decide) _hclose)
      (length_lt_of_splitAt? (by decide) _hopen)
  · exact length_lt_of_splitAt? (by decide) _hopen

/-- A backend with the special tokens in use. -/
structure Tokenizer where
  backend : TokenBackend
  special : SpecialTokens

namespace Tokenizer

/-- A tokenizer without special tokens yet, if the vocabulary leaves ids for them. -/
def create (backend : TokenBackend) : Except Error Tokenizer :=
  (SpecialTokens.create backend.vocabularyRange).map (⟨backend, ·⟩)

/-- The token ids of parts of a text. Names that were given an id keep it, also when a
later part cannot be encoded. -/
def encodeSegments (t : Tokenizer) : List Segment → Except Error (List Nat) × Tokenizer
  | [] => (.ok [], t)
  | .plain s :: rest =>
      match t.backend.encode s with
      | .error e => (.error e, t)
      | .ok ids =>
          let (more, t) := t.encodeSegments rest
          (more.map (ids ++ ·), t)
  | .marker name :: rest =>
      match t.special.idFor (markerName name) with
      | .error e => (.error e, t)
      | .ok (id, special) =>
          let (more, t) := encodeSegments { t with special } rest
          (more.map (id :: ·), t)

/-- The token ids of a text. -/
def encode (t : Tokenizer) (text : List Char) : Except Error (List Nat) × Tokenizer :=
  t.encodeSegments (segments text)

/-- A marker as text. -/
def markerText (name : String) : List Char := '<' :: name.toList ++ markerClose

/-- The text of a run of plain tokens, unless it is empty. -/
def decodeRun (t : Tokenizer) (run : List Nat) : Except Error (List Char) :=
  if run.isEmpty then .ok [] else t.backend.decode run

/-- The text of ids behind a run of plain tokens. -/
def decodeAfter (t : Tokenizer) (run : List Nat) : List Nat → Except Error (List Char)
  | [] => t.decodeRun run
  | id :: rest =>
      match t.special.nameOf? id with
      | none => t.decodeAfter (run ++ [id]) rest
      | some name => do
          let plain ← t.decodeRun run
          let more ← t.decodeAfter [] rest
          return plain ++ markerText name ++ more

/-- The text of token ids, special ones written as markers. -/
def decode (t : Tokenizer) (ids : List Nat) : Except Error (List Char) := t.decodeAfter [] ids

end Tokenizer

end Guided
