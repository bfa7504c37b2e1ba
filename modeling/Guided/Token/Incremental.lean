import Guided.Text.Bytes
import Guided.Token.Tokenizer

/-!
# Decoding token by token

A decoder gives out text as tokens come in. Ids whose text ends in a replacement
character are held back, since the next ids may complete a character. A few ids are kept
as context; the text given out for them before is remembered by its length in bytes.

## Main definitions

* `IncrementalDecoder`, `IncrementalDecoder.add`, `IncrementalDecoder.flush`.
-/
namespace Guided

/-- The ids kept, and how many bytes of their text have been given out. -/
structure IncrementalDecoder where
  pending : List Nat
  shown : Nat
deriving DecidableEq, Repr

namespace IncrementalDecoder

/-- A decoder that has seen no token. -/
def empty : IncrementalDecoder := ⟨[], 0⟩

/-- More ids than these are not kept. -/
def contextLimit : Nat := 4

/-- How many ids are kept when there are too many. -/
def contextKept : Nat := 2

/-- The part of a text after what has been given out. If no character ends there, the
text has been rewritten and counts as new. -/
def fresh (shown : Nat) (text : List Char) : List Char := (dropBytes? shown text).getD text

/-- A text, unless it is empty. -/
def nonempty (text : List Char) : Option (List Char) := if text.isEmpty then none else some text

/-- Whether a text ends in a replacement character. -/
def isIncomplete (text : List Char) : Bool := text.getLast? == some replacementChar

/-- Take one more token. An id that cannot be decoded stays among those kept. -/
def add (d : IncrementalDecoder) (t : Tokenizer) (id : Nat) :
    Except Error (Option (List Char)) × IncrementalDecoder :=
  let pending := d.pending ++ [id]
  let d := { d with pending }
  match t.decode pending with
  | .error e => (.error e, d)
  | .ok text =>
      if isIncomplete text then (.ok none, d)
      else if contextLimit < pending.length then
        let shown := if (dropBytes? d.shown text).isSome then d.shown else 0
        let kept := pending.drop (pending.length - contextKept)
        match t.decode kept with
        | .error e => (.error e, ⟨kept, shown⟩)
        | .ok keptText => (.ok (nonempty (fresh d.shown text)), ⟨kept, utf8Length keptText⟩)
      else (.ok (nonempty (fresh d.shown text)), ⟨pending, utf8Length text⟩)

/-- Take tokens one after the other. -/
def addAll (d : IncrementalDecoder) (t : Tokenizer) :
    List Nat → List (Except Error (Option (List Char))) × IncrementalDecoder
  | [] => ([], d)
  | id :: rest =>
      let (chunk, d) := d.add t id
      let (chunks, d) := d.addAll t rest
      (chunk :: chunks, d)

/-- Give out what is still held back, and start again. If it cannot be decoded,
everything stays as it is. -/
def flush (d : IncrementalDecoder) (t : Tokenizer) :
    Except Error (Option (List Char)) × IncrementalDecoder :=
  if d.pending.isEmpty then (.ok none, d)
  else
    match t.decode d.pending with
    | .error e => (.error e, d)
    | .ok text => (.ok (nonempty (fresh d.shown text)), empty)

end IncrementalDecoder

end Guided
