/-!
# Code points as ranges of bytes

The code points of a range, encoded, are the union of a few sequences of byte ranges:
within one sequence every byte may be chosen on its own.

## Main definitions

* `utf8Sequences`: the sequences for a range of code points.
* `sequenceTree`: what is left of sequences after each of their beginnings.
-/
namespace Guided

/-- A range of bytes, both ends included. -/
abbrev ByteRange := Nat × Nat

/-- All bytes that continue a character. -/
def continuation : ByteRange := (0x80, 0xBF)

/-- The sequences for the numbers from `low` to `high`, written with `tail` bytes of six
bits each after a first byte that counts from `lead`. -/
def digitSequences : (tail : Nat) → (lead low high : Nat) → List (List ByteRange)
  | 0, lead, low, high => [[(lead + low, lead + high)]]
  | tail + 1, lead, low, high =>
      let unit := Nat.pow 64 (tail + 1)
      let first := low / unit
      let last := high / unit
      let behind (digit low high : Nat) : List (List ByteRange) :=
        (digitSequences tail 0x80 low high).map ((lead + digit, lead + digit) :: ·)
      if first = last then behind first (low % unit) (high % unit)
      else
        let partialFirst := low % unit ≠ 0
        let partialLast := high % unit ≠ unit - 1
        let wholeFirst := if partialFirst then first + 1 else first
        let wholeEnd := if partialLast then last else last + 1
        (if partialFirst then behind first (low % unit) (unit - 1) else []) ++
          (if wholeFirst < wholeEnd then
            [(lead + wholeFirst, lead + wholeEnd - 1) :: List.replicate (tail + 1) continuation]
          else []) ++
          (if partialLast then behind last 0 (high % unit) else [])

/-- The code points with encodings of one kind, surrogates left out: the bounds, the
bytes after the first and where the first byte counts from. -/
def utf8Blocks : List ((Nat × Nat) × Nat × Nat) :=
  [((0, 0x7F), 0, 0), ((0x80, 0x7FF), 1, 0xC0), ((0x800, 0xD7FF), 2, 0xE0),
    ((0xE000, 0xFFFF), 2, 0xE0), ((0x10000, 0x10FFFF), 3, 0xF0)]

/-- The sequences for a range of code points. -/
def utf8Sequences (low high : Nat) : List (List ByteRange) :=
  utf8Blocks.flatMap fun ((first, last), tail, lead) =>
    let low := Nat.max low first
    let high := Nat.min high last
    if low ≤ high then digitSequences tail lead low high else []

/-- The different first elements of sequences. -/
def heads {α : Type} [BEq α] (sequences : List (List α)) : List α :=
  (sequences.filterMap List.head?).eraseDups

/-- What follows a first element in the sequences that begin with it. -/
def tailsAfter {α : Type} [BEq α] (head : α) (sequences : List (List α)) : List (List α) :=
  sequences.filterMap fun sequence =>
    match sequence with
    | [] => none
    | first :: rest => if first == head then some rest else none

/-- What is left of sequences, after nothing and after each of their beginnings, as long
as anything is left. The depth bounds their lengths. -/
def sequenceTree {α : Type} [BEq α] : (depth : Nat) → List (List α) → List (List (List α))
  | 0, _ => []
  | depth + 1, sequences =>
      if sequences.all List.isEmpty then []
      else sequences :: (heads sequences).flatMap fun head =>
        sequenceTree depth (tailsAfter head sequences)

end Guided
