import Guided.Pattern.Automaton
import Guided.Text.Bytes
import Guided.Text.Utf8
import Guided.Text.Utf8Ranges

/-!
# The size of an automaton

An automaton reads bytes, and there is one for each direction. Its size is that of its
states with their transitions, where every round of a counted repetition has states of
its own.

## Main definitions

* `classBytes`, `wordsBytes`: the size of a class and of a choice of texts.
* `AutomatonPart.bytes`: the size of a part.
* `Pattern.automatonBytes`: the size of a whole automaton.
-/
namespace Guided

/-- The size of a state. -/
def stateBytes : Nat := 32

/-- The size of a transition that reads a range of bytes. -/
def transitionBytes : Nat := 8

/-- The size of a transition that reads nothing. -/
def jumpBytes : Nat := 4

/-- The size of a state that reads any of some ranges. -/
def branchBytes (ranges : Nat) : Nat := stateBytes + transitionBytes * ranges

/-- The size of a state from which nothing is read before one of several others. -/
def forkBytes (ways : Nat) : Nat := stateBytes + jumpBytes * ways

/-- The size for all of some sizes. -/
def totalBytes (sizes : List Nat) : Nat := sizes.foldl (· + ·) 0

/-- The size of a class. ASCII needs a state and its end. Forward, states with the same
continuation are one; backward, beginnings are shared. -/
def classBytes (backward : Bool) (ranges : List (Nat × Nat)) : Nat :=
  if ranges.all fun range => range.2 < 0x80 then stateBytes + branchBytes ranges.length
  else
    let sequences := ranges.flatMap fun range => utf8Sequences range.1 range.2
    let tree := sequenceTree 4 sequences
    if backward then
      stateBytes + forkBytes sequences.length +
        stateBytes * totalBytes (tree.map fun rest => (heads rest).length)
    else
      stateBytes + totalBytes (tree.eraseDups.map fun rest => branchBytes (heads rest).length)

/-- Words up to each one that is empty, and the words after the last such one. -/
def wordRuns {α : Type} : List (List α) → List (List (List α))
  | [] => [[]]
  | word :: words =>
      if word.isEmpty then [] :: wordRuns words
      else
        match wordRuns words with
        | [] => [[word]]
        | run :: runs => (word :: run) :: runs

/-- The size of what is left of words, in their order, after a beginning of theirs. A word
of which nothing is left ends here, and the words before it share no states with those
after it. Ends that come first count once. The depth bounds the lengths. -/
def wordTreeBytes {α : Type} [BEq α] : (depth : Nat) → List (List α) → Nat
  | 0, _ => 0
  | depth + 1, words =>
      let others := words.dropWhile List.isEmpty
      if others.isEmpty then 0
      else
        let runs := wordRuns others
        let ends := runs.length - 1 + if words.head?.any List.isEmpty then 1 else 0
        let runs := runs.filter fun run => !run.isEmpty
        forkBytes (runs.length + ends) + totalBytes (runs.map fun run =>
          let firsts := heads run
          (if firsts.length = 1 then stateBytes else branchBytes firsts.length) +
            totalBytes (firsts.map fun first => wordTreeBytes depth (tailsAfter first run)))

/-- The size of a choice of texts, whose beginnings are shared. -/
def wordsBytes (backward : Bool) (words : List (List Char)) : Nat :=
  let words := words.map fun word =>
    let bytes := utf8Bytes word
    if backward then bytes.reverse else bytes
  stateBytes + wordTreeBytes ((words.map List.length).foldl Nat.max 0) words

namespace AutomatonPart

/-- The characters of a text that has any. -/
def word? : AutomatonPart → Option (List Char)
  | .text s => if s.isEmpty then none else some s
  | _ => none

mutual

/-- The size of a part. Captures are not kept when reading backward. -/
def bytes (backward : Bool) : AutomatonPart → Nat
  | .text s => stateBytes * Nat.max (utf8Length s) 1
  | .oneOf ranges => classBytes backward ranges
  | .anchor => stateBytes
  | .capture part => (if backward then 0 else 2 * stateBytes) + part.bytes backward
  | .repetition min max part =>
      let round := part.bytes backward
      match max with
      | none =>
          if min = 0 ∧ !part.isConsuming then round + 2 * forkBytes 2 + stateBytes
          else Nat.max min 1 * round + forkBytes 2
      | some max =>
          if min = 0 ∧ max = 1 then round + forkBytes 2 + stateBytes
          else if min = max then min * round
          else
            (if min = 0 then stateBytes else min * round) +
              (max - min) * (round + forkBytes 2) + stateBytes
  | .sequence parts => allBytes backward parts
  | .choice parts =>
      match parts.mapM word? with
      | some words => wordsBytes backward words
      | none => stateBytes + forkBytes parts.length + allBytes backward parts

/-- The size of parts one after the other. -/
def allBytes (backward : Bool) : List AutomatonPart → Nat
  | [] => 0
  | part :: rest => part.bytes backward + allBytes backward rest

end

end AutomatonPart

/-- The states around a pattern: the start, the two anchors and the match, and the ends
of the capture of it all. -/
def surroundingBytes (backward : Bool) : Nat := (if backward then 4 else 6) * stateBytes

/-- The size of the larger of the two automata for a pattern. -/
def Pattern.automatonBytes (p : Pattern) : Nat :=
  let part := Pattern.automaton p
  Nat.max (surroundingBytes false + part.bytes false) (surroundingBytes true + part.bytes true)

end Guided
