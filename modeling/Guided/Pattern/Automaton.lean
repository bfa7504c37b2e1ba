import Guided.Pattern.Printer

/-!
# The automaton of a pattern

The automaton that matches whole texts is built from parts. They are those of the printed
pattern, simplified: texts that meet are one text, single characters to choose from are
one class, and what all branches of a choice begin with stands before the choice.

## Main definitions

* `AutomatonPart`: a part of an automaton.
* `AutomatonPart.ofSequence`, `AutomatonPart.ofChoice`, `AutomatonPart.ofRepetition`:
  parts made of simplified parts.
* `Pattern.automaton`: the parts of a pattern.
-/
namespace Guided

/-- A part of an automaton. A `text` without characters reads nothing. -/
inductive AutomatonPart where
  | text (s : List Char)
  | oneOf (ranges : List (Nat × Nat))
  | anchor
  | capture (part : AutomatonPart)
  | repetition (min : Nat) (max : Option Nat) (part : AutomatonPart)
  | sequence (parts : List AutomatonPart)
  | choice (parts : List AutomatonPart)

/-- The code points of a class item. -/
def ClassItem.codePoints : ClassItem → Nat × Nat
  | .single c => (c.toNat, c.toNat)
  | .range low high => (low.toNat, high.toNat)

/-- Put a range before others that begin no earlier; neighbouring ranges become one. -/
def joinRange (range : Nat × Nat) : List (Nat × Nat) → List (Nat × Nat)
  | [] => [range]
  | next :: rest =>
      if next.1 ≤ range.2 + 1 then
        joinRange (range.1, Nat.max range.2 next.2) rest
      else range :: next :: rest

/-- The same code points as ranges in increasing order, with a gap between any two. -/
def canonicalRanges (ranges : List (Nat × Nat)) : List (Nat × Nat) :=
  (ranges.mergeSort fun a b => a.1 ≤ b.1).foldr joinRange []

namespace AutomatonPart

/-- A part that reads one character of some ranges. -/
def ofRanges (ranges : List (Nat × Nat)) : AutomatonPart :=
  match canonicalRanges ranges with
  | [(low, high)] => if low = high then .text [Char.ofNat low] else .oneOf [(low, high)]
  | ranges => .oneOf ranges

/-- Texts that stand next to each other become one. -/
def joinTexts : List AutomatonPart → List AutomatonPart
  | [] => []
  | .text s :: rest =>
      match joinTexts rest with
      | .text t :: more => .text (s ++ t) :: more
      | more => if s.isEmpty then more else .text s :: more
  | part :: rest => part :: joinTexts rest

/-- Parts one after the other. -/
def ofSequence (parts : List AutomatonPart) : AutomatonPart :=
  let spread (part : AutomatonPart) : List AutomatonPart :=
    match part with
    | .sequence parts => parts
    | part => [part]
  match joinTexts (parts.flatMap spread) with
  | [] => .text []
  | [part] => part
  | parts => .sequence parts

/-- The code point of a text of one character. -/
def character? : AutomatonPart → Option (Nat × Nat)
  | .text [c] => some (c.toNat, c.toNat)
  | _ => none

/-- The ranges of a part that reads one of them. -/
def ranges? : AutomatonPart → Option (List (Nat × Nat))
  | .oneOf ranges => some ranges
  | _ => none

/-- The parts of a sequence. -/
def sequence? : AutomatonPart → Option (List AutomatonPart)
  | .sequence parts => some parts
  | _ => none

mutual

/-- Whether two parts are the same. A capture is the same as no other, because captures
are numbered. -/
def same : AutomatonPart → AutomatonPart → Bool
  | .text s, .text t => s == t
  | .oneOf ranges, .oneOf ranges' => ranges == ranges'
  | .anchor, .anchor => true
  | .repetition min max part, .repetition min' max' part' =>
      min == min' && max == max' && part.same part'
  | .sequence parts, .sequence parts' => allSame parts parts'
  | .choice parts, .choice parts' => allSame parts parts'
  | _, _ => false

/-- Whether two lists of parts are the same, part by part. -/
def allSame : List AutomatonPart → List AutomatonPart → Bool
  | [], [] => true
  | part :: rest, part' :: rest' => part.same part' && allSame rest rest'
  | _, _ => false

end

/-- How many parts two sequences have in common before the first that differs. -/
def commonLength : List AutomatonPart → List AutomatonPart → Nat
  | part :: rest, part' :: rest' => if part.same part' then commonLength rest rest' + 1 else 0
  | _, _ => 0

/-- One of several parts. Single characters, and likewise ranges, become one part. -/
def ofAlternatives (parts : List AutomatonPart) : AutomatonPart :=
  match parts.mapM character? with
  | some ranges => ofRanges ranges
  | none =>
      match parts.mapM ranges? with
      | some ranges => ofRanges ranges.flatten
      | none => .choice parts

/-- One of several parts. If all are sequences with the same beginning, that stands
before the choice of what is left, where the parts have no beginning in common any
more. -/
def ofChoice (parts : List AutomatonPart) : AutomatonPart :=
  match parts with
  | [] => .text []
  | [part] => part
  | parts =>
      match parts.mapM sequence? with
      | none => ofAlternatives parts
      | some sequences =>
          let first := sequences.headD []
          match (sequences.map (commonLength first)).min? with
          | none | some 0 => .choice parts
          | some common =>
              ofSequence (first.take common ++
                [ofAlternatives (sequences.map fun parts => ofSequence (parts.drop common))])

mutual

/-- Whether a part reads nothing at all. -/
def isIdle : AutomatonPart → Bool
  | .text s => s.isEmpty
  | .oneOf _ => false
  | .anchor => true
  | .capture part => part.isIdle
  | .repetition _ max part => max == some 0 || part.isIdle
  | .sequence parts => allIdle parts
  | .choice parts => allIdle parts

/-- Whether none of the parts reads anything. -/
def allIdle : List AutomatonPart → Bool
  | [] => true
  | part :: rest => part.isIdle && allIdle rest

end

mutual

/-- Whether a part reads something in any case. -/
def isConsuming : AutomatonPart → Bool
  | .text s => !s.isEmpty
  | .oneOf _ => true
  | .anchor => false
  | .capture part => part.isConsuming
  | .repetition min _ part => min != 0 && part.isConsuming
  | .sequence parts => anyConsuming parts
  | .choice parts => allConsuming parts

/-- Whether one of the parts reads something in any case. -/
def anyConsuming : List AutomatonPart → Bool
  | [] => false
  | part :: rest => part.isConsuming || anyConsuming rest

/-- Whether each of the parts reads something in any case. -/
def allConsuming : List AutomatonPart → Bool
  | [] => true
  | part :: rest => part.isConsuming && allConsuming rest

end

/-- A part repeated. What reads nothing is repeated at most once. -/
def ofRepetition (min : Nat) (max : Option Nat) (part : AutomatonPart) : AutomatonPart :=
  let (min, max) :=
    if part.isIdle then (Nat.min min 1, some (Nat.min (max.getD 1) 1)) else (min, max)
  if min = 0 ∧ max = some 0 then .text []
  else if min = 1 ∧ max = some 1 then part
  else .repetition min max part

end AutomatonPart

mutual

/-- The part for a printed node. Parentheses, also those that printing adds, capture. -/
def Node.automaton (siblings : Bool) : Node → AutomatonPart
  | .literal c => .text [c]
  | .oneOf items => .ofRanges (items.map ClassItem.codePoints)
  | .endAnchor => .anchor
  | .group inner => .capture (.ofSequence (Pattern.parts (Pattern.hasSiblings inner) inner))
  | .repetition min max body =>
      let inner := AutomatonPart.ofSequence (Pattern.parts (Pattern.hasSiblings body) body)
      .ofRepetition min max (if Pattern.isAtom body then inner else .capture inner)
  | .alternation branches =>
      let inner := AutomatonPart.ofChoice (Pattern.branchParts branches)
      if siblings then .capture inner else inner

/-- The parts for the nodes of a sequence. -/
def Pattern.parts (siblings : Bool) : List Node → List AutomatonPart
  | [] => []
  | node :: rest => node.automaton siblings :: Pattern.parts siblings rest

/-- The parts for branches. -/
def Pattern.branchParts : List (List Node) → List AutomatonPart
  | [] => []
  | branch :: rest =>
      .ofSequence (Pattern.parts (Pattern.hasSiblings branch) branch) :: Pattern.branchParts rest

end

/-- The part for a printed pattern. -/
def Pattern.automaton (p : Pattern) : AutomatonPart :=
  .ofSequence (Pattern.parts (Pattern.hasSiblings p) p)

end Guided
