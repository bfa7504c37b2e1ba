import Guided.Pattern.Basic

/-!
# Marked patterns

Reading a text leaves marks inside a pattern: on every literal and class that can be the
one that has read the last character. The next character moves the marks. A mark enters
a node when it has come to the end of all that stands before the node, and it leaves the
node at the end of what stands in it.

Every round of a repetition has marks of its own. Rounds are numbered by the rounds
completed before them; without an upper bound all rounds past the least number share one
number. Rounds that match nothing need no marks: a body that can be skipped makes up
for rounds that are missing.

## Main definitions

* `Marks`: the marks inside a node.
* `Node.leaves`, `Pattern.leaves`: whether a mark can leave.
* `Node.read`, `Pattern.read`: the marks after one more character.
-/
namespace Guided

/-- The marks inside a node: none, one on a character just read, those in the parts of
a sequence or in the branches of an alternation, or those in the rounds of a repetition.
Parts behind the last mark are left out, and so are rounds without a mark. -/
inductive Marks where
  | none
  | onCharacter
  | inParts (parts : List Marks)
  | inRounds (rounds : List (Nat × List Marks))

namespace Marks

/-- Whether there is a mark. -/
def isActive : Marks → Bool
  | .none => false
  | _ => true

/-- Whether the mark stands on a character. -/
def isOnCharacter : Marks → Bool
  | .onCharacter => true
  | _ => false

/-- The marks in the parts. -/
def parts : Marks → List Marks
  | .inParts parts => parts
  | _ => []

/-- The marks in the rounds. -/
def rounds : Marks → List (Nat × List Marks)
  | .inRounds rounds => rounds
  | _ => []

/-- A mark on a character, if the character is the one to read. -/
def ofCharacter (isRead : Bool) : Marks := if isRead then .onCharacter else .none

/-- Marks in parts. -/
def ofParts (parts : List Marks) : Marks := if parts.isEmpty then .none else .inParts parts

/-- Marks in rounds. -/
def ofRounds (rounds : List (Nat × List Marks)) : Marks :=
  if rounds.isEmpty then .none else .inRounds rounds

/-- Marks in a part before others. -/
def before (part : Marks) (parts : List Marks) : List Marks :=
  if parts.isEmpty && !part.isActive then [] else part :: parts

end Marks

/-- Whether a node can be passed without reading: at the end of the text, or while
another character follows. -/
def Node.passable (atEnd : Bool) (node : Node) : Bool :=
  if atEnd then node.acceptsEmpty else node.skippable

/-- Whether a sequence can be passed without reading. -/
def Pattern.passable (atEnd : Bool) (p : Pattern) : Bool :=
  if atEnd then Pattern.acceptsEmpty p else Pattern.skippable p

mutual

/-- Whether a mark can leave the node. It leaves a repetition after enough rounds, or
after any if the missing ones can be passed. -/
def Node.leaves (atEnd : Bool) : Node → Marks → Bool
  | .literal _, marks => marks.isOnCharacter
  | .oneOf _, marks => marks.isOnCharacter
  | .endAnchor, _ => false
  | .group inner, marks => Pattern.leaves atEnd inner false marks.parts
  | .alternation branches, marks => Pattern.anyLeaves atEnd branches marks.parts
  | .repetition min _ body, marks =>
      let enough := if Pattern.passable atEnd body then 0 else min
      marks.rounds.any fun round =>
        enough ≤ round.1 + 1 && Pattern.leaves atEnd body false round.2

/-- Whether a mark can leave the sequence, be it one of those inside or one that has
`entered`. -/
def Pattern.leaves (atEnd : Bool) : List Node → (entered : Bool) → List Marks → Bool
  | [], entered, _ => entered
  | node :: rest, entered, [] =>
      entered && node.passable atEnd && Pattern.leaves atEnd rest true []
  | node :: rest, entered, marks :: more =>
      let onward := node.leaves atEnd marks || (entered && node.passable atEnd)
      Pattern.leaves atEnd rest onward more

/-- Whether a mark can leave one of the branches. -/
def Pattern.anyLeaves (atEnd : Bool) : List (List Node) → List Marks → Bool
  | branch :: rest, marks :: more =>
      Pattern.leaves atEnd branch false marks.parts || Pattern.anyLeaves atEnd rest more
  | _, _ => false

end

/-- The number of the round that a mark enters when it comes to a repetition. -/
def firstRound (max : Option Nat) : Option Nat := if max = some 0 then none else some 0

/-- The number of the round after another, if there may be one more. -/
def nextRound (min : Nat) (max : Option Nat) (round : Nat) : Option Nat :=
  match max with
  | none => some (Nat.min (round + 1) min)
  | some max => if round + 1 < max then some (round + 1) else none

/-- A round that a mark has just entered, if any. -/
def enterRound (read : Bool → List Marks → List Marks) :
    Option Nat → List (Nat × List Marks)
  | none => []
  | some round =>
      let marks := read true []
      if marks.isEmpty then [] else [(round, marks)]

/-- Move the marks in the rounds of a repetition, which stand in increasing order. A mark
that leaves a round enters the next; `entering` is the round that a mark is about to
enter. -/
def readRounds (next : Nat → Option Nat) (leaves : List Marks → Bool)
    (read : Bool → List Marks → List Marks) :
    (entering : Option Nat) → List (Nat × List Marks) → List (Nat × List Marks)
  | entering, [] => enterRound read entering
  | entering, (round, marks) :: rest =>
      let onward := if leaves marks then next round else none
      let here := read (entering == some round || onward == some round) marks
      let earlier := if entering == some round then [] else enterRound read entering
      let onward := if onward == some round then none else onward
      let later := readRounds next leaves read onward rest
      earlier ++ if here.isEmpty then later else (round, here) :: later

mutual

/-- The marks in a node after one more character, given those before it and whether one
has entered. -/
def Node.read (c : Char) : Node → (entered : Bool) → Marks → Marks
  | .literal a, entered, _ => .ofCharacter (entered && a == c)
  | .oneOf items, entered, _ => .ofCharacter (entered && classContains items c)
  | .endAnchor, _, _ => .none
  | .group inner, entered, marks => .ofParts (Pattern.read c inner entered marks.parts)
  | .alternation branches, entered, marks =>
      .ofParts (Pattern.readEach c branches entered marks.parts)
  | .repetition min max body, entered, marks =>
      .ofRounds (readRounds (nextRound min max) (Pattern.leaves false body false)
        (fun entered marks => Pattern.read c body entered marks)
        (if entered then firstRound max else none) marks.rounds)

/-- The marks in the parts of a sequence. A mark that leaves a part, or can pass it,
enters the next. -/
def Pattern.read (c : Char) : List Node → (entered : Bool) → List Marks → List Marks
  | [], _, _ => []
  | node :: rest, entered, [] =>
      if entered then
        (node.read c true .none).before (Pattern.read c rest (node.passable false) [])
      else []
  | node :: rest, entered, marks :: more =>
      let here := if entered || marks.isActive then node.read c entered marks else .none
      let onward := node.leaves false marks || (entered && node.passable false)
      here.before (Pattern.read c rest onward more)

/-- The marks in the branches of an alternation. -/
def Pattern.readEach (c : Char) :
    List (List Node) → (entered : Bool) → List Marks → List Marks
  | [], _, _ => []
  | branch :: rest, entered, [] =>
      if entered then
        (Marks.ofParts (Pattern.read c branch true [])).before
          (Pattern.readEach c rest true [])
      else []
  | branch :: rest, entered, marks :: more =>
      (Marks.ofParts (Pattern.read c branch entered marks.parts)).before
        (Pattern.readEach c rest entered more)

end

end Guided
