import Guided.Decimal.Word
import Guided.Json.Reader
import Guided.Value.Basic

/-!
# The value of a JSON text

A number without fraction and exponent is an integer if it fits in 64 bits, signed or
not; every other number is a binary fraction. A fraction is read from at most as many
leading digits as fit in 64 bits: these digits and the power of ten are each rounded to
binary, and so is their product or quotient. Of fields with the same name the last one
counts. Values nested too deeply are refused.

## Main definitions

* `Number.ofText?`, `Value.ofTree?`, `Value.parse?`.
-/
namespace Guided

/-- Exponents have to be below this number in size. -/
def exponentBound : Nat := word32Bound / 2

/-- The value of a digit. -/
def digitValue (c : Char) : Nat := c.toNat - 48

/-- A run of digits appended to a number as long as the result fits in 64 bits; the
digits that no longer fit are returned. -/
def appendDigits : Nat → List Char → Nat × List Char
  | n, [] => (n, [])
  | n, c :: rest =>
      let next := n * 10 + digitValue c
      if next < word64Bound then appendDigits next rest else (n, c :: rest)

/-- A power of ten that the scaling of a number is done by in one step. -/
def largestPower : Nat := 308

/-- The quotient of a code by a power of ten, which is itself rounded. A power that is too
large for one step is split, and every step is rounded. -/
def scaleDown : (fuel : Nat) → Nat → Nat → Nat
  | 0, code, _ => code
  | fuel + 1, code, places =>
      let f := FloatFormat.double
      let divide (k : Nat) : Nat :=
        let power := f.ofRatio (Nat.pow 10 k) 1
        f.ofRatio (f.steps code) (f.steps power)
      if places ≤ largestPower then divide places
      else if code = 0 then 0
      else scaleDown fuel (divide largestPower) (places - largestPower)

/-- The magnitude of `significand * 10 ^ exponent`, with the significand, the power of ten
and their product or quotient each rounded. There is none beyond the finite ones. -/
def scaled? (significand : Nat) (exponent : Int) : Option Nat :=
  let f := FloatFormat.double
  let code := f.ofRatio significand 1
  if exponent < 0 then some (scaleDown (exponent.natAbs / largestPower + 1) code exponent.natAbs)
  else if exponent ≤ largestPower then
    let power := f.ofRatio (Nat.pow 10 exponent.natAbs) 1
    let product := f.ofRatio (f.steps code * f.steps power) (Nat.pow 2 (2 * f.offset))
    if product < f.infinity then some product else none
  else if code = 0 then some 0
  else none

/-- The written exponent, kept within its bounds. A huge one makes zero out of anything
when it is negative, and otherwise only zero stays a number; `none` stands for these
cases. -/
def NumberText.exponentValue? (t : NumberText) : Option Int :=
  match t.exponent with
  | none => some 0
  | some (negative, digits) =>
      let n := digits.foldl (fun n c => n * 10 + digitValue c) 0
      if n < exponentBound then some (if negative then -(n : Int) else n) else none

/-- The number that a text writes, if there is one. -/
def Number.ofText? (t : NumberText) : Option Number :=
  let (significand, dropped) := appendDigits 0 t.whole
  if t.isInteger ∧ dropped.isEmpty then
    if t.negative then
      if significand ≠ 0 ∧ significand ≤ word64Bound / 2 then some (.integer (-(significand : Int)))
      else some (.fraction ⟨true, FloatFormat.double.ofRatio significand 1⟩)
    else some (.integer significand)
  else
    let fraction := t.fraction.getD []
    let (significand, unread) := appendDigits significand fraction
    let read := fraction.length - unread.length
    let shift : Int := dropped.length - read
    match t.exponentValue? with
    | some exponent =>
        (scaled? significand (shift + exponent)).map fun code => .fraction ⟨t.negative, code⟩
    | none =>
        if significand = 0 ∨ t.exponent.any (·.1) then some (.fraction ⟨t.negative, 0⟩) else none

mutual

/-- The value of a tree, which may hold at most `depth` lists and records within each
other. -/
def Value.ofTree? (depth : Nat) : JsonTree → Option Value
  | .null => some .null
  | .bool b => some (.bool b)
  | .number t => (Number.ofText? t).map .number
  | .string s => s.map .string
  | .array items =>
      match depth with
      | 0 => none
      | depth + 1 => (Value.ofItems? depth items).map .array
  | .object fields =>
      match depth with
      | 0 => none
      | depth + 1 => (Value.ofFields? depth fields).map fun fields => .object (Fields.ofList fields)

/-- The values of all items. -/
def Value.ofItems? (depth : Nat) : List JsonTree → Option (List Value)
  | [] => some []
  | item :: rest => do
      let item ← Value.ofTree? depth item
      let rest ← Value.ofItems? depth rest
      return item :: rest

/-- The values of all fields, in the order written. -/
def Value.ofFields? (depth : Nat) : List (Option String × JsonTree) → Option (List (String × Value))
  | [] => some []
  | (name, value) :: rest => do
      let name ← name
      let value ← Value.ofTree? depth value
      let rest ← Value.ofFields? depth rest
      return (name, value) :: rest

end

/-- How deep lists and records may be nested in a text. -/
def maxValueDepth : Nat := 127

/-- The value of a text. -/
def Value.parse? (text : String) : Option Value :=
  (JsonTree.parse text).bind (Value.ofTree? maxValueDepth)

end Guided
