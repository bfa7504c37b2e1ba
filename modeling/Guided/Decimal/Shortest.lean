import Guided.Decimal.Binary

/-!
# Shortest decimals

The decimal text of a floating-point number has as few digits as determine it: among the
decimals that round to the number it takes one with the fewest digits, and of those the
nearest. It is found by trying one digit, two digits and so on; on a decimal grid only
the two neighbours of the number can be the nearest.

## Main definitions

* `FloatFormat.shortest`: digits and decimal exponent.
* `PointLayout`, `PointLayout.chars`: where the point goes.
* `Float64.chars`, `Float32.chars`: the text of a finite number.
-/
namespace Guided

/-- The decimal number `digits * 10 ^ exponent`. -/
structure DecimalNumber where
  digits : Nat
  exponent : Int
deriving DecidableEq, Repr

/-- The power of ten of the leading digit of `n / d`. -/
def leadingPower (n d : Nat) : Int :=
  if d ≤ n then ((Nat.toDigits 10 (n / d)).length : Int) - 1
  else
    let t := (Nat.toDigits 10 (d / n)).length - 1
    if d ≤ n * Nat.pow 10 t then -(t : Int) else -(t : Int) - 1

/-- The decimals that round to a magnitude, as ratios over one denominator. The ends
belong to them exactly when the significand is even. -/
structure RoundingInterval where
  low : Nat
  value : Nat
  high : Nat
  denominator : Nat
  closed : Bool

/-- The interval of a code. Below a power of two the step is half as long. -/
def FloatFormat.interval (f : FloatFormat) (code : Nat) : RoundingInterval :=
  let m := f.significand code
  let k := f.shift code
  let below := if m = Nat.pow 2 f.fractionBits ∧ 0 < k then 1 else 2
  let unit := Nat.pow 2 k
  ⟨(4 * m - below) * unit, 4 * m * unit, (4 * m + 2) * unit, 4 * Nat.pow 2 f.offset, m % 2 = 0⟩

/-- Whether `c * 10 ^ exponent` lies in the interval. -/
def RoundingInterval.contains (i : RoundingInterval) (c : Nat) (exponent : Int) : Bool :=
  let up := Nat.pow 10 exponent.toNat
  let down := Nat.pow 10 (-exponent).toNat
  let x := c * up * i.denominator
  let low := i.low * down
  let high := i.high * down
  if i.closed then low ≤ x && x ≤ high else low < x && x < high

/-- The better of the two neighbours on the grid of multiples of `10 ^ exponent`, if one
of them lies in the interval; of two equally near ones the even. -/
def RoundingInterval.onGrid (i : RoundingInterval) (exponent : Int) : Option Nat :=
  let n := i.value * Nat.pow 10 (-exponent).toNat
  let d := i.denominator * Nat.pow 10 exponent.toNat
  let lower := n / d
  let nearest := FloatFormat.roundHalfEven n d
  let other := if nearest = lower then lower + 1 else lower
  if i.contains nearest exponent then some nearest
  else if i.contains other exponent then some other
  else none

/-- The first grid from `exponent` downwards that has a point in the interval. -/
def RoundingInterval.firstOnGrid (i : RoundingInterval) : Nat → Int → DecimalNumber
  | 0, exponent => ⟨(i.onGrid exponent).getD 0, exponent⟩
  | tries + 1, exponent =>
      match i.onGrid exponent with
      | some c => ⟨c, exponent⟩
      | none => firstOnGrid i tries (exponent - 1)

/-- A decimal without trailing zeros; the fuel bounds their number. -/
def DecimalNumber.strip : Nat → DecimalNumber → DecimalNumber
  | 0, x => x
  | fuel + 1, x =>
      if x.digits % 10 = 0 ∧ x.digits ≠ 0 then strip fuel ⟨x.digits / 10, x.exponent + 1⟩ else x

/-- The shortest decimal of a positive finite magnitude. Seventeen digits always
determine it. -/
def FloatFormat.shortest (f : FloatFormat) (code : Nat) : DecimalNumber :=
  let i := f.interval code
  ((i.firstOnGrid 17 (leadingPower i.value i.denominator)).strip 20)

/-- Which numbers are written without an exponent: those whose point stands at most
`largest` digits after the first digit, and more than `smallest` before it. -/
structure PointLayout where
  largest : Int
  smallest : Int

/-- An exponent, which always has a sign. -/
def exponentChars (n : Int) : List Char :=
  'e' :: (if n < 0 then '-' else '+') :: Nat.toDigits 10 n.natAbs

/-- The text of a decimal. The text of a number without an exponent always has a point. -/
def PointLayout.chars (l : PointLayout) (x : DecimalNumber) : List Char :=
  let digits := Nat.toDigits 10 x.digits
  let point : Int := digits.length + x.exponent
  if 0 ≤ x.exponent ∧ point ≤ l.largest then
    digits ++ List.replicate x.exponent.toNat '0' ++ ['.', '0']
  else if 0 < point ∧ point ≤ l.largest then
    digits.take point.toNat ++ '.' :: digits.drop point.toNat
  else if l.smallest < point ∧ point ≤ 0 then
    '0' :: '.' :: List.replicate (-point).toNat '0' ++ digits
  else
    let exponent := exponentChars (point - 1)
    match digits with
    | d :: e :: rest => d :: '.' :: e :: rest ++ exponent
    | digits => digits ++ exponent

/-- A signed magnitude in a format, written by a layout. -/
def FloatFormat.chars (f : FloatFormat) (l : PointLayout) (negative : Bool) (code : Nat) :
    List Char :=
  (if negative then ['-'] else []) ++
    if code = 0 then ['0', '.', '0'] else l.chars (f.shortest code)

/-- Numbers of eight bytes have up to sixteen digits before the point and up to four
zeros after it. -/
def Float64.layout : PointLayout := ⟨16, -5⟩

/-- Numbers of four bytes have up to thirteen digits before the point and up to five
zeros after it. -/
def Float32.layout : PointLayout := ⟨13, -6⟩

/-- The text of a finite number. -/
def Float64.chars (x : Float64) : List Char :=
  FloatFormat.double.chars Float64.layout x.negative x.code

/-- The text of a finite number. -/
def Float32.chars (x : Float32) : List Char :=
  FloatFormat.single.chars Float32.layout x.negative x.code

end Guided
