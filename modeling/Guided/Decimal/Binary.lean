/-!
# Binary fractions

Floating-point numbers as exact integers. A finite magnitude is a code: the exponent
field followed by the fraction field, so that larger magnitudes have larger codes. All
arithmetic is on natural numbers, and rounding is to the nearest magnitude, a half going
to the even one.

## Main definitions

* `FloatFormat`, `FloatFormat.double`, `FloatFormat.single`.
* `FloatFormat.ofRatio`: the code nearest to a ratio.
* `FloatFormat.significand`, `FloatFormat.shift`: the exact value of a code.
* `Float64`, `Float32`: signed magnitudes.
-/
namespace Guided

/-- A layout of binary floating-point numbers: bits of the fraction, the negated exponent
of the smallest step, and the code after that of the largest finite magnitude. -/
structure FloatFormat where
  fractionBits : Nat
  offset : Nat
  infinity : Nat

namespace FloatFormat

/-- Eight bytes: a fraction of 52 bits and eleven bits of exponent. -/
def double : FloatFormat := ⟨52, 1074, 2047 * Nat.pow 2 52⟩

/-- Four bytes: a fraction of 23 bits and eight bits of exponent. -/
def single : FloatFormat := ⟨23, 149, 255 * Nat.pow 2 23⟩

/-- The shift of a code: its value is `significand * 2 ^ shift / 2 ^ offset`. -/
def shift (f : FloatFormat) (code : Nat) : Nat := code / Nat.pow 2 f.fractionBits - 1

/-- The significand of a code. The smallest codes have no implicit leading bit. -/
def significand (f : FloatFormat) (code : Nat) : Nat :=
  code - f.shift code * Nat.pow 2 f.fractionBits

/-- The value of a code, counted in the smallest step of the format. -/
def steps (f : FloatFormat) (code : Nat) : Nat := f.significand code * Nat.pow 2 (f.shift code)

/-- A quotient rounded to the nearest integer, a half to the even one. -/
def roundHalfEven (n d : Nat) : Nat :=
  let q := n / d
  let r := n % d
  if 2 * r < d then q
  else if d < 2 * r then q + 1
  else q + q % 2

/-- The code nearest to the ratio `n / d`. A ratio beyond the largest finite magnitude
gets the code of infinity. -/
def ofRatio (f : FloatFormat) (n d : Nat) : Nat :=
  let n := n * Nat.pow 2 f.offset
  let k := Nat.log2 (n / d) - f.fractionBits
  Nat.min f.infinity (k * Nat.pow 2 f.fractionBits + roundHalfEven n (d * Nat.pow 2 k))

end FloatFormat

/-- A signed number of eight bytes. -/
structure Float64 where
  negative : Bool
  code : Nat
deriving DecidableEq, Repr

namespace Float64

/-- Whether the number is finite. -/
def isFinite (x : Float64) : Bool := x.code < FloatFormat.double.infinity

/-- The number nearest to a ratio. -/
def ofRatio (negative : Bool) (n d : Nat) : Float64 :=
  ⟨negative, FloatFormat.double.ofRatio n d⟩

end Float64

/-- A signed number of four bytes. -/
structure Float32 where
  negative : Bool
  code : Nat
deriving DecidableEq, Repr

namespace Float32

/-- Whether the number is finite. -/
def isFinite (x : Float32) : Bool := x.code < FloatFormat.single.infinity

/-- The nearest number of four bytes. -/
def ofFloat64 (x : Float64) : Float32 :=
  if x.isFinite then
    ⟨x.negative, FloatFormat.single.ofRatio (FloatFormat.double.steps x.code)
      (Nat.pow 2 FloatFormat.double.offset)⟩
  else ⟨x.negative, FloatFormat.single.infinity⟩

/-- The number of four bytes nearest to an integer. -/
def ofInt (n : Int) : Float32 := ⟨n < 0, FloatFormat.single.ofRatio n.natAbs 1⟩

/-- The same number in eight bytes. -/
def toFloat64 (x : Float32) : Float64 :=
  if x.isFinite then
    Float64.ofRatio x.negative (FloatFormat.single.steps x.code)
      (Nat.pow 2 FloatFormat.single.offset)
  else ⟨x.negative, FloatFormat.double.infinity⟩

end Float32

end Guided
