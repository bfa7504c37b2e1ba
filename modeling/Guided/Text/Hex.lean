/-!
# Hexadecimal digits

## Main definitions

* `hexDigit?`: the value of a digit, in either case.
* `hexDigitChar`, `hexChars`: digits in lower case.
-/
namespace Guided

/-- The value of a hexadecimal digit. -/
def hexDigit? (c : Char) : Option Nat :=
  if '0' ≤ c ∧ c ≤ '9' then some (c.toNat - 48)
  else if 'a' ≤ c ∧ c ≤ 'f' then some (c.toNat - 87)
  else if 'A' ≤ c ∧ c ≤ 'F' then some (c.toNat - 55)
  else none

/-- A number in base sixteen, without leading zeros. -/
def hexChars (n : Nat) : List Char := Nat.toDigits 16 n

/-- The last hexadecimal digit of a number. -/
def hexDigitChar (n : Nat) : Char := Nat.digitChar (n % 16)

end Guided
