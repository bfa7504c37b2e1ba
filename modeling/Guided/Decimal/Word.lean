/-!
# Numbers of fixed width

The first natural numbers that no longer fit in four and in eight bytes.
-/
namespace Guided

/-- Numbers below this one fit in 32 bits. -/
def word32Bound : Nat := 4294967296

/-- Numbers below this one fit in 64 bits. -/
def word64Bound : Nat := 18446744073709551616

end Guided
