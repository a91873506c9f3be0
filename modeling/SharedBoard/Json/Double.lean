/-!
The range of binary64 numbers, in exact arithmetic. A decimal number is out of range when rounding its
significand and its power of ten to 53 bits, and then their product, reaches 2^1024.
-/

namespace SharedBoard.Double

/-- The nearest number of at most 53 significant bits; a tie goes to the even one. -/
def round53 (n : Nat) : Nat :=
  let unit := 1 <<< (n.log2 - 52)
  let q := n / unit
  let twice := 2 * (n % unit)
  let up := twice > unit || twice == unit && q % 2 == 1
  (if up then q + 1 else q) * unit

/-- Whether a significand times a power of ten is too large. -/
def overflows (significand : Nat) (exponent : Int) : Bool :=
  significand != 0 && (exponent > 308 ||
    exponent ≥ 0 && 1 <<< 1024 ≤ round53 (round53 significand * round53 (Nat.pow 10 exponent.toNat)))

end SharedBoard.Double
