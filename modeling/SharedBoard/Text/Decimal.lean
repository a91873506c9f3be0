/-!
Whole numbers in decimal. A natural number is read from a non-empty row of ASCII digits, leading
zeros included, and is written without them.
-/

namespace SharedBoard.Decimal

def value (c : Char) : Nat := c.toNat - '0'.toNat

/-- The number that a row of digits writes; none when there is no digit or another character. -/
def nat? (cs : List Char) : Option Nat :=
  if cs.isEmpty || !cs.all Char.isDigit then none else some (Nat.ofDigitChars 10 cs 0)

def ofNat (n : Nat) : List Char := Nat.toDigits 10 n

def ofInt (i : Int) : List Char := if i < 0 then '-' :: ofNat i.natAbs else ofNat i.natAbs

theorem isDigit_of_mem_ofNat {n : Nat} {c : Char} (h : c ∈ ofNat n) : c.isDigit :=
  Nat.isDigit_of_mem_toDigits (by decide) (by decide) h

end SharedBoard.Decimal
