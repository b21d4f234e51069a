import CompositeScan.Text.Basic

/-!
# Decimal numbers

Natural numbers written in decimal, and those of them that fit in 64 bits.
-/

namespace CompositeScan.Decimal

/-- The number that a sequence of decimal digits denotes. -/
def value? (t : Text) : Option Nat :=
  if t ≠ [] ∧ t.all Char.isDigit then some (Nat.ofDigitChars 10 t 0) else none

/-- A number without leading zeros. -/
def write (n : Nat) : Text := Nat.toDigits 10 n

/-- The greatest number of 64 bits. -/
def last : Nat := UInt64.size - 1

/-- The number of at most 64 bits that a sequence of decimal digits denotes. -/
def bounded? (t : Text) : Option Nat := (value? t).filter (· ≤ last)

end CompositeScan.Decimal
