/-!
# Decimal numbers

The value of a row of decimal digits. `Nat.repr` writes a number this way.
-/

namespace GrowthFlow.Text

/-- The value of a row of decimal digits, the most significant first. -/
def decimalValue (digits : List Char) : Nat :=
  digits.foldl (fun n c => 10 * n + (c.toNat - '0'.toNat)) 0

end GrowthFlow.Text
