/-!
# Decimal numerals of 64-bit integers
-/

namespace Treewalk

/-- The value of a row of decimal digits, the highest first. -/
def decimalValue (digits : List Char) : Nat :=
  digits.foldl (fun n d => 10 * n + (d.toNat - '0'.toNat)) 0

/-- A numeral needs a digit, and nothing but digits. -/
def readDigits (digits : List Char) : Option Nat :=
  if digits ≠ [] ∧ digits.all Char.isDigit then some (decimalValue digits) else none

/-- Digits with at most one sign before them. -/
def readSigned : List Char → Option Int
  | '-' :: digits => (readDigits digits).map fun n => -(n : Int)
  | '+' :: digits => (readDigits digits).map fun n => (n : Int)
  | digits => (readDigits digits).map fun n => (n : Int)

def fitsInt64 (n : Int) : Bool := Int64.minValue.toInt ≤ n && n ≤ Int64.maxValue.toInt

/-- The integer that a numeral denotes, if 64 bits hold it. -/
def readInt64 (s : String) : Option Int64 :=
  match readSigned s.toList with
  | some n => if fitsInt64 n then some (Int64.ofInt n) else none
  | none => none

end Treewalk
