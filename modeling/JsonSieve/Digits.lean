/-!
# Decimal digits

Natural numbers and the decimal digits that spell them.
-/

namespace JsonSieve.Digits

/-- The digits of a number, without leading zeros. -/
def ofNat (number : Nat) : List Char :=
  Nat.toDigits 10 number

/-- The number for which one digit stands. -/
def value (digit : Char) : Nat :=
  digit.toNat - '0'.toNat

def toNat (digits : List Char) : Nat :=
  digits.foldl (fun number digit => number * 10 + value digit) 0

/-- Words of a machine are below this bound. -/
def wordBound : Nat := UInt64.size

/-- The word that a text spells: digits after at most one plus, for a number below the
bound. -/
def readWord? (text : List Char) : Option Nat :=
  let digits := if text.head? = some '+' then text.drop 1 else text
  if !digits.isEmpty && digits.all Char.isDigit && toNat digits < wordBound then
    some (toNat digits)
  else
    none

end JsonSieve.Digits
