import JsonSieve.Binary64.Rounding
import JsonSieve.Digits
import JsonSieve.Json.Value

/-!
# JSON numerals

A numeral is read into its parts first, and its parts are then given a value.  An integer
that fits into 64 bits is exact.  Any other numeral is a floating point number: its leading
digits form a significand below `2 ^ 64`, which is rounded and then multiplied or divided by one
rounded power of ten.  The two roundings are part of the rule, so the value is not always the
number nearest to the numeral.
-/

namespace JsonSieve.Json

/-- The parts of a numeral.  The fraction is empty if there is no point, and an exponent is
its sign, `true` for a minus, with its digits. -/
structure Numeral where
  negative : Bool
  whole : List Char
  fraction : List Char
  exponent : Option (Bool × List Char)
  deriving DecidableEq

namespace Numeral

/-- The digits at the front, at least one, and what follows them. -/
def readDigits? (input : List Char) : Option (List Char × List Char) :=
  if (input.takeWhile Char.isDigit).isEmpty then none
  else some (input.takeWhile Char.isDigit, input.dropWhile Char.isDigit)

def readMinus : List Char → Bool × List Char
  | '-' :: rest => (true, rest)
  | input => (false, input)

/-- The whole part: one zero, or digits. -/
def readWhole? : List Char → Option (List Char × List Char)
  | '0' :: rest => some (['0'], rest)
  | input => readDigits? input

def readFraction? : List Char → Option (List Char × List Char)
  | '.' :: rest => readDigits? rest
  | input => some ([], input)

/-- The optional sign of an exponent: whether it is a minus. -/
def readSign : List Char → Bool × List Char
  | '+' :: rest => (false, rest)
  | input => readMinus input

def readExponent? : List Char → Option (Option (Bool × List Char) × List Char)
  | [] => some (none, [])
  | letter :: rest =>
      if letter = 'e' || letter = 'E' then
        let (negative, input) := readSign rest
        (readDigits? input).map (fun (digits, rest) => (some (negative, digits), rest))
      else
        some (none, letter :: rest)

def read? (input : List Char) : Option (Numeral × List Char) := do
  let (negative, input) := readMinus input
  let (whole, input) ← readWhole? input
  let (fraction, input) ← readFraction? input
  let (exponent, input) ← readExponent? input
  return (⟨negative, whole, fraction, exponent⟩, input)

/-- Significands stay below this bound. -/
def significandBound : Nat := UInt64.size

/-- Appends digits to a significand up to the first one with which it would reach its bound.
Also returns how many digits are left out, that one and all after it. -/
def appendDigits (significand : Nat) : List Char → Nat × Nat
  | [] => (significand, 0)
  | digit :: digits =>
      let next := significand * 10 + Digits.value digit
      if next < significandBound then appendDigits next digits
      else (significand, digits.length + 1)

/-- The greatest power of ten by which a number is multiplied or divided at once. -/
def greatestPower : Nat := 308

/-- A number divided by a power of ten, at most the greatest one at a time. -/
def dividedByPower (number : Binary64) (places : Nat) : Binary64 :=
  if places ≤ greatestPower then
    number.quotient (Binary64.ofNat (Nat.pow 10 places))
  else if number.rank = 0 then
    number
  else
    dividedByPower (number.quotient (Binary64.ofNat (Nat.pow 10 greatestPower)))
      (places - greatestPower)
termination_by places
decreasing_by simp only [greatestPower] at *; omega

/-- A significand times a power of ten, unless that is too large to be finite. -/
def scaled? (significand : Nat) (exponent : Int) : Option Binary64 :=
  let number := Binary64.ofNat significand
  if exponent < 0 then
    some (dividedByPower number exponent.natAbs)
  else if exponent ≤ greatestPower then
    let product := number.product (Binary64.ofNat (Nat.pow 10 exponent.toNat))
    if product.isFinite then some product else none
  else if significand = 0 then
    some number
  else
    none

/-- Written exponents beyond this bound are not evaluated. -/
def greatestExponent : Nat := 0x7fffffff

def magnitude? (numeral : Numeral) : Option Binary64 :=
  let (whole, omitted) := appendDigits 0 numeral.whole
  let (significand, ignored) := appendDigits whole numeral.fraction
  let places := numeral.fraction.length - ignored
  let shift : Int := (omitted : Int) - (places : Int)
  match numeral.exponent with
  | none => scaled? significand shift
  | some (negative, digits) =>
      let written := Digits.toNat digits
      if written ≤ greatestExponent then
        scaled? significand (if negative then shift - written else shift + written)
      else if negative || significand = 0 then
        some Binary64.zero
      else
        none

/-- The exact value of a numeral without fraction and exponent, if it fits into 64 bits.
Minus zero is no integer. -/
def integer? (numeral : Numeral) : Option Int :=
  if numeral.fraction.isEmpty && numeral.exponent.isNone then
    let (magnitude, omitted) := appendDigits 0 numeral.whole
    if omitted ≠ 0 then none
    else if !numeral.negative then some magnitude
    else if 0 < magnitude ∧ magnitude ≤ 1 <<< 63 then some (-(magnitude : Int))
    else none
  else
    none

/-- The value of a numeral, unless its magnitude is too large. -/
def value? (numeral : Numeral) : Option Number :=
  match numeral.integer? with
  | some value => some (.integer value)
  | none =>
      numeral.magnitude?.map (fun magnitude =>
        .float (if numeral.negative then magnitude.negate else magnitude))

end Numeral

end JsonSieve.Json
