import JsonSieve.Decimal
import JsonSieve.Json.Value

/-!
# JSON text

The compact text of a JSON value: no blanks, object members in their order, and in strings
only the characters escaped that JSON requires to be.  A floating point number always shows a
fraction or an exponent, so that it is never taken for an integer.
-/

namespace JsonSieve.Json

/-- The lower case hexadecimal digits of a code below 256, always two of them. -/
def twoHexDigits (code : Nat) : List Char :=
  [Nat.digitChar (code / 16), Nat.digitChar (code % 16)]

def escaped (character : Char) : List Char :=
  if character = '"' then ['\\', '"']
  else if character = '\\' then ['\\', '\\']
  else if 0x20 ≤ character.toNat then [character]
  else if character.toNat = 0x08 then ['\\', 'b']
  else if character.toNat = 0x09 then ['\\', 't']
  else if character.toNat = 0x0a then ['\\', 'n']
  else if character.toNat = 0x0c then ['\\', 'f']
  else if character.toNat = 0x0d then ['\\', 'r']
  else ['\\', 'u', '0', '0'] ++ twoHexDigits character.toNat

/-- A text as a JSON string. -/
def quoted (text : String) : List Char :=
  '"' :: text.toList.flatMap escaped ++ ['"']

def writtenInteger (value : Int) : List Char :=
  if value < 0 then '-' :: Digits.ofNat value.natAbs
  else Digits.ofNat value.natAbs

/-- Floating point numbers are positional from `0.00001` up to, but not including, `1e+16`. -/
def floatStyle : Decimal.Style := ⟨-5, 15⟩

def writtenMagnitude (rank : Nat) : List Char :=
  if rank = 0 then ['0', '.', '0']
  else (Decimal.shortest rank).written floatStyle

/-- A floating point number; JSON has no text but `null` for what is not finite. -/
def writtenFloat (value : Binary64) : List Char :=
  if value.isFinite then
    if value.negative then '-' :: writtenMagnitude value.rank else writtenMagnitude value.rank
  else
    ['n', 'u', 'l', 'l']

def writtenNumber : Number → List Char
  | .integer value => writtenInteger value
  | .float value => writtenFloat value

def commaSeparated : List (List Char) → List Char
  | [] => []
  | [piece] => piece
  | piece :: next :: pieces => piece ++ ',' :: commaSeparated (next :: pieces)

namespace Value

mutual

def written : Value → List Char
  | .null => ['n', 'u', 'l', 'l']
  | .boolean true => ['t', 'r', 'u', 'e']
  | .boolean false => ['f', 'a', 'l', 's', 'e']
  | .number value => writtenNumber value
  | .string text => quoted text
  | .array items => '[' :: commaSeparated (writtenItems items) ++ [']']
  | .object members => '\x7b' :: commaSeparated (writtenMembers members) ++ ['\x7d']

def writtenItems : List Value → List (List Char)
  | [] => []
  | item :: items => item.written :: writtenItems items

def writtenMembers : List (String × Value) → List (List Char)
  | [] => []
  | (key, value) :: members =>
      (quoted key ++ ':' :: value.written) :: writtenMembers members

end

/-- The compact text of a value. -/
def text (value : Value) : String :=
  String.ofList value.written

end Value

end JsonSieve.Json
