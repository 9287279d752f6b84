import JsonSieve.Json.Text
import JsonSieve.Token.Lexer

/-!
# Listings of tokens

The tokens of an input are shown one on each line, plain or in colour, or as one JSON array of
records.  A token is listed with the offset of its first octet; the end of the input is not
listed.
-/

namespace JsonSieve

namespace Token

def toRecord (offset : Nat) (token : Token) : Json.Value :=
  .object [
    ("offset", .number (.integer offset)),
    ("kind", .string token.kind.recordName),
    ("text", .string token.text)]

/-- A number at the right end of a column of eight places. -/
def offsetColumn (offset : Nat) : List Char :=
  let digits := Digits.ofNat offset
  List.replicate (8 - digits.length) ' ' ++ digits

/-- The line of a token: its offset, its class and its text. -/
def plainLine (offset : Nat) (token : Token) : List Char :=
  offsetColumn offset ++ ' ' :: token.kind.label.toList ++ ' ' :: token.text.toList ++ ['\n']

inductive Colour
  | red
  | green
  | yellow
  | cyan

def Colour.code : Colour → List Char
  | .red => ['3', '1']
  | .green => ['3', '2']
  | .yellow => ['3', '3']
  | .cyan => ['3', '6']

structure Look where
  bold : Bool
  dimmed : Bool
  colour : Option Colour

def Look.inBold (look : Look) : Look :=
  { look with bold := true }

/-- The codes of a look, the colour last. -/
def Look.codes (look : Look) : List (List Char) :=
  (if look.bold then [['1']] else []) ++ (if look.dimmed then [['2']] else []) ++
    look.colour.toList.map Colour.code

/-- The control sequence that puts a look on. -/
def Look.opening (look : Look) : List Char :=
  ['\x1b', '['] ++ List.intercalate [';'] look.codes ++ ['m']

/-- The control sequence that takes every look off. -/
def closing : List Char := ['\x1b', '[', '0', 'm']

/-- Puts a look on again after every place in a text that takes it off. -/
def reopened (opening : List Char) : List Char → List Char
  | '\x1b' :: '[' :: '0' :: 'm' :: rest => closing ++ opening ++ reopened opening rest
  | character :: rest => character :: reopened opening rest
  | [] => []

def Look.apply (look : Look) (text : List Char) : List Char :=
  look.opening ++ reopened look.opening text ++ closing

def offsetLook : Look := ⟨false, true, none⟩

def Kind.look : Kind → Look
  | .unknown => ⟨false, false, some .red⟩
  | .endOfInput => ⟨false, true, none⟩
  | .openBrace | .closeBrace | .colon | .openBracket | .closeBracket | .comma =>
      ⟨false, false, some .cyan⟩
  | .string | .escapedString => ⟨false, false, some .green⟩
  | .trueWord | .falseWord => ⟨true, false, some .yellow⟩
  | .nullWord => ⟨false, true, some .red⟩
  | .number | .integer => ⟨false, false, some .yellow⟩

def colouredLine (offset : Nat) (token : Token) : List Char :=
  offsetLook.apply (offsetColumn offset) ++
    ' ' :: token.kind.look.inBold.apply token.kind.label.toList ++
    ' ' :: token.kind.look.apply token.text.toList ++ ['\n']

inductive Listing
  | plain
  | coloured
  | records
  deriving DecidableEq

def Listing.of (listing : Listing) (input : Bytes) : String :=
  let tokens := Lexer.locatedTokens input
  match listing with
  | .plain =>
      String.ofList (tokens.flatMap (fun (offset, token) => plainLine offset token))
  | .coloured =>
      String.ofList (tokens.flatMap (fun (offset, token) => colouredLine offset token))
  | .records =>
      (Json.Value.array (tokens.map (fun (offset, token) => toRecord offset token))).text ++ "\n"

end Token

end JsonSieve
