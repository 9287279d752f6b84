import JsonSieve.Text.Utf8

/-!
# Tokens of a JSON text

A token is a class together with the octets it was read from.  Octets that form no token of
JSON still make one, of the class `unknown`, and the end of the input is a token as well.
-/

namespace JsonSieve

namespace Token

/-- The classes of tokens. -/
inductive Kind
  /-- Octets that form no token. -/
  | unknown
  /-- The end of the input. -/
  | endOfInput
  /-- A string of printable ASCII characters without escapes. -/
  | string
  /-- A string with escapes, control octets or octets beyond ASCII. -/
  | escapedString
  /-- A number with a fraction or an exponent. -/
  | number
  /-- A number without fraction and exponent. -/
  | integer
  | openBrace
  | closeBrace
  | colon
  | openBracket
  | closeBracket
  | comma
  | trueWord
  | falseWord
  | nullWord
  deriving DecidableEq

namespace Kind

/-- The name of a class in listings for readers. -/
def label : Kind → String
  | .unknown => "unknown"
  | .endOfInput => "end"
  | .string => "string"
  | .escapedString => "escape-string"
  | .number => "number"
  | .integer => "integer"
  | .openBrace => "object-start"
  | .closeBrace => "object-end"
  | .colon => "object-key-delim"
  | .openBracket => "array-start"
  | .closeBracket => "array-end"
  | .comma => "list-delim"
  | .trueWord => "true"
  | .falseWord => "false"
  | .nullWord => "null"

def recordName : Kind → String
  | .unknown => "Unknown"
  | .endOfInput => "End"
  | .string => "String"
  | .escapedString => "EscapeString"
  | .number => "Number"
  | .integer => "Integer"
  | .openBrace => "ObjectStart"
  | .closeBrace => "ObjectEnd"
  | .colon => "ObjectKeyDelim"
  | .openBracket => "ArrayStart"
  | .closeBracket => "ArrayEnd"
  | .comma => "ListDelim"
  | .trueWord => "True"
  | .falseWord => "False"
  | .nullWord => "Null"

def isValue : Kind → Bool
  | .string | .escapedString | .number | .integer | .trueWord | .falseWord | .nullWord => true
  | .unknown | .endOfInput | .openBrace | .closeBrace | .colon | .openBracket | .closeBracket
  | .comma => false

end Kind

end Token

/-- A token: its class and the octets it was read from. -/
structure Token where
  kind : Token.Kind
  raw : Bytes
  deriving DecidableEq

namespace Token

def atEnd : Token := ⟨.endOfInput, []⟩

/-- The octets of a token as a text. -/
def text (token : Token) : String :=
  Utf8.lossy token.raw

def description (token : Token) : String :=
  token.kind.label ++ "(" ++ token.text ++ ")"

end Token

end JsonSieve
