import JsonSieve.Token

/-!
# The lexer

A finite automaton reads a token octet by octet.  The octet with which no token can go on
belongs to the unknown token that it completes; only a number is known to be over by the octet
after it, which is left for the next token.  A cursor is a place in some input from which
tokens are read one at a time, after leading blanks.
-/

namespace JsonSieve

namespace Lexer

/-- How much of a token has been read. -/
inductive State
  /-- Nothing yet. -/
  | start
  /-- A string without its closing quote, all of it printable ASCII if it is plain. -/
  | string (plain : Bool)
  /-- A string up to a backslash. -/
  | escape
  /-- A string up to an escape of which so many hexadecimal digits have to follow the next
  one. -/
  | unicode (further : Nat)
  /-- A minus. -/
  | minus
  /-- A number with the whole part zero. -/
  | zero
  /-- A number with another whole part. -/
  | whole
  /-- A number up to its point. -/
  | point
  /-- A number with a fraction. -/
  | fraction
  /-- A number up to the letter of its exponent. -/
  | exponent
  /-- A number up to the sign of its exponent. -/
  | exponentSign
  /-- A number with an exponent. -/
  | exponentDigits
  /-- A word that these octets would complete as a token of this class. -/
  | word (missing : Bytes) (kind : Token.Kind)

/-- What an octet means for the token being read. -/
inductive Outcome
  /-- It belongs to the token, which goes on. -/
  | more (state : State)
  /-- It is the last octet of the token. -/
  | last (kind : Token.Kind)
  /-- The token was complete before it. -/
  | before (kind : Token.Kind)

def isDigit (octet : UInt8) : Bool :=
  0x30 ≤ octet && octet ≤ 0x39

def isHexDigit (octet : UInt8) : Bool :=
  isDigit octet || (0x41 ≤ octet && octet ≤ 0x46) || (0x61 ≤ octet && octet ≤ 0x66)

def isExponentLetter (octet : UInt8) : Bool :=
  octet = 0x45 || octet = 0x65

/-- Whether an octet may follow a backslash by itself. -/
def isSimpleEscape (octet : UInt8) : Bool :=
  octet = 0x22 || octet = 0x2f || octet = 0x5c || octet = 0x62 || octet = 0x66 ||
    octet = 0x6e || octet = 0x72 || octet = 0x74

/-- Whether a plain string may hold an octet. -/
def isPlain (octet : UInt8) : Bool :=
  0x20 ≤ octet && octet < 0x7f

/-- The classes of the tokens that are one octet long. -/
def punctuation? (octet : UInt8) : Option Token.Kind :=
  if octet = 0x7b then some .openBrace
  else if octet = 0x7d then some .closeBrace
  else if octet = 0x3a then some .colon
  else if octet = 0x5b then some .openBracket
  else if octet = 0x5d then some .closeBracket
  else if octet = 0x2c then some .comma
  else none

def State.beginLonger (octet : UInt8) : Outcome :=
  if octet = 0x22 then .more (.string true)
  else if octet = 0x2d then .more .minus
  else if octet = 0x30 then .more .zero
  else if isDigit octet then .more .whole
  else if octet = 0x74 then .more (.word [0x72, 0x75, 0x65] .trueWord)
  else if octet = 0x66 then .more (.word [0x61, 0x6c, 0x73, 0x65] .falseWord)
  else if octet = 0x6e then .more (.word [0x75, 0x6c, 0x6c] .nullWord)
  else .last .unknown

def State.begin (octet : UInt8) : Outcome :=
  match punctuation? octet with
  | some kind => .last kind
  | none => State.beginLonger octet

/-- What an octet means in a state. -/
def State.next : State → UInt8 → Outcome
  | .start, octet => State.begin octet
  | .string plain, octet =>
      if octet = 0x22 then .last (if plain then .string else .escapedString)
      else if octet = 0x5c then .more .escape
      else .more (.string (plain && isPlain octet))
  | .escape, octet =>
      if isSimpleEscape octet then .more (.string false)
      else if octet = 0x75 then .more (.unicode 3)
      else .last .unknown
  | .unicode further, octet =>
      if isHexDigit octet then
        match further with
        | 0 => .more (.string false)
        | further + 1 => .more (.unicode further)
      else .last .unknown
  | .minus, octet =>
      if octet = 0x30 then .more .zero
      else if isDigit octet then .more .whole
      else .last .unknown
  | .zero, octet =>
      if octet = 0x2e then .more .point
      else if isExponentLetter octet then .more .exponent
      else .before .integer
  | .whole, octet =>
      if isDigit octet then .more .whole
      else if octet = 0x2e then .more .point
      else if isExponentLetter octet then .more .exponent
      else .before .integer
  | .point, octet =>
      if isDigit octet then .more .fraction else .last .unknown
  | .fraction, octet =>
      if isDigit octet then .more .fraction
      else if isExponentLetter octet then .more .exponent
      else .before .number
  | .exponent, octet =>
      if octet = 0x2b || octet = 0x2d then .more .exponentSign
      else if isDigit octet then .more .exponentDigits
      else .last .unknown
  | .exponentSign, octet =>
      if isDigit octet then .more .exponentDigits else .last .unknown
  | .exponentDigits, octet =>
      if isDigit octet then .more .exponentDigits else .before .number
  | .word [] _, _ => .last .unknown
  | .word [expected] kind, octet =>
      if octet = expected then .last kind else .last .unknown
  | .word (expected :: missing) kind, octet =>
      if octet = expected then .more (.word missing kind) else .last .unknown

/-- The class of a token that the end of the input cuts off.  Only numbers can end there. -/
def State.kindAtEnd : State → Token.Kind
  | .zero | .whole => .integer
  | .fraction | .exponentDigits => .number
  | _ => .unknown

/-- The token at the front of the input, of which some octets have been read: its class and
its remaining octets. -/
def scan : State → Bytes → Token
  | state, [] => ⟨state.kindAtEnd, []⟩
  | state, octet :: octets =>
      match state.next octet with
      | .more state =>
          let token := scan state octets
          ⟨token.kind, octet :: token.raw⟩
      | .last kind => ⟨kind, [octet]⟩
      | .before kind => ⟨kind, []⟩

def isBlank (octet : UInt8) : Bool :=
  octet = 0x20 || octet = 0x09 || octet = 0x0a || octet = 0x0d

/-- The token at the front of an input without leading blanks. -/
def firstToken (input : Bytes) : Token :=
  if input.isEmpty then .atEnd else scan .start input

end Lexer

/-- A place in an input.  It may lie past the end. -/
structure Cursor where
  input : Bytes
  position : Nat

namespace Cursor

def start (input : Bytes) : Cursor := ⟨input, 0⟩

/-- The same input at another place. -/
def seek (cursor : Cursor) (position : Nat) : Cursor :=
  { cursor with position := position }

def ahead (cursor : Cursor) : Bytes :=
  cursor.input.drop cursor.position

/-- Reads one token after leading blanks and moves past it.  At the end of the input the
cursor moves past the blanks only. -/
def step (cursor : Cursor) : Token × Cursor :=
  let blanks := cursor.ahead.takeWhile Lexer.isBlank
  let token := Lexer.firstToken (cursor.ahead.dropWhile Lexer.isBlank)
  (token, cursor.seek (cursor.position + blanks.length + token.raw.length))

def next? (cursor : Cursor) : Option Token × Cursor :=
  let (token, cursor) := cursor.step
  (if token.kind = .endOfInput then none else some token, cursor)

end Cursor

namespace Lexer

/-- The first octet always belongs to the token. -/
theorem begin_ne_before (octet : UInt8) (kind : Token.Kind) :
    State.begin octet ≠ .before kind := by
  intro equal
  unfold State.begin at equal
  split at equal
  · contradiction
  · grind [State.beginLonger]

theorem firstToken_raw_pos {input : Bytes} (nonempty : input ≠ []) :
    0 < (firstToken input).raw.length := by
  cases input with
  | nil => exact absurd rfl nonempty
  | cons octet octets =>
      simp only [firstToken, List.isEmpty_cons, Bool.false_eq_true, if_false, scan, State.next]
      split
      · simp
      · simp
      · rename_i kind equal
        exact absurd equal (begin_ne_before octet kind)

/-- The tokens of an input that begins at this offset, each with its own offset, without the
end. -/
def tokensFrom (offset : Nat) (input : Bytes) : List (Nat × Token) :=
  match _nonempty : input.dropWhile isBlank with
  | [] => []
  | octet :: octets =>
      let token := firstToken (octet :: octets)
      let position := offset + (input.takeWhile isBlank).length
      (position, token) ::
        tokensFrom (position + token.raw.length) ((octet :: octets).drop token.raw.length)
termination_by input.length
decreasing_by
  have positive := firstToken_raw_pos (List.cons_ne_nil octet octets)
  have shorter := (List.dropWhile_suffix (l := input) isBlank).length_le
  simp only [_nonempty, List.length_cons] at shorter
  simp only [List.length_drop, List.length_cons]
  omega

def locatedTokens (input : Bytes) : List (Nat × Token) :=
  tokensFrom 0 input

/-- All tokens of an input, the end included. -/
def tokenize (input : Bytes) : List Token :=
  (locatedTokens input).map Prod.snd ++ [.atEnd]

end Lexer

/-- Reads all remaining tokens, without the end, and moves to the end of the input. -/
def Cursor.drain (cursor : Cursor) : List Token × Cursor :=
  ((Lexer.tokensFrom cursor.position cursor.ahead).map Prod.snd,
    cursor.seek (max cursor.position cursor.input.length))

end JsonSieve
