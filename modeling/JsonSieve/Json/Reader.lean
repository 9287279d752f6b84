import JsonSieve.Json.Numeral

/-!
# Reading JSON

The reader accepts one JSON value with blanks around it and nothing else.  Arrays and objects
nest at most 127 levels deep, strings hold no raw control characters, and an escaped
surrogate is half of an escaped pair.
-/

namespace JsonSieve.Json

namespace Reader

def isBlank (character : Char) : Bool :=
  character = ' ' || character = '\t' || character = '\n' || character = '\r'

def skipBlanks (input : List Char) : List Char :=
  input.dropWhile isBlank

def hexValue? (digit : Char) : Option Nat :=
  if '0' ≤ digit ∧ digit ≤ '9' then some (digit.toNat - '0'.toNat)
  else if 'a' ≤ digit ∧ digit ≤ 'f' then some (digit.toNat - 'a'.toNat + 10)
  else if 'A' ≤ digit ∧ digit ≤ 'F' then some (digit.toNat - 'A'.toNat + 10)
  else none

def readFourHex? : List Char → Option (Nat × List Char)
  | first :: second :: third :: fourth :: rest => do
      let first ← hexValue? first
      let second ← hexValue? second
      let third ← hexValue? third
      let fourth ← hexValue? fourth
      return (((first * 16 + second) * 16 + third) * 16 + fourth, rest)
  | _ => none

/-- The character for which a letter after a backslash stands. -/
def simpleEscape? : Char → Option Char
  | '"' => some '"'
  | '\\' => some '\\'
  | '/' => some '/'
  | 'b' => some '\x08'
  | 'f' => some '\x0c'
  | 'n' => some '\n'
  | 'r' => some '\r'
  | 't' => some '\t'
  | _ => none

/-- Whether a code is the first half of a surrogate pair. -/
def isHighSurrogate (code : Nat) : Bool :=
  0xd800 ≤ code && code < 0xdc00

/-- Whether a code is the second half of a surrogate pair. -/
def isLowSurrogate (code : Nat) : Bool :=
  0xdc00 ≤ code && code < 0xe000

/-- The character of an escape after its backslash and `u`.  A first half has to be followed
by an escaped second half. -/
def readUnicodeEscape? (input : List Char) : Option (Char × List Char) := do
  let (code, rest) ← readFourHex? input
  if isHighSurrogate code then
    match rest with
    | '\\' :: 'u' :: rest =>
        let (low, rest) ← readFourHex? rest
        if isLowSurrogate low then
          return (Char.ofNat (0x10000 + (code - 0xd800) * 0x400 + (low - 0xdc00)), rest)
        else
          none
    | _ => none
  else if isLowSurrogate code then
    none
  else
    return (Char.ofNat code, rest)

/-- The next character of a string, which is not its closing quote. -/
def readCharacter? : List Char → Option (Char × List Char)
  | [] => none
  | '\\' :: 'u' :: rest => readUnicodeEscape? rest
  | '\\' :: letter :: rest => (simpleEscape? letter).map (fun character => (character, rest))
  | character :: rest =>
      if character = '"' || character = '\\' || character.toNat < 0x20 then none
      else some (character, rest)

theorem length_of_readFourHex? {input rest : List Char} {code : Nat}
    (read : readFourHex? input = some (code, rest)) : rest.length < input.length := by
  unfold readFourHex? at read
  split at read
  · simp only [Option.bind_eq_bind, Option.bind_eq_some_iff, Option.pure_def,
      Option.some.injEq, Prod.mk.injEq] at read
    obtain ⟨_, _, _, _, _, _, _, _, _, rfl⟩ := read
    simp only [List.length_cons]
    omega
  · simp at read

theorem length_of_readUnicodeEscape? {input rest : List Char} {character : Char}
    (read : readUnicodeEscape? input = some (character, rest)) : rest.length < input.length := by
  simp only [readUnicodeEscape?, Option.bind_eq_bind, Option.bind_eq_some_iff] at read
  obtain ⟨⟨code, between⟩, first, read⟩ := read
  have shorter := length_of_readFourHex? first
  dsimp only at read
  split at read
  · split at read
    · simp only [Option.bind_eq_some_iff] at read
      obtain ⟨⟨low, after⟩, second, read⟩ := read
      have again := length_of_readFourHex? second
      split at read
      · simp only [Option.pure_def, Option.some.injEq, Prod.mk.injEq] at read
        obtain ⟨_, rfl⟩ := read
        simp only [List.length_cons] at shorter
        omega
      · simp at read
    · simp at read
  · split at read
    · simp at read
    · simp only [Option.pure_def, Option.some.injEq, Prod.mk.injEq] at read
      obtain ⟨_, rfl⟩ := read
      exact shorter

theorem length_of_readCharacter? {input rest : List Char} {character : Char}
    (read : readCharacter? input = some (character, rest)) : rest.length < input.length := by
  unfold readCharacter? at read
  split at read
  · simp at read
  · have shorter := length_of_readUnicodeEscape? read
    simp only [List.length_cons]
    omega
  · simp only [Option.map_eq_some_iff, Prod.mk.injEq] at read
    obtain ⟨_, _, _, rfl⟩ := read
    simp only [List.length_cons]
    omega
  · split at read
    · simp at read
    · simp only [Option.some.injEq, Prod.mk.injEq] at read
      obtain ⟨_, rfl⟩ := read
      simp

def readString? (input : List Char) : Option (List Char × List Char) :=
  match input with
  | '"' :: rest => some ([], rest)
  | input =>
      match _read : readCharacter? input with
      | none => none
      | some (character, rest) =>
          (readString? rest).map (fun (characters, rest) => (character :: characters, rest))
termination_by input.length
decreasing_by exact length_of_readCharacter? (by assumption)

mutual

/-- The value at the front of the input.  So many more levels of arrays and objects may
open, and the fuel bounds the number of nested calls. -/
def readValue? : (fuel levels : Nat) → List Char → Option (Value × List Char)
  | 0, _, _ => none
  | fuel + 1, levels, input =>
      match input with
      | 'n' :: 'u' :: 'l' :: 'l' :: rest => some (.null, rest)
      | 't' :: 'r' :: 'u' :: 'e' :: rest => some (.boolean true, rest)
      | 'f' :: 'a' :: 'l' :: 's' :: 'e' :: rest => some (.boolean false, rest)
      | '"' :: rest =>
          (readString? rest).map (fun (characters, rest) =>
            (.string (String.ofList characters), rest))
      | '[' :: rest =>
          match levels, skipBlanks rest with
          | 0, _ => none
          | _ + 1, ']' :: rest => some (.array [], rest)
          | levels + 1, rest =>
              (readItems? fuel levels rest).map (fun (items, rest) => (.array items, rest))
      | '\x7b' :: rest =>
          match levels, skipBlanks rest with
          | 0, _ => none
          | _ + 1, '\x7d' :: rest => some (.object [], rest)
          | levels + 1, rest =>
              (readMembers? fuel levels rest).map (fun (members, rest) =>
                (.object members, rest))
      | input => do
          let (numeral, rest) ← Numeral.read? input
          let number ← numeral.value?
          return (.number number, rest)

/-- The items of an array, at least one, up to and with its closing bracket. -/
def readItems? : (fuel levels : Nat) → List Char → Option (List Value × List Char)
  | 0, _, _ => none
  | fuel + 1, levels, input => do
      let (item, rest) ← readValue? fuel levels input
      match skipBlanks rest with
      | ']' :: rest => return ([item], rest)
      | ',' :: rest =>
          let (items, rest) ← readItems? fuel levels (skipBlanks rest)
          return (item :: items, rest)
      | _ => none

/-- The members of an object, at least one, up to and with its closing brace. -/
def readMembers? : (fuel levels : Nat) → List Char → Option (List (String × Value) × List Char)
  | fuel + 1, levels, '"' :: input => do
      let (characters, rest) ← readString? input
      match skipBlanks rest with
      | ':' :: rest =>
          let (value, rest) ← readValue? fuel levels (skipBlanks rest)
          let member := (String.ofList characters, value)
          match skipBlanks rest with
          | '\x7d' :: rest => return ([member], rest)
          | ',' :: rest =>
              let (members, rest) ← readMembers? fuel levels (skipBlanks rest)
              return (member :: members, rest)
          | _ => none
      | _ => none
  | _, _, _ => none

end

/-- How many levels of arrays and objects a value may have. -/
def deepestNesting : Nat := 127

/-- Enough fuel for an input: every two nested calls consume at least one character. -/
def enoughFuel (input : List Char) : Nat :=
  2 * input.length + 1

end Reader

open Reader in
def read? (text : String) : Option Value := do
  let input := skipBlanks text.toList
  let (value, rest) ← readValue? (enoughFuel input) deepestNesting input
  if (skipBlanks rest).isEmpty then return value else none

/-- The value of a JSON text given by its octets, which have to be UTF-8. -/
def ofBytes? (octets : Bytes) : Option Value :=
  (Utf8.decode? octets).bind read?

end JsonSieve.Json
