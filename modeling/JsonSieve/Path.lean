import JsonSieve.Digits
import JsonSieve.Json.Value

/-!
# Paths into documents

A path names a place in a JSON value step by step.  A member is named by its key, after a
point unless it comes first, and an element by its index in brackets.  Keys that hold a point
or an opening bracket are written in brackets and quotes.  Nothing is escaped, so a key with
quotes of both kinds can only be written bare.

A path is split only as far as it is followed: what is wrong with a later step is not noticed
if an earlier one leads nowhere.
-/

namespace JsonSieve.Path

inductive Step
  | key (name : String)
  | index (position : Nat)
  deriving DecidableEq

/-- Whether a character ends a bare key. -/
def isDelimiter (character : Char) : Bool :=
  character = '.' || character = '['

def readBareKey? (input : List Char) : Option (Step × List Char) :=
  let name := input.takeWhile (fun character => !isDelimiter character)
  if name.isEmpty then none
  else
    some (.key (String.ofList name), input.dropWhile (fun character => !isDelimiter character))

/-- A key up to its closing quote, and what follows the bracket after it. -/
def readQuotedKey? (quote : Char) (input : List Char) : Option (Step × List Char) :=
  match input.dropWhile (· ≠ quote) with
  | _ :: ']' :: rest => some (.key (String.ofList (input.takeWhile (· ≠ quote))), rest)
  | _ => none

/-- An index up to its closing bracket, and what follows that. -/
def readIndexStep? (input : List Char) : Option (Step × List Char) :=
  match input.dropWhile (· ≠ ']') with
  | _ :: rest =>
      (Digits.readWord? (input.takeWhile (· ≠ ']'))).map (fun index => (.index index, rest))
  | [] => none

def readBracket? : List Char → Option (Step × List Char)
  | '\x27' :: rest => readQuotedKey? '\x27' rest
  | '"' :: rest => readQuotedKey? '"' rest
  | input => readIndexStep? input

def readStep? : List Char → Option (Step × List Char)
  | '[' :: rest => readBracket? rest
  | '.' :: rest => readBareKey? rest
  | input => readBareKey? input

theorem length_of_readBareKey? {input rest : List Char} {step : Step}
    (read : readBareKey? input = some (step, rest)) : rest.length < input.length := by
  unfold readBareKey? at read
  dsimp only at read
  split at read
  · contradiction
  · rename_i nonempty
    simp only [Option.some.injEq, Prod.mk.injEq] at read
    obtain ⟨_, rfl⟩ := read
    have split := List.takeWhile_append_dropWhile
      (p := fun character => !isDelimiter character) (l := input)
    have lengths := congrArg List.length split
    have positive : 0 < (input.takeWhile (fun character => !isDelimiter character)).length := by
      rw [List.length_pos_iff]
      simpa using nonempty
    rw [List.length_append] at lengths
    omega

theorem length_of_readQuotedKey? {quote : Char} {input rest : List Char} {step : Step}
    (read : readQuotedKey? quote input = some (step, rest)) : rest.length < input.length := by
  unfold readQuotedKey? at read
  split at read
  · rename_i equal
    have shorter := (List.dropWhile_suffix (l := input) (fun symbol => symbol ≠ quote)).length_le
    simp only [Option.some.injEq, Prod.mk.injEq] at read
    obtain ⟨_, rfl⟩ := read
    rw [equal] at shorter
    simp only [List.length_cons] at shorter
    omega
  · contradiction

theorem length_of_readIndexStep? {input rest : List Char} {step : Step}
    (read : readIndexStep? input = some (step, rest)) : rest.length < input.length := by
  unfold readIndexStep? at read
  split at read
  · rename_i equal
    have shorter := (List.dropWhile_suffix (l := input) (fun symbol => symbol ≠ ']')).length_le
    simp only [Option.map_eq_some_iff, Prod.mk.injEq] at read
    obtain ⟨_, _, _, rfl⟩ := read
    rw [equal] at shorter
    simp only [List.length_cons] at shorter
    omega
  · contradiction

theorem length_of_readStep? {input rest : List Char} {step : Step}
    (read : readStep? input = some (step, rest)) : rest.length < input.length := by
  unfold readStep? at read
  split at read
  · unfold readBracket? at read
    split at read
    · have shorter := length_of_readQuotedKey? read
      simp only [List.length_cons]
      omega
    · have shorter := length_of_readQuotedKey? read
      simp only [List.length_cons]
      omega
    · have shorter := length_of_readIndexStep? read
      simp only [List.length_cons]
      omega
  · have shorter := length_of_readBareKey? read
    simp only [List.length_cons]
    omega
  · exact length_of_readBareKey? read

/-- What can be wrong with a path: it leads nowhere, or it cannot be read from some point
on. -/
inductive Error
  | missing (path : String)
  | malformed (rest : String)
  deriving DecidableEq

/-- The value one step further, if the step fits the value. -/
def child? : Json.Value → Step → Option Json.Value
  | .object members, .key name => Json.Value.member? name members
  | .array items, .index position => items[position]?
  | _, _ => none

/-- Follows the rest of a path from a value. -/
def follow (path : String) (value : Json.Value) (rest : List Char) : Except Error Json.Value :=
  match rest with
  | [] => .ok value
  | character :: characters =>
      match _read : readStep? (character :: characters) with
      | none => .error (.malformed (String.ofList (character :: characters)))
      | some (step, rest) =>
          match child? value step with
          | none => .error (.missing path)
          | some child => follow path child rest
termination_by rest.length
decreasing_by exact length_of_readStep? (by assumption)

/-- The value to which a path leads. -/
def resolve (value : Json.Value) (path : String) : Except Error Json.Value :=
  follow path value path.toList

end JsonSieve.Path
