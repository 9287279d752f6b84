import JsonSieve.Binary64
import JsonSieve.Text.Utf8

/-!
# JSON values

Objects keep all their members in the order in which they were written, repeated keys
included.  A look-up finds the first member with a key, while the settled form of a value lets the
last member with a key win and lists the members by key.
-/

namespace JsonSieve.Json

/-- A JSON number: an integer that is known exactly, or a floating point number. -/
inductive Number
  | integer (value : Int)
  | float (value : Binary64)
  deriving DecidableEq

inductive Value
  | null
  | boolean (value : Bool)
  | number (value : Number)
  | string (text : String)
  | array (items : List Value)
  | object (members : List (String × Value))

inductive Kind
  | null
  | boolean
  | number
  | string
  | array
  | object
  deriving DecidableEq

def Kind.name : Kind → String
  | .null => "null"
  | .boolean => "boolean"
  | .number => "number"
  | .string => "string"
  | .array => "array"
  | .object => "object"

namespace Value

def kind : Value → Kind
  | .null => .null
  | .boolean _ => .boolean
  | .number _ => .number
  | .string _ => .string
  | .array _ => .array
  | .object _ => .object

/-- The value of the first member with this key. -/
def member? (key : String) (members : List (String × Value)) : Option Value :=
  (members.find? (fun member => member.1 = key)).map Prod.snd

/-- Puts a member into a list of members that is sorted by key, in place of the one with the
same key. -/
def putMember (member : String × Value) : List (String × Value) → List (String × Value)
  | [] => [member]
  | other :: others =>
      match Utf8.compareTexts member.1 other.1 with
      | .lt => member :: other :: others
      | .eq => member :: others
      | .gt => other :: putMember member others

mutual

/-- The value with every object settled: one member for each key, the last one written, and
the members sorted by key. -/
def settled : Value → Value
  | .array items => .array (settledItems items)
  | .object members =>
      .object ((settledMembers members).foldl (fun others member => putMember member others) [])
  | value => value

def settledItems : List Value → List Value
  | [] => []
  | item :: items => item.settled :: settledItems items

def settledMembers : List (String × Value) → List (String × Value)
  | [] => []
  | (key, value) :: members => (key, value.settled) :: settledMembers members

end

end Value

end JsonSieve.Json
