import JsonSieve.Digits

/-!
# Command line arguments

Options and operands come in any order.  Short options can be joined, the value of an option
stands in the same argument or in the next one, and after two hyphens all arguments are
operands.  A value in an argument of its own does not begin with a hyphen, unless it is one
hyphen.  Arguments are taken one after the other, so that the first one that is wrong, or that
asks for help, decides.
-/

namespace JsonSieve

/-- Why arguments make no command. -/
inductive Stop
  | wrongUsage
  | help
  | version
  deriving DecidableEq

inductive OptionName
  | short (letter : Char)
  | long (word : String)
  deriving DecidableEq

/-- What an option does to the settings collected so far, with its value if it takes one. -/
inductive OptionAction (Draft : Type)
  | switch (apply : Draft → Except Stop Draft)
  | valued (apply : String → Draft → Except Stop Draft)

/-- The options of a command, and what it does with operands. -/
structure ArgumentGrammar (Draft : Type) where
  option? : OptionName → Option (OptionAction Draft)
  operand : String → Draft → Except Stop Draft

namespace ArgumentGrammar

variable {Draft : Type} (grammar : ArgumentGrammar Draft)

/-- Takes joined short options.  Also returns what to do with the next argument, if it is the
value of the last of them. -/
def takeLetters : Draft → List Char →
    Except Stop (Draft × Option (String → Draft → Except Stop Draft))
  | draft, [] => .ok (draft, none)
  | draft, letter :: letters =>
      match grammar.option? (.short letter), letters with
      | none, _ => .error .wrongUsage
      | some (.switch apply), letters =>
          match apply draft with
          | .ok draft => takeLetters draft letters
          | .error stop => .error stop
      | some (.valued apply), [] => .ok (draft, some apply)
      | some (.valued apply), '=' :: value =>
          (apply (String.ofList value) draft).map (fun draft => (draft, none))
      | some (.valued apply), value =>
          (apply (String.ofList value) draft).map (fun draft => (draft, none))

/-- Takes a long option, given by what follows its hyphens. -/
def takeWord (draft : Draft) (text : List Char) :
    Except Stop (Draft × Option (String → Draft → Except Stop Draft)) :=
  let word := String.ofList (text.takeWhile (· ≠ '='))
  match grammar.option? (.long word), text.dropWhile (· ≠ '=') with
  | none, _ => .error .wrongUsage
  | some (.switch apply), [] => (apply draft).map (fun draft => (draft, none))
  | some (.switch _), _ => .error .wrongUsage
  | some (.valued apply), [] => .ok (draft, some apply)
  | some (.valued apply), _ :: value =>
      (apply (String.ofList value) draft).map (fun draft => (draft, none))

/-- Takes one argument that is not a value of the option before it. -/
def takeArgument (draft : Draft) (argument : String) :
    Except Stop (Draft × Option (String → Draft → Except Stop Draft)) :=
  match argument.toList with
  | '-' :: '-' :: word => grammar.takeWord draft word
  | '-' :: letter :: letters => grammar.takeLetters draft (letter :: letters)
  | _ => (grammar.operand argument draft).map (fun draft => (draft, none))

def takeOperands (draft : Draft) (arguments : List String) : Except Stop Draft :=
  arguments.foldlM (fun draft argument => grammar.operand argument draft) draft

/-- Whether an argument can be the value of the option before it. -/
def isValue (argument : String) : Bool :=
  argument = "-" || !argument.startsWith "-"

def take : Draft → List String → Except Stop Draft
  | draft, [] => .ok draft
  | draft, argument :: arguments =>
      if argument = "--" then grammar.takeOperands draft arguments
      else
        match grammar.takeArgument draft argument, arguments with
        | .error stop, _ => .error stop
        | .ok (draft, none), arguments => take draft arguments
        | .ok (_, some _), [] => .error .wrongUsage
        | .ok (draft, some apply), value :: arguments =>
            if isValue value then
              match apply value draft with
              | .ok draft => take draft arguments
              | .error stop => .error stop
            else .error .wrongUsage

end ArgumentGrammar

end JsonSieve
