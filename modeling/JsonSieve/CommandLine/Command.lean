import JsonSieve.CommandLine.Arguments

/-!
# The commands of `jsm`

Without a subcommand, `jsm` sieves documents.  A subcommand is named by the first argument; in
any other place its name is a filter.  Options stand at most once, apart from those that set
how much is reported, which may be repeated but not mixed.
-/

namespace JsonSieve

/-- The shells for which completions can be generated. -/
inductive Shell
  | bash
  | elvish
  | fish
  | powershell
  | zsh
  deriving DecidableEq

def Shell.ofName? : String → Option Shell
  | "bash" => some .bash
  | "elvish" => some .elvish
  | "fish" => some .fish
  | "powershell" => some .powershell
  | "zsh" => some .zsh
  | _ => none

structure SieveOptions where
  filters : List String := []
  filterFile : Option String := none
  input : Option String := none
  count : Bool := false
  invert : Bool := false
  depthLimit : Option Nat := none
  timeBudget : Option Nat := none
  deriving DecidableEq

/-- What `jsm` is asked to do. -/
inductive Command
  | sieve (options : SieveOptions)
  | tokens (file : Option String) (records : Bool)
  | completions (shell : Shell)
  | manual (directory : Option String)
  deriving DecidableEq

/-- Whether more or less is to be reported. -/
structure Verbosity where
  louder : Bool := false
  quieter : Bool := false
  deriving DecidableEq

/-- Arguments in the course of being taken, with the options that every command has. -/
structure Draft (Options : Type) where
  options : Options
  verbosity : Verbosity
  deriving DecidableEq

namespace Draft

variable {Options : Type}

def ofDefaults (options : Options) : Draft Options := ⟨options, {}⟩

/-- The options that every command has. -/
def sharedOption? : OptionName → Option (OptionAction (Draft Options))
  | .short 'v' | .long "verbose" =>
      some (.switch (fun draft =>
        .ok { draft with verbosity := { draft.verbosity with louder := true } }))
  | .short 'q' | .long "quiet" =>
      some (.switch (fun draft =>
        .ok { draft with verbosity := { draft.verbosity with quieter := true } }))
  | .short 'h' | .long "help" => some (.switch (fun _ => .error .help))
  | _ => none

/-- The options, unless more and less are to be reported at once. -/
def finish (draft : Draft Options) : Except Stop Options :=
  if draft.verbosity.louder && draft.verbosity.quieter then .error .wrongUsage
  else .ok draft.options

def update (change : Options → Except Stop Options) (draft : Draft Options) :
    Except Stop (Draft Options) :=
  (change draft.options).map (fun options => { draft with options := options })

end Draft

namespace Command

/-- Turns a switch on, once. -/
def turnOn (current : Bool) : Except Stop Bool :=
  if current then .error .wrongUsage else .ok true

/-- Sets a value, once. -/
def set {Value : Type} (current : Option Value) (value : Value) : Except Stop (Option Value) :=
  if current.isSome then .error .wrongUsage else .ok (some value)

/-- Sets a path, which is not empty, once. -/
def setPath (current : Option String) (value : String) : Except Stop (Option String) :=
  if value.isEmpty then .error .wrongUsage else set current value

/-- Sets a number, once. -/
def setNumber (current : Option Nat) (value : String) : Except Stop (Option Nat) :=
  match Digits.readWord? value.toList with
  | none => .error .wrongUsage
  | some number => set current number

def sieveGrammar : ArgumentGrammar (Draft SieveOptions) where
  option?
    | .short 'f' | .long "filter-file" =>
        some (.valued (fun value => Draft.update (fun options =>
          (setPath options.filterFile value).map (fun path =>
            { options with filterFile := path }))))
    | .short 'i' | .long "input" =>
        some (.valued (fun value => Draft.update (fun options =>
          (setPath options.input value).map (fun path => { options with input := path }))))
    | .long "max-depth" =>
        some (.valued (fun value => Draft.update (fun options =>
          (setNumber options.depthLimit value).map (fun number =>
            { options with depthLimit := number }))))
    | .long "time-budget-ms" =>
        some (.valued (fun value => Draft.update (fun options =>
          (setNumber options.timeBudget value).map (fun number =>
            { options with timeBudget := number }))))
    | .short 'c' | .long "count" =>
        some (.switch (Draft.update (fun options =>
          (turnOn options.count).map (fun count => { options with count := count }))))
    | .long "invert" =>
        some (.switch (Draft.update (fun options =>
          (turnOn options.invert).map (fun invert => { options with invert := invert }))))
    | .short 'V' | .long "version" => some (.switch (fun _ => .error .version))
    | name => Draft.sharedOption? name
  operand filter := Draft.update (fun options =>
    .ok { options with filters := options.filters ++ [filter] })

/-- Options and operands of `jsm tokens`: its file, and whether records are wanted. -/
def tokensGrammar : ArgumentGrammar (Draft (Option String × Bool)) where
  option?
    | .long "json" =>
        some (.switch (Draft.update (fun (file, records) =>
          (turnOn records).map (fun records => (file, records)))))
    | name => Draft.sharedOption? name
  operand file := Draft.update (fun (current, records) =>
    (setPath current file).map (fun file => (file, records)))

def shellGrammar : ArgumentGrammar (Draft (Option Shell)) where
  option? := Draft.sharedOption?
  operand name := Draft.update (fun current =>
    match Shell.ofName? name with
    | none => .error .wrongUsage
    | some shell => set current shell)

def manualGrammar : ArgumentGrammar (Draft (Option String)) where
  option?
    | .short 'o' | .long "output-dir" =>
        some (.valued (fun value => Draft.update (fun current => setPath current value)))
    | name => Draft.sharedOption? name
  operand _ _ := .error .wrongUsage

/-- Options of `jsm generate` itself, which takes no operands. -/
def generateGrammar : ArgumentGrammar (Draft Unit) where
  option? := Draft.sharedOption?
  operand _ _ := .error .wrongUsage

def ofShellArguments (arguments : List String) : Except Stop Command := do
  let draft ← shellGrammar.take (.ofDefaults none) arguments
  match ← draft.finish with
  | some shell => return .completions shell
  | none => .error .wrongUsage

def ofManualArguments (arguments : List String) : Except Stop Command := do
  let draft ← manualGrammar.take (.ofDefaults none) arguments
  return .manual (← draft.finish)

/-- The command of arguments after `jsm generate`: options first, and then the name of
what is to be generated. -/
def ofGenerateArguments (arguments : List String) : Except Stop Command := do
  let isOption (argument : String) : Bool := !ArgumentGrammar.isValue argument
  let options := arguments.takeWhile isOption
  let draft ← generateGrammar.take (.ofDefaults ()) options
  if options.contains "--" then .error .wrongUsage
  else
    let command ← match arguments.dropWhile isOption with
      | "shell" :: arguments => ofShellArguments arguments
      | "man" :: arguments => ofManualArguments arguments
      | _ => .error .wrongUsage
    draft.finish
    return command

def ofTokensArguments (arguments : List String) : Except Stop Command := do
  let draft ← tokensGrammar.take (.ofDefaults (none, false)) arguments
  let (file, records) ← draft.finish
  return .tokens file records

/-- The command of arguments that do not begin with a subcommand.  At least one of them has
to say something. -/
def ofSieveArguments (arguments : List String) : Except Stop Command := do
  let defaults : Draft SieveOptions := .ofDefaults {}
  let draft ← sieveGrammar.take defaults arguments
  if draft = defaults then .error .wrongUsage
  else return .sieve (← draft.finish)

def ofArguments : List String → Except Stop Command
  | "tokens" :: arguments => ofTokensArguments arguments
  | "generate" :: arguments => ofGenerateArguments arguments
  | arguments => ofSieveArguments arguments

end Command

end JsonSieve
