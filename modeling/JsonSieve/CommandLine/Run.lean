import JsonSieve.CommandLine.FileTree
import JsonSieve.CommandLine.Texts
import JsonSieve.Documents
import JsonSieve.Expression.Reader
import JsonSieve.Token.Listing

/-!
# Running `jsm`

A run is a function of the arguments, the standard input and the files.  It yields an exit
status, what is printed and the files afterwards.  Everything that can go wrong before the
first document is read ends the run with status 1 and nothing printed; nothing that a document
holds does.

The standard output is taken to accept all that is printed.  Lines of the log are no part of the
outcome.
-/

namespace JsonSieve

/-- The standard input: what it holds, if reading it does not fail, and whether it is typed. -/
structure StandardInput where
  content? : Option Bytes
  isTerminal : Bool := false

instance : Coe Bytes StandardInput where
  coe content := ⟨some content, false⟩

/-- What surrounds a run: the standard input and the files. -/
structure Surroundings where
  input : StandardInput
  files : FileTree

/-- Why a run ends before it has printed anything. -/
inductive SetupError
  | unreadableFilterFile (path : String)
  | noFilter
  | invalidFilter (source : String) (error : FilterError)
  | inputNotOpened (path : String)
  | inputNotMapped (path : String)
  | inputNotRead
  | noManualDirectory
  | pageNotCreated (path : String)
  deriving DecidableEq

/-- The message of an error, in one line. -/
def SetupError.message : SetupError → String
  | .unreadableFilterFile path => "Failed to read filter file " ++ path
  | .noFilter => "At least one filter is required unless using a subcommand"
  | .invalidFilter source _ => "Failed to parse filter " ++ source
  | .inputNotOpened path => "Failed to open " ++ path
  | .inputNotMapped path => "Failed to map " ++ path
  | .inputNotRead => "read STDIN"
  | .noManualDirectory => "create output Man directories"
  | .pageNotCreated path => "failed to create " ++ path

/-- How a run ends, what it prints, and the error that it reports. -/
structure Outcome where
  status : UInt32
  output : Bytes
  complaint : Option String

namespace Outcome

def printing (output : Bytes) : Outcome := ⟨0, output, none⟩

def failing (error : SetupError) : Outcome :=
  ⟨1, [], some ("Error: " ++ error.message ++ "\n")⟩

/-- A run whose arguments make no command. -/
def ofStop : Stop → Outcome
  | .wrongUsage => ⟨2, [], some usageText⟩
  | .help => printing (Utf8.encode helpText)
  | .version => printing (Utf8.encode versionText)

def ofResult : Except SetupError Bytes → Outcome
  | .ok output => printing output
  | .error error => failing error

end Outcome

namespace Run

/-- The filters in a text: one on each line that is not blank. -/
def filterLines (text : String) : List String :=
  (Lines.trimmedPieces '\n' Lines.isWhiteSpace text.toList).map String.ofList

/-- What can be read at a path from beginning to end. -/
def content? (files : FileTree) (path : String) : Option Bytes :=
  match files.node? path with
  | some (.file content) | some (.stream content) => some content
  | some .directory | none => none

/-- The filters in a file, which has to be UTF-8. -/
def readFilterFile (surroundings : Surroundings) (path : String) :
    Except SetupError (List String) :=
  match (content? surroundings.files path).bind Utf8.decode? with
  | some text => .ok (filterLines text)
  | none => .error (.unreadableFilterFile path)

/-- The filters given as arguments, followed by those in the filter file. -/
def filterSources (surroundings : Surroundings) (options : SieveOptions) :
    Except SetupError (List String) :=
  match options.filterFile with
  | none => .ok options.filters
  | some path => (readFilterFile surroundings path).map (options.filters ++ ·)

def readFilters : List String → Except SetupError (List Expression)
  | [] => .ok []
  | source :: sources =>
      match Expression.parse (Utf8.encode source) with
      | .error error => .error (.invalidFilter source error)
      | .ok filter => (readFilters sources).map (filter :: ·)

def settingsOf (options : SieveOptions) : Settings :=
  let defaults : Settings := {}
  ⟨options.depthLimit.getD defaults.depthLimit, options.timeBudget⟩

def sieveOf (surroundings : Surroundings) (options : SieveOptions) :
    Except SetupError Sieve := do
  let sources ← filterSources surroundings options
  if sources.isEmpty then .error .noFilter
  else
    let filters ← readFilters sources
    return Sieve.ofFilters filters (settingsOf options)

/-- The content of a file, or the standard input if there is no file.  The file is mapped, so
it has to have a size. -/
def readInput (surroundings : Surroundings) : Option String → Except SetupError Bytes
  | none =>
      match surroundings.input.content? with
      | none => .error .inputNotRead
      | some content => .ok content
  | some path =>
      match surroundings.files.node? path with
      | none => .error (.inputNotOpened path)
      | some .directory | some (.stream _) => .error (.inputNotMapped path)
      | some (.file content) => .ok content

/-- What is printed of the selected documents: the documents, or how many they are. -/
def report (count : Bool) (selected : List Bytes) : Bytes :=
  if count then Utf8.encode (toString selected.length ++ "\n")
  else Documents.toOutput selected

/-- The input for a sieve.  There is none if it would have to be typed. -/
def sieveInput (surroundings : Surroundings) (options : SieveOptions) :
    Except SetupError (Option Bytes) :=
  if options.input.isNone && surroundings.input.isTerminal then .ok none
  else (readInput surroundings options.input).map some

/-- Prints the documents that a sieve selects, or the help if there is no input. -/
def sieve (surroundings : Surroundings) (options : SieveOptions) : Except SetupError Bytes := do
  let sieve ← sieveOf surroundings options
  match ← sieveInput surroundings options with
  | none => return Utf8.encode helpText
  | some input => return report options.count (Documents.select sieve options.invert input)

def tokens (surroundings : Surroundings) (file : Option String) (records : Bool) :
    Except SetupError Bytes := do
  let input ← readInput surroundings file
  let listing : Token.Listing := if records then .records else .plain
  return Utf8.encode (listing.of input)

/-- The path of a file in a directory.  It stays what it is if it is absolute or if the path of the
directory is empty. -/
def pathIn (directory file : String) : String :=
  if FileTree.isAbsolute file then file
  else if directory.toList.getLast?.all (· = '/') then directory ++ file
  else directory ++ "/" ++ file

/-- Writes pages in order as long as they can be written.  The result holds the paths of all
of them. -/
def writePages (directory : String) :
    List String → FileTree → Except SetupError (List String) × FileTree
  | [], files => (.ok [], files)
  | title :: titles, files =>
      let path := pathIn directory (CommandTree.pageFile title)
      match files.write path (Utf8.encode (pageText title)) with
      | .error _ => (.error (.pageNotCreated path), files)
      | .ok files =>
          let (result, files) := writePages directory titles files
          (result.map (path :: ·), files)

/-- Writes the manual pages of a tree of commands into a directory, which is created if need
be. -/
def manual (tree : CommandTree) (directory : String) (files : FileTree) :
    Except SetupError (List String) × FileTree :=
  match files.createDirectories directory with
  | .error _ => (.error .noManualDirectory, files)
  | .ok files => writePages directory tree.titles files

def manualReport (paths : List String) : Bytes :=
  paths.flatMap (fun path => Utf8.encode ("Generated: " ++ path ++ "\n"))

/-- The outcome of a command, and the files after it. -/
def command (surroundings : Surroundings) : Command → Outcome × FileTree
  | .sieve options => (.ofResult (sieve surroundings options), surroundings.files)
  | .tokens file records => (.ofResult (tokens surroundings file records), surroundings.files)
  | .completions shell =>
      (.printing (Utf8.encode (completionText shell)), surroundings.files)
  | .manual directory =>
      let directory := directory.getD surroundings.files.currentPath
      let (result, files) := manual commandTree directory surroundings.files
      (.ofResult (result.map manualReport), files)

end Run

/-- The paths at which a command looks. -/
def Command.paths (currentPath : String) : Command → List String
  | .sieve options => options.filterFile.toList ++ options.input.toList
  | .tokens file _ => file.toList
  | .completions _ => []
  | .manual directory =>
      let directory := directory.getD currentPath
      commandTree.titles.map (fun title => Run.pathIn directory (CommandTree.pageFile title))

/-- Whether a command reads the standard input, which may be a terminal. -/
def Command.readsInput (isTerminal : Bool) : Command → Bool
  | .sieve options => options.input.isNone && !isTerminal
  | .tokens file _ => file.isNone
  | .completions _ | .manual _ => false

/-- A run of `jsm`: its outcome, and the files after it. -/
def run (surroundings : Surroundings) (arguments : List String) : Outcome × FileTree :=
  match Command.ofArguments arguments with
  | .ok command => Run.command surroundings command
  | .error stop => (.ofStop stop, surroundings.files)

end JsonSieve
