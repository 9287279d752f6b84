import JsonSieve.CommandLine.Run

/-!
# The program `jsm`

Finds out what surrounds the run, performs it, and carries out what it yields.
-/

namespace JsonSieve.Program

def contentAt (path : String) : IO Bytes := do
  return (← IO.FS.readBinFile path).data.toList

/-- What stands at a path of the file system, unless it cannot be opened. -/
def nodeAt (path : String) : IO (Option Node) := do
  try
    match (← ((← IO.currentDir) / path).metadata).type with
    | .dir => return some .directory
    | .file => return some (.file (← contentAt path))
    | _ => return some (.stream (← contentAt path))
  catch _ => return none

/-- All octets of a stream, after those read already. -/
partial def readAll (stream : IO.FS.Stream) (already : ByteArray) : IO ByteArray := do
  let chunk ← stream.read 65536
  if chunk.isEmpty then return already
  else readAll stream (already ++ chunk)

/-- The standard input.  It is read only if it is wanted. -/
def standardInput (isWanted : Bool → Bool) : IO StandardInput := do
  let stream ← IO.getStdin
  let isTerminal ← stream.isTty
  if isWanted isTerminal then
    try return ⟨some (← readAll stream .empty).data.toList, isTerminal⟩
    catch _ => return ⟨none, isTerminal⟩
  else return ⟨some [], isTerminal⟩

def beginnings (path : String) : List String :=
  let names := FileTree.namesOf path
  (List.range names.length).map (fun further => FileTree.pathOf (names.take (further + 1)))

/-- A tree of files with what stands at a path. -/
def discover (files : FileTree) (path : String) : IO FileTree := do
  match ← nodeAt path with
  | some node =>
      return files.put ((FileTree.namesOf path).foldl FileTree.advance (files.start path)) node
  | none => return files

def surroundingsOf (command : Command) : IO Surroundings := do
  let currentPath := (← IO.currentDir).toString
  let files : FileTree := ⟨(FileTree.namesOf currentPath).foldl FileTree.advance [], [], []⟩
  let files ← ((command.paths currentPath).flatMap beginnings).foldlM discover files
  return ⟨← standardInput (Command.readsInput · command), files⟩

/-- What surrounds a run with these arguments.  Arguments that make no command need nothing. -/
def surroundings (arguments : List String) : IO Surroundings :=
  match Command.ofArguments arguments with
  | .ok command => surroundingsOf command
  | .error _ => return ⟨⟨some [], false⟩, ⟨[], [], []⟩⟩

def perform : Change → IO Unit
  | .directory path => IO.FS.createDirAll path
  | .file path content => IO.FS.writeBinFile path ⟨content.toArray⟩

end JsonSieve.Program

open JsonSieve in
/-- Runs `jsm` with these arguments. -/
def main (arguments : List String) : IO UInt32 := do
  let (outcome, files) := run (← Program.surroundings arguments) arguments
  files.changes.forM Program.perform
  (← IO.getStdout).write ⟨outcome.output.toArray⟩
  (← IO.getStdout).flush
  for complaint in outcome.complaint.toList do
    (← IO.getStderr).putStr complaint
  return outcome.status
