import JsonSieve.CommandLine.Command
import JsonSieve.CommandLine.Manual

/-!
# Fixed texts of `jsm`

The help text, the shell completions and the manual pages.  They are brief, and no result depends on
how they are worded.
-/

namespace JsonSieve

def versionText : String := "jsm 0.1.0\n"

/-- What `jsm --help` prints. -/
def helpText : String :=
  "Filter newline-delimited JSON documents with compiled match expressions.\n\n" ++
  "Usage: jsm [OPTIONS] [FILTERS]...\n" ++
  "       jsm tokens [--json] [FILE]\n" ++
  "       jsm generate shell <SHELL>\n" ++
  "       jsm generate man [-o DIR]\n\n" ++
  "Options:\n" ++
  "  -f, --filter-file <FILE>   Read additional filters from FILE, one per line\n" ++
  "  -i, --input <FILE>         Path to the documents, or standard input\n" ++
  "  -c, --count                Print only the number of matching documents\n" ++
  "      --invert               Select documents that do not match\n" ++
  "      --max-depth <N>        Maximum expression nesting (default 128)\n" ++
  "      --time-budget-ms <MS>  Time budget for each document in milliseconds\n" ++
  "  -v, --verbose              Report more\n" ++
  "  -q, --quiet                Report less\n" ++
  "  -h, --help                 Print help\n" ++
  "  -V, --version              Print the version\n"

/-- What `jsm` prints for arguments that make no command. -/
def usageText : String :=
  "error: invalid arguments\n\nUsage: jsm [OPTIONS] [FILTERS]...\n       jsm <COMMAND>\n"

def commandTree : CommandTree :=
  .node "jsm" [.node "tokens" [], .node "generate" [.node "shell" [], .node "man" []]]

/-- The words that a shell completes after `jsm`. -/
def completionWords : List String :=
  ["tokens", "generate", "--filter-file", "--input", "--count", "--invert", "--max-depth",
    "--time-budget-ms", "--verbose", "--quiet", "--help", "--version"]

def completionText : Shell → String
  | .bash => "complete -W '" ++ " ".intercalate completionWords ++ "' -f jsm\n"
  | .zsh => "#compdef jsm\n_arguments '*:argument:(" ++ " ".intercalate completionWords ++ ")'\n"
  | .fish => "complete -c jsm -a '" ++ " ".intercalate completionWords ++ "'\n"
  | .elvish =>
      "set edit:completion:arg-completer[jsm] = \x7b|@words| put " ++
        " ".intercalate completionWords ++ " \x7d\n"
  | .powershell =>
      "Register-ArgumentCompleter -Native -CommandName 'jsm' -ScriptBlock \x7b '" ++
        "','".intercalate completionWords ++ "' \x7d\n"

def pageText (title : String) : String :=
  ".TH " ++ title ++ " 1\n.SH NAME\n" ++ title ++ "\n.SH DESCRIPTION\n" ++ helpText

end JsonSieve
