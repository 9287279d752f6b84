/-!
# Manual pages

Every command of a tree has a manual page.  It is named for the commands on the way to it,
joined by hyphens, and the page of a command comes before those of its subcommands.
-/

namespace JsonSieve

inductive CommandTree
  | node (name : String) (subcommands : List CommandTree)

namespace CommandTree

def name : CommandTree → String
  | node name _ => name

mutual

/-- The titles of the pages of a command that has this title, and of its subcommands. -/
def titlesFrom (title : String) : CommandTree → List String
  | node _ subcommands => title :: titlesBelow title subcommands

/-- The titles of the pages below a command with this title. -/
def titlesBelow (title : String) : List CommandTree → List String
  | [] => []
  | node name subcommands :: others =>
      titlesFrom (title ++ "-" ++ name) (node name subcommands) ++ titlesBelow title others

end

def titles (tree : CommandTree) : List String :=
  tree.titlesFrom tree.name

/-- The name of the file that holds a page. -/
def pageFile (title : String) : String :=
  title ++ ".1"

end CommandTree

end JsonSieve
