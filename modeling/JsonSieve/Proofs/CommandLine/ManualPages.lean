import JsonSieve.CommandLine.Manual
import JsonSieve.Proofs.CommandLine.Places
import Mathlib.Data.List.Nodup
import Mathlib.Data.List.Flatten

/-!
# One manual page for each command

A command is known by its route, the names of the subcommands that lead to it from the root.  The
routes of all commands of a tree are listed with each command before its subcommands, and these in
their order.  The titles of the manual pages are the routes joined by hyphens.  If no name of a
subcommand has a hyphen in it then no title belongs to two routes, so in an empty directory each
command gets a file of its own, unless there is one that no file system can have.
-/

namespace JsonSieve

namespace CommandTree

/-- Induction over trees of commands.  The statement may be assumed of every subcommand. -/
@[elab_as_elim, induction_eliminator]
theorem induction {motive : CommandTree → Prop}
    (node : ∀ name subcommands, (∀ sub ∈ subcommands, motive sub) →
      motive (.node name subcommands)) :
    ∀ tree, motive tree
  | .node name subcommands => node name subcommands fun sub _member => induction node sub

mutual

/-- The routes to a command and to those below it, in preorder. -/
def routes : CommandTree → List (List String)
  | node _ subcommands => [] :: routesBelow subcommands

def routesBelow : List CommandTree → List (List String)
  | [] => []
  | sub :: others => (routes sub).map (sub.name :: ·) ++ routesBelow others

end

def subcommands : CommandTree → List CommandTree
  | node _ subcommands => subcommands

/-- A route leads from a command to a command in its tree. -/
inductive Leads (tree : CommandTree) : List String → CommandTree → Prop
  | here : Leads tree [] tree
  | onward {route : List String} {command sub : CommandTree} : Leads tree route command →
      sub ∈ command.subcommands → Leads tree (route ++ [sub.name]) sub

variable {tree command sub : CommandTree} {route : List String}

theorem routesBelow_eq_flatMap (subcommands : List CommandTree) :
    routesBelow subcommands =
      subcommands.flatMap (fun sub => sub.routes.map (sub.name :: ·)) := by
  induction subcommands with
  | nil => rfl
  | cons sub others ih => rw [routesBelow, ih, List.flatMap_cons]

theorem routes_eq (tree : CommandTree) :
    tree.routes =
      [] :: tree.subcommands.flatMap (fun sub => sub.routes.map (sub.name :: ·)) := by
  cases tree with
  | node name subcommands => rw [routes, routesBelow_eq_flatMap, CommandTree.subcommands]

theorem Leads.cons (leads : Leads sub route command) (member : sub ∈ tree.subcommands) :
    Leads tree (sub.name :: route) command := by
  induction leads with
  | here => exact .onward .here member
  | onward _ further ih => exact .onward ih further

theorem leads_iff :
    Leads tree route command ↔
      route = [] ∧ command = tree ∨
        ∃ sub ∈ tree.subcommands, ∃ further, route = sub.name :: further ∧
          Leads sub further command := by
  constructor
  · intro leads
    induction leads with
    | here => exact Or.inl ⟨rfl, rfl⟩
    | @onward _ _ last _ further ih =>
        rcases ih with ⟨rfl, rfl⟩ | ⟨sub, member, front, rfl, leads⟩
        · exact Or.inr ⟨last, further, [], rfl, .here⟩
        · exact Or.inr ⟨sub, member, front ++ [last.name], rfl, .onward leads further⟩
  · rintro (⟨rfl, rfl⟩ | ⟨sub, member, further, rfl, leads⟩)
    · exact .here
    · exact leads.cons member

theorem mem_routes_iff : route ∈ tree.routes ↔ ∃ command, Leads tree route command := by
  induction tree generalizing route with
  | node name subcommands ih =>
      rw [routes_eq]
      simp only [List.mem_cons, List.mem_flatMap, List.mem_map]
      constructor
      · rintro (rfl | ⟨sub, member, further, listed, rfl⟩)
        · exact ⟨_, .here⟩
        · obtain ⟨command, leads⟩ := (ih sub member).mp listed
          exact ⟨command, leads.cons member⟩
      · rintro ⟨command, leads⟩
        rcases leads_iff.mp leads with ⟨rfl, -⟩ | ⟨sub, member, further, rfl, fromSub⟩
        · exact Or.inl rfl
        · exact Or.inr ⟨sub, member, further, (ih sub member).mpr ⟨command, fromSub⟩, rfl⟩

/-- A command and those below it stand together, in the order that they have in a tree of their
own. -/
theorem together_in_routes (leads : Leads tree route command) :
    command.routes.map (route ++ ·) <:+: tree.routes := by
  induction leads with
  | here => simp
  | @onward route command sub _ member ih =>
      have inCommand : sub.routes.map (sub.name :: ·) <:+: command.routes := by
        obtain ⟨before, after, split⟩ := List.append_of_mem member
        rw [routes_eq command, split, List.flatMap_append, List.flatMap_cons]
        exact (List.infix_append' _ _ _).trans (List.suffix_cons [] _).isInfix
      have moved := (inCommand.map (route ++ ·)).trans ih
      simpa [Function.comp_def] using moved

/-- A command stands before its subcommands, and these stand in their order. -/
theorem sublist_routes (leads : Leads tree route command) :
    (route :: command.subcommands.map (fun sub => route ++ [sub.name])).Sublist tree.routes := by
  have atRoot : ([] :: command.subcommands.map (fun sub => [sub.name])).Sublist command.routes := by
    rw [routes_eq, List.map_eq_flatMap]
    refine List.Sublist.cons_cons [] (List.Sublist.flatMap_right _ fun sub _ => ?_)
    rw [routes_eq]
    exact List.singleton_sublist.mpr List.mem_cons_self
  have moved := (atRoot.map (route ++ ·)).trans (together_in_routes leads).sublist
  simpa [Function.comp_def] using moved

/-- The subcommands of each command have different names, without hyphens and slashes. -/
inductive WellNamed : CommandTree → Prop
  | node {name : String} {subcommands : List CommandTree} :
      (subcommands.map CommandTree.name).Nodup →
      (∀ sub ∈ subcommands, '-' ∉ sub.name.toList ∧ '/' ∉ sub.name.toList) →
      (∀ sub ∈ subcommands, WellNamed sub) → WellNamed (node name subcommands)

theorem WellNamed.leaf (name : String) : WellNamed (.node name []) :=
  .node (by simp) (by simp) (by simp)

theorem WellNamed.nodup_routes (wellNamed : tree.WellNamed) : tree.routes.Nodup := by
  induction tree with
  | node name subcommands ih =>
      cases wellNamed with
      | node distinct _ each =>
          rw [routes_eq, List.nodup_cons, List.nodup_flatMap]
          refine ⟨by simp, fun sub member => ?_, ?_⟩
          · exact (ih sub member (each sub member)).map List.cons_injective
          · refine (List.pairwise_map.mp distinct).imp fun {first second} other => ?_
            refine List.disjoint_left.mpr fun _ inFirst inSecond => ?_
            obtain ⟨route, -, rfl⟩ := List.mem_map.mp inFirst
            obtain ⟨_, -, same⟩ := List.mem_map.mp inSecond
            exact other (List.cons.inj same).1.symm

theorem WellNamed.plain_names (wellNamed : tree.WellNamed) (leads : Leads tree route command) :
    ∀ name ∈ route, '-' ∉ name.toList ∧ '/' ∉ name.toList := by
  induction tree generalizing route with
  | node name subcommands ih =>
      cases wellNamed with
      | node _ plain each =>
          rcases leads_iff.mp leads with ⟨rfl, -⟩ | ⟨sub, member, further, rfl, fromSub⟩
          · simp
          · exact List.forall_mem_cons.mpr
              ⟨plain sub member, ih sub member (each sub member) fromSub⟩

/-- The title of the page of a command: the names from the root to it, joined by hyphens. -/
def title (tree : CommandTree) (route : List String) : String :=
  "-".intercalate (tree.name :: route)

def page (tree : CommandTree) (route : List String) : String :=
  pageFile (tree.title route)

theorem intercalate_joined (first second : String) (others : List String) :
    "-".intercalate ((first ++ "-" ++ second) :: others) =
      "-".intercalate (first :: second :: others) := by
  cases others with
  | nil => simp [String.intercalate_cons_cons]
  | cons third others => simp [String.intercalate_cons_cons, String.append_assoc]

/-- The titles below a title are made of it and of the routes. -/
theorem titlesFrom_eq (title : String) (tree : CommandTree) :
    tree.titlesFrom title = tree.routes.map (fun route => "-".intercalate (title :: route)) := by
  induction tree generalizing title with
  | node name subcommands ih =>
      have below : titlesBelow title subcommands = (routesBelow subcommands).map
          (fun route => "-".intercalate (title :: route)) := by
        induction subcommands with
        | nil => rfl
        | cons sub others ihOthers =>
            obtain ⟨subName, subs⟩ := sub
            rw [titlesBelow, routesBelow, List.map_append,
              ihOthers fun sub member => ih sub (List.mem_cons_of_mem _ member),
              ih _ List.mem_cons_self, List.map_map]
            simp only [intercalate_joined, CommandTree.name, Function.comp_def]
      rw [titlesFrom, routes, List.map_cons, below, String.intercalate_singleton]

theorem titles_eq (tree : CommandTree) : tree.titles = tree.routes.map tree.title :=
  titlesFrom_eq tree.name tree

/-- Names without hyphens can be told from what they make when hyphens join them. -/
theorem intercalate_injective {names others : List String} (nonempty : names ≠ [])
    (othersNonempty : others ≠ []) (plain : ∀ name ∈ names, '-' ∉ name.toList)
    (othersPlain : ∀ name ∈ others, '-' ∉ name.toList)
    (same : "-".intercalate names = "-".intercalate others) : names = others := by
  have split : ∀ names : List String, names ≠ [] → (∀ name ∈ names, '-' ∉ name.toList) →
      ("-".intercalate names).toList.splitOn '-' = names.map String.toList := by
    intro names nonempty plain
    rw [String.toList_intercalate]
    exact List.splitOn_intercalate '-' (by simpa using plain) (by simpa using nonempty)
  have sameNames := split names nonempty plain
  rw [same, split others othersNonempty othersPlain] at sameNames
  exact (List.map_injective_iff.mpr fun _ _ => String.toList_inj.mp) sameNames.symm

theorem page_injective {other : List String} (plain : ∀ name ∈ route, '-' ∉ name.toList)
    (otherPlain : ∀ name ∈ other, '-' ∉ name.toList) (same : tree.page route = tree.page other) :
    route = other := by
  rw [page, page, pageFile, pageFile, String.append_left_inj, title, title] at same
  -- A title with a hyphen behind the name of the root is longer than that name.
  have longer : ∀ route ≠ [],
      "-".intercalate [tree.name] ≠ "-".intercalate (tree.name :: route) := by
    intro route nonempty same
    rw [String.intercalate_singleton, String.intercalate_cons_of_ne_nil nonempty] at same
    have sameLength := congrArg String.length same
    have hyphen : "-".length = 1 := rfl
    simp only [String.length_append] at sameLength
    omega
  by_cases empty : route = [] <;> by_cases otherEmpty : other = []
  · rw [empty, otherEmpty]
  · exact absurd (empty ▸ same) (longer other otherEmpty)
  · exact absurd (otherEmpty ▸ same).symm (longer route empty)
  · rw [String.intercalate_cons_of_ne_nil empty, String.intercalate_cons_of_ne_nil otherEmpty,
      String.append_right_inj] at same
    exact intercalate_injective empty otherEmpty plain otherPlain same

theorem WellNamed.nodup_pages (wellNamed : tree.WellNamed) :
    (tree.routes.map tree.page).Nodup := by
  refine wellNamed.nodup_routes.map_on fun route listed other otherListed same => ?_
  obtain ⟨command, leads⟩ := mem_routes_iff.mp listed
  obtain ⟨otherCommand, otherLeads⟩ := mem_routes_iff.mp otherListed
  exact page_injective (fun name member => (wellNamed.plain_names leads name member).1)
    (fun name member => (wellNamed.plain_names otherLeads name member).1) same

theorem leadsInside_pageFile {title : String} (unslashed : '/' ∉ title.toList) :
    FileTree.LeadsInside (pageFile title) := by
  have last : (pageFile title).toList.getLast? = some '1' := by
    simp [pageFile]
  have other : ∀ name : String, name.toList.getLast? ≠ some '1' → pageFile title ≠ name :=
    fun name otherLast same => otherLast (same ▸ last)
  refine ⟨by simpa [pageFile] using unslashed, ?_, other ".." (by decide)⟩
  simp [FileTree.isIdle, other "" (by decide), other "." (by decide)]

theorem unslashed_intercalate {names : List String} (plain : ∀ name ∈ names, '/' ∉ name.toList) :
    '/' ∉ ("-".intercalate names).toList := by
  induction names with
  | nil => simp
  | cons name names ih =>
      rw [List.forall_mem_cons] at plain
      by_cases empty : names = []
      · rw [empty, String.intercalate_singleton]
        exact plain.1
      · rw [String.intercalate_cons_of_ne_nil empty]
        simp only [String.toList_append, List.mem_append, not_or]
        exact ⟨⟨plain.1, by decide⟩, ih plain.2⟩

theorem WellNamed.leadsInside_page (wellNamed : tree.WellNamed)
    (rootPlain : '/' ∉ tree.name.toList) (listed : route ∈ tree.routes) :
    FileTree.LeadsInside (tree.page route) := by
  obtain ⟨command, leads⟩ := mem_routes_iff.mp listed
  exact leadsInside_pageFile (unslashed_intercalate (List.forall_mem_cons.mpr
    ⟨rootPlain, fun name member => (wellNamed.plain_names leads name member).2⟩))

end CommandTree

namespace Run

open CommandTree

variable {directory : String} {files : FileTree} {place : Place}

/-- Pages that fit, with names of their own, are written one beside the other, and those that come
after them are written as if they were the first. -/
theorem writePages_append {titles names : List String}
    (leads : files.place directory = .ok place) (holds : files.Holds place names)
    (insides : ∀ title ∈ titles, FileTree.LeadsInside (pageFile title))
    (fits : ∀ title ∈ titles, FileTree.Fits directory (pageFile title))
    (distinct : (names ++ titles.map pageFile).Nodup) (others : List String) :
    ∃ after, after.place directory = .ok place ∧
      after.Holds place (names ++ titles.map pageFile) ∧
      writePages directory (titles ++ others) files =
        ((writePages directory others after).1.map
          (titles.map (fun title => pathIn directory (pageFile title)) ++ ·),
          (writePages directory others after).2) := by
  induction titles generalizing names files with
  | nil =>
      refine ⟨files, leads, by simpa using holds, ?_⟩
      rw [List.nil_append]
      cases writePages directory others files with
      | mk result after => cases result <;> rfl
  | cons title titles ih =>
      rw [List.forall_mem_cons] at insides fits
      rw [List.map_cons, List.append_cons] at distinct
      have new : pageFile title ∉ names := fun member =>
        (List.nodup_append.mp (List.nodup_append.mp distinct).1).2.2 _ member _ (by simp) rfl
      obtain ⟨files', written, leads', holds'⟩ := holds.write leads insides.1 fits.1 new
        (Utf8.encode (pageText title))
      obtain ⟨after, afterLeads, afterHolds, rest⟩ :=
        ih leads' holds' insides.2 fits.2 distinct
      refine ⟨after, afterLeads, by rwa [List.map_cons, List.append_cons], ?_⟩
      simp only [List.cons_append, writePages, written, rest]
      cases (writePages directory others after).1 <;> rfl

variable {tree : CommandTree}

theorem nodup_paths (directory : String) {pages : List String}
    (insides : ∀ page ∈ pages, FileTree.LeadsInside page) (distinct : pages.Nodup) :
    (pages.map (pathIn directory)).Nodup := by
  refine distinct.map_on fun page member other otherMember same => ?_
  rw [(insides page member).pathIn_eq, (insides other otherMember).pathIn_eq] at same
  split at same
  · exact (String.append_right_inj _).mp same
  · exact (String.append_right_inj _).mp same

/-- In an empty directory, the first pages are written if they fit, and then the others. -/
theorem manual_eq_after (wellNamed : tree.WellNamed) (rootPlain : '/' ∉ tree.name.toList)
    (leads : files.place directory = .ok place) (empty : files.Holds place [])
    {before others : List (List String)} (split : tree.routes = before ++ others)
    (fits : ∀ route ∈ before, FileTree.Fits directory (tree.page route)) :
    ∃ after, after.place directory = .ok place ∧ after.Holds place (before.map tree.page) ∧
      manual tree directory files =
        ((writePages directory (others.map tree.title) after).1.map
          (before.map (fun route => pathIn directory (tree.page route)) ++ ·),
          (writePages directory (others.map tree.title) after).2) := by
  have distinct : (before.map tree.page).Nodup := by
    have allDistinct := wellNamed.nodup_pages
    rw [split, List.map_append] at allDistinct
    exact (List.nodup_append.mp allDistinct).1
  have pages : (before.map tree.title).map pageFile = before.map tree.page := List.map_map
  let started := files.remember (.directory directory)
  have startedLeads : started.place directory = .ok place := leads
  have startedEmpty : started.Holds place [] :=
    ⟨empty.isDirectory, empty.file, empty.nothingElse⟩
  obtain ⟨after, afterLeads, holds, written⟩ := writePages_append startedLeads startedEmpty
    (List.forall_mem_map.mpr fun route member =>
      wellNamed.leadsInside_page rootPlain (split ▸ List.mem_append_left _ member))
    (List.forall_mem_map.mpr fits) (by rwa [List.nil_append, pages]) (others.map tree.title)
  refine ⟨after, afterLeads, by rwa [List.nil_append, pages] at holds, ?_⟩
  rw [manual, FileTree.createDirectories_of_directory leads empty.isDirectory, titles_eq, split,
    List.map_append]
  dsimp only
  rw [written, List.map_map]
  rfl

/-- In an empty directory, the first page that does not fit is reported, and those before it are
written. -/
theorem manual_of_unfit (wellNamed : tree.WellNamed) (rootPlain : '/' ∉ tree.name.toList)
    (leads : files.place directory = .ok place) (empty : files.Holds place [])
    {before further : List (List String)} {route : List String}
    (split : tree.routes = before ++ route :: further)
    (fits : ∀ earlier ∈ before, FileTree.Fits directory (tree.page earlier))
    (unfit : ¬FileTree.Fits directory (tree.page route)) :
    ∃ after, manual tree directory files =
        (.error (.pageNotCreated (pathIn directory (tree.page route))), after) ∧
      after.Holds place (before.map tree.page) := by
  obtain ⟨after, afterLeads, holds, written⟩ := manual_eq_after wellNamed rootPlain leads empty
    split fits
  have inside := wellNamed.leadsInside_page rootPlain
    (split ▸ List.mem_append_right before List.mem_cons_self)
  obtain ⟨error, refused⟩ := holds.write_eq_error afterLeads inside unfit
    (Utf8.encode (pageText (tree.title route)))
  refine ⟨after, ?_, holds⟩
  rw [page] at refused ⊢
  rw [written, List.map_cons, writePages]
  simp only [refused]
  rfl

/-- The pages are those of the commands, in preorder and no two the same.  The first one that the
file system cannot have is reported, and those before it are written. -/
theorem one_page_for_each_command (wellNamed : tree.WellNamed)
    (rootPlain : '/' ∉ tree.name.toList) (leads : files.place directory = .ok place)
    (empty : files.Holds place []) :
    let path := fun route => pathIn directory (tree.page route)
    let fits := fun route => FileTree.Fits directory (tree.page route)
    (∀ route, route ∈ tree.routes ↔ ∃ command, Leads tree route command) ∧
      (∀ route command, Leads tree route command →
        command.routes.map (route ++ ·) <:+: tree.routes ∧
          (route :: command.subcommands.map (fun sub => route ++ [sub.name])).Sublist
            tree.routes) ∧
      (tree.routes.map tree.page).Nodup ∧
      (tree.routes.map path).Nodup ∧
      ((∀ route ∈ tree.routes, fits route) →
        ∃ after, manual tree directory files = (.ok (tree.routes.map path), after) ∧
          after.Holds place (tree.routes.map tree.page)) ∧
      ∀ before route further, tree.routes = before ++ route :: further →
        (∀ earlier ∈ before, fits earlier) → ¬fits route →
          ∃ after, manual tree directory files = (.error (.pageNotCreated (path route)), after) ∧
            after.Holds place (before.map tree.page) := by
  have insides : ∀ page ∈ tree.routes.map tree.page, FileTree.LeadsInside page :=
    List.forall_mem_map.mpr fun route listed => wellNamed.leadsInside_page rootPlain listed
  refine ⟨fun route => mem_routes_iff,
    fun route command leads => ⟨together_in_routes leads, sublist_routes leads⟩,
    wellNamed.nodup_pages, ?_, fun fits => ?_, fun before route further split fits unfit => ?_⟩
  · have distinct := nodup_paths directory insides wellNamed.nodup_pages
    rwa [List.map_map] at distinct
  · obtain ⟨after, -, holds, written⟩ := manual_eq_after wellNamed rootPlain leads empty
      (List.append_nil _).symm fits
    refine ⟨after, ?_, holds⟩
    rw [written, List.map_nil, writePages, Except.map, List.append_nil]
  · exact manual_of_unfit wellNamed rootPlain leads empty split fits unfit

/-- The five pages of a tree with three levels, in a directory whose path ends in a slash. -/
theorem pages_of_five_commands :
    let tree : CommandTree := .node "jsm" [.node "tokens" [],
      .node "generate" [.node "shell" [], .node "man" []]]
    let files := FileTree.ofDirectory ["pages"]
    tree.WellNamed ∧ '/' ∉ tree.name.toList ∧ files.place "pages/" = .ok ["pages"] ∧
      files.Holds ["pages"] [] ∧
      ∃ after, manual tree "pages/" files =
          (.ok ["pages/jsm.1", "pages/jsm-tokens.1", "pages/jsm-generate.1",
            "pages/jsm-generate-shell.1", "pages/jsm-generate-man.1"], after) ∧
        after.Holds ["pages"] ["jsm.1", "jsm-tokens.1", "jsm-generate.1", "jsm-generate-shell.1",
          "jsm-generate-man.1"] := by
  intro tree files
  have generate : WellNamed (.node "generate" [.node "shell" [], .node "man" []]) :=
    .node (by decide) (by decide) (by simp [WellNamed.leaf])
  have wellNamed : tree.WellNamed :=
    .node (by decide) (by decide) (by simp [WellNamed.leaf, generate])
  have leads : files.place "pages/" = .ok ["pages"] := rfl
  have empty := FileTree.holds_ofDirectory ["pages"]
  have fits : ∀ route ∈ tree.routes, FileTree.Fits "pages/" (tree.page route) := by
    decide
  obtain ⟨after, written, holds⟩ :=
    (one_page_for_each_command wellNamed (by decide) leads empty).2.2.2.2.1 fits
  have paths : tree.routes.map (fun route => pathIn "pages/" (tree.page route)) =
      ["pages/jsm.1", "pages/jsm-tokens.1", "pages/jsm-generate.1", "pages/jsm-generate-shell.1",
        "pages/jsm-generate-man.1"] := by
    decide
  have pages : tree.routes.map tree.page = ["jsm.1", "jsm-tokens.1", "jsm-generate.1",
      "jsm-generate-shell.1", "jsm-generate-man.1"] := by
    decide
  exact ⟨wellNamed, by decide, leads, empty, after, paths ▸ written, pages ▸ holds⟩

/-- A name of 254 letters leaves no room for the ending of the name of the file. -/
theorem longest_name_gets_no_page :
    let tree : CommandTree := .node (String.ofList (List.replicate 254 'a')) []
    let files := FileTree.ofDirectory ["pages"]
    tree.WellNamed ∧ '/' ∉ tree.name.toList ∧ files.place "pages" = .ok ["pages"] ∧
      files.Holds ["pages"] [] ∧ tree.routes = [[]] ∧
      (manual tree "pages" files).1 = .error (.pageNotCreated (pathIn "pages" (tree.page []))) := by
  intro tree files
  have wellNamed : tree.WellNamed := .leaf _
  have rootPlain : '/' ∉ tree.name.toList := by
    rw [CommandTree.name, String.toList_ofList]
    exact fun slash => absurd (List.eq_of_mem_replicate slash) (by decide)
  have leads : files.place "pages" = .ok ["pages"] := rfl
  have empty := FileTree.holds_ofDirectory ["pages"]
  have unfit : ¬FileTree.Fits "pages" (tree.page []) := by
    have size : (String.ofList (List.replicate 254 'a')).utf8ByteSize = 254 := by
      decide +kernel
    rw [FileTree.Fits, page, title, CommandTree.name, pageFile, String.intercalate_singleton,
      String.utf8ByteSize_append, size]
    exact fun fits => absurd fits.2 (by decide)
  have split : tree.routes = [] ++ [] :: [] := rfl
  obtain ⟨after, failed, -⟩ := manual_of_unfit wellNamed rootPlain leads empty split (by simp) unfit
  exact ⟨wellNamed, rootPlain, leads, empty, rfl, by rw [failed]⟩

end Run

end JsonSieve
