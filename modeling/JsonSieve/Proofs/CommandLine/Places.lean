import JsonSieve.CommandLine.Run
import JsonSieve.Proofs.Fallible
import JsonSieve.Proofs.Text.Lines

/-!
# Places in a tree of files

Something put at a place is found there, and the way to it leads through directories; all other
places stay as they are.  So a path that leads somewhere still does so after a file was written
where nothing stood, and files can be written into one directory one after the other.
-/

namespace JsonSieve

namespace FileTree

variable {tree after : FileTree} {start place next : Place} {node : Node} {path name : String}
  {names : List String} {content : Bytes}

theorem nodes_put (tree : FileTree) (place : Place) (node : Node) :
    (tree.put place node).nodes =
      (place, node) :: tree.nodes.filter (fun other => !other.1.isPrefixOf place) :=
  rfl

theorem at?_put_above (tree : FileTree) (node : Node) {asked : Place} (other : asked ≠ place)
    (above : asked <+: place) : (tree.put place node).at? asked = some .directory := by
  have forgotten : (tree.put place node).nodes.find? (fun entry => entry.1 = asked) = none := by
    rw [nodes_put, List.find?_cons_of_neg (by simpa using Ne.symm other), List.find?_eq_none]
    intro entry member isAsked
    have kept := List.of_mem_filter member
    obtain rfl : entry.1 = asked := by simpa using isAsked
    rw [List.isPrefixOf_iff_prefix.mpr above] at kept
    cases kept
  rw [at?, forgotten]
  simp [nodes_put, above]

theorem at?_put_elsewhere (tree : FileTree) (node : Node) {asked : Place}
    (elsewhere : ¬asked <+: place) : (tree.put place node).at? asked = tree.at? asked := by
  -- A node at the asked place, or below it, was not above the new node.
  have stays : ∀ entry : Place × Node, asked <+: entry.1 → entry.1.isPrefixOf place = false := by
    intro entry below
    by_contra above
    exact elsewhere (below.trans (List.isPrefixOf_iff_prefix.mp (by simpa using above)))
  have other : asked ≠ place := fun same => elsewhere (same ▸ List.prefix_rfl)
  have found : (tree.put place node).nodes.find? (fun entry => entry.1 = asked) =
      tree.nodes.find? (fun entry => entry.1 = asked) := by
    rw [nodes_put, List.find?_cons_of_neg (by simpa using Ne.symm other), List.find?_filter]
    refine congrArg (List.find? · tree.nodes) (funext fun entry => decide_eq_decide.mpr ?_)
    have same : entry.1 = asked → entry.1.isPrefixOf place = false :=
      fun isAsked => stays entry (isAsked ▸ List.prefix_rfl)
    simpa using same
  have below : (tree.put place node).nodes.any (fun entry => asked.isPrefixOf entry.1) =
      tree.nodes.any (fun entry => asked.isPrefixOf entry.1) := by
    have notAbove : asked.isPrefixOf place = false := by
      simpa [← List.isPrefixOf_iff_prefix] using elsewhere
    rw [nodes_put, List.any_cons, List.any_filter, notAbove, Bool.false_or]
    refine congrArg (List.any tree.nodes) (funext fun entry => ?_)
    by_cases below : asked <+: entry.1
    · simp [stays entry below]
    · have notBelow : asked.isPrefixOf entry.1 = false := by
        simpa [← List.isPrefixOf_iff_prefix] using below
      rw [notBelow, Bool.and_false]
  rw [at?, at?, found, below]
  rfl

/-- What was put at a place stands there, the way to it leads through directories, and nothing
else changes. -/
theorem at?_put (tree : FileTree) (place : Place) (node : Node) (asked : Place) :
    (tree.put place node).at? asked =
      if asked = place then some node
      else if asked <+: place then some .directory
      else tree.at? asked := by
  split
  · next same =>
      rw [at?, nodes_put, List.find?_cons_of_pos (by simpa using same.symm)]
  · next other =>
      split
      · next above => exact at?_put_above tree node other above
      · next elsewhere => exact at?_put_elsewhere tree node elsewhere

theorem step_eq_ok_iff :
    tree.step place name = .ok next ↔
      tree.at? place = some .directory ∧ name.utf8ByteSize ≤ nameLimit ∧
        next = advance place name := by
  rw [step]
  split
  · next nothing => simp [nothing]
  · next isDirectory =>
      split
      · next short => simp [isDirectory, short, eq_comm]
      · next long => simp [long]
  · next noDirectory found =>
      refine iff_of_false nofun fun claimed => ?_
      cases found.symm.trans claimed.1
      exact noDirectory rfl

theorem place_eq_ok_iff :
    tree.place path = .ok place ↔
      isUsable path = true ∧ (namesOf path).foldlM tree.step (tree.start path) = .ok place := by
  rw [FileTree.place]
  split
  · next usable => simp [usable]
  · next unusable => simp [unusable]

/-- Another tree has the same current directory and all directories of a tree. -/
structure KeepsDirectories (tree after : FileTree) : Prop where
  current : after.current = tree.current
  directory : ∀ place, tree.at? place = some .directory → after.at? place = some .directory

theorem foldlM_step_cons_eq_ok_iff :
    (name :: names).foldlM tree.step start = .ok place ↔
      ∃ next, tree.step start name = .ok next ∧ names.foldlM tree.step next = .ok place := by
  rw [List.foldlM_cons, Fallible.bind_eq_ok_iff]

/-- A path that leads somewhere leads there in a tree with more directories, too. -/
theorem KeepsDirectories.place_eq_ok (keeps : KeepsDirectories tree after)
    (leads : tree.place path = .ok place) : after.place path = .ok place := by
  have follows : ∀ (names : List String) (start : Place),
      names.foldlM tree.step start = .ok place → names.foldlM after.step start = .ok place := by
    intro names
    induction names with
    | nil => exact fun start arrived => arrived
    | cons name names ih =>
        intro start leads
        obtain ⟨next, first, rest⟩ := foldlM_step_cons_eq_ok_iff.mp leads
        obtain ⟨isDirectory, short, rfl⟩ := step_eq_ok_iff.mp first
        exact foldlM_step_cons_eq_ok_iff.mpr
          ⟨_, step_eq_ok_iff.mpr ⟨keeps.directory _ isDirectory, short, rfl⟩, ih _ rest⟩
  obtain ⟨usable, leads⟩ := place_eq_ok_iff.mp leads
  have sameStart : after.start path = tree.start path := by
    rw [start, start, keeps.current]
  exact place_eq_ok_iff.mpr ⟨usable, sameStart ▸ follows _ _ leads⟩

theorem directory_of_leads (leads : names.foldlM tree.step start = .ok place)
    (isDirectory : tree.at? place = some .directory) : tree.at? start = some .directory := by
  cases names with
  | nil =>
      cases leads
      exact isDirectory
  | cons name names =>
      obtain ⟨next, first, -⟩ := foldlM_step_cons_eq_ok_iff.mp leads
      exact (step_eq_ok_iff.mp first).1

theorem foldlM_makeStep (leads : names.foldlM tree.step start = .ok place)
    (isDirectory : tree.at? place = some .directory) :
    names.foldlM makeStep (tree, start) = .ok (tree, place) := by
  induction names generalizing start with
  | nil =>
      cases leads
      rfl
  | cons name names ih =>
      obtain ⟨next, first, rest⟩ := foldlM_step_cons_eq_ok_iff.mp leads
      rw [List.foldlM_cons]
      refine Fallible.bind_eq_ok_iff.mpr ⟨(tree, next), ?_, ih rest⟩
      simp [makeStep, bind, Except.bind, pure, Except.pure, first,
        directory_of_leads rest isDirectory]

theorem makeable_isPrefix (names : List String) : makeable names <+: names := by
  have withoutEnd_isPrefix : ∀ property, withoutEnd property names <+: names :=
    fun property => List.rdropWhile_prefix property names
  rw [makeable]
  split
  · exact (List.dropLast_prefix _).trans (withoutEnd_isPrefix isIdle)
  · exact List.prefix_rfl

theorem createDirectories_of_directory (leads : tree.place path = .ok place)
    (isDirectory : tree.at? place = some .directory) :
    tree.createDirectories path = .ok (tree.remember (.directory path)) := by
  obtain ⟨usable, names⟩ := place_eq_ok_iff.mp leads
  obtain ⟨rest, split⟩ := makeable_isPrefix (namesOf path)
  rw [← split, List.foldlM_append] at names
  obtain ⟨middle, first, rest⟩ := Fallible.bind_eq_ok_iff.mp names
  have made := foldlM_makeStep first (directory_of_leads rest isDirectory)
  have found : tree.node? path = some .directory := by
    rw [node?, leads]
    exact isDirectory
  rw [createDirectories, if_pos usable, made]
  simp [bind, Except.bind, pure, Except.pure, found]

/-- A name that leads from a directory to something in it. -/
structure LeadsInside (name : String) : Prop where
  unslashed : '/' ∉ name.toList
  notIdle : isIdle name = false
  notBack : name ≠ ".."

/-- A file system can have a file of this name in the directory. -/
def Fits (directory file : String) : Prop :=
  isUsable (Run.pathIn directory file) = true ∧ file.utf8ByteSize ≤ nameLimit

instance (directory file : String) : Decidable (Fits directory file) :=
  inferInstanceAs (Decidable (_ ∧ _))

variable {directory file : String}

theorem LeadsInside.advance_eq (inside : LeadsInside file) :
    advance place file = place ++ [file] := by
  rw [advance, inside.notIdle, if_neg (by simp), if_neg inside.notBack]

theorem LeadsInside.pathIn_eq (inside : LeadsInside file) :
    Run.pathIn directory file =
      if directory.toList.getLast?.all (· = '/') then directory ++ file
      else directory ++ "/" ++ file := by
  have relative : isAbsolute file = false := by
    rw [isAbsolute, decide_eq_false_iff_not]
    exact fun first => inside.unslashed (List.mem_of_head? first)
  rw [Run.pathIn, relative, if_neg (by simp)]

theorem LeadsInside.namesOf_eq (inside : LeadsInside file) : namesOf file = [file] := by
  rw [namesOf, Lines.splitAt_of_not_mem inside.unslashed, List.map_singleton, String.ofList_toList]

theorem namesOf_slash (front back : String) :
    namesOf (front ++ "/" ++ back) = namesOf front ++ namesOf back := by
  simp only [namesOf, String.toList_append, ← List.map_append, ← Lines.splitAt_append]
  simp

/-- The path of a file in a directory has the names of the path of the directory, where an empty
name at the end gives way, and that of the file. -/
theorem LeadsInside.namesOf_pathIn (inside : LeadsInside file) (directory : String) :
    ∃ front, namesOf (Run.pathIn directory file) = front ++ [file] ∧
      (namesOf directory = front ∨ namesOf directory = front ++ [""]) := by
  rw [inside.pathIn_eq]
  split
  · next ends =>
      cases last : directory.toList.getLast? with
      | none =>
          obtain rfl : directory = "" := by simpa using last
          exact ⟨[], by simpa using inside.namesOf_eq, Or.inr rfl⟩
      | some symbol =>
          rw [last] at ends
          obtain rfl : symbol = '/' := by simpa using ends
          obtain ⟨front, split⟩ := List.getLast?_eq_some_iff.mp last
          obtain rfl : directory = String.ofList front ++ "/" := by
            rw [← String.toList_inj, split]
            simp
          refine ⟨namesOf (String.ofList front), ?_, Or.inr ?_⟩
          · rw [namesOf_slash, inside.namesOf_eq]
          · rw [← String.append_empty (s := String.ofList front ++ "/"), namesOf_slash]
            rfl
  · exact ⟨namesOf directory, by rw [namesOf_slash, inside.namesOf_eq], Or.inl rfl⟩

theorem LeadsInside.start_pathIn (inside : LeadsInside file) :
    tree.start (Run.pathIn directory file) = tree.start directory := by
  have relative : file.toList.head? ≠ some '/' :=
    fun first => inside.unslashed (List.mem_of_head? first)
  have same : isAbsolute (Run.pathIn directory file) = isAbsolute directory := by
    rw [inside.pathIn_eq, isAbsolute, isAbsolute, decide_eq_decide]
    cases begins : directory.toList with
    | nil =>
        obtain rfl : directory = "" := String.toList_inj.mp begins
        simpa using relative
    | cons first others =>
        split <;> simp [begins]
  rw [start, start, same]

/-- If a path leads to a directory, that of a file in it leads to the file, provided that the file
fits. -/
theorem place_pathIn_eq_ok_iff (inside : LeadsInside file)
    (leads : tree.place directory = .ok place) (isDirectory : tree.at? place = some .directory) :
    tree.place (Run.pathIn directory file) = .ok next ↔
      Fits directory file ∧ next = place ++ [file] := by
  obtain ⟨-, leads⟩ := place_eq_ok_iff.mp leads
  obtain ⟨front, names, before⟩ := inside.namesOf_pathIn directory
  have front_leads : front.foldlM tree.step (tree.start directory) = .ok place := by
    rcases before with same | trailing
    · rwa [← same]
    · rw [trailing, List.foldlM_append] at leads
      obtain ⟨middle, first, last⟩ := Fallible.bind_eq_ok_iff.mp leads
      obtain ⟨_, stays, arrived⟩ := foldlM_step_cons_eq_ok_iff.mp last
      obtain ⟨-, -, rfl⟩ := step_eq_ok_iff.mp stays
      cases arrived
      exact first
  have last_leads : [file].foldlM tree.step place = .ok next ↔
      file.utf8ByteSize ≤ nameLimit ∧ next = place ++ [file] := by
    simp only [foldlM_step_cons_eq_ok_iff, step_eq_ok_iff, inside.advance_eq]
    constructor
    · rintro ⟨_, ⟨-, short, rfl⟩, arrived⟩
      cases arrived
      exact ⟨short, rfl⟩
    · rintro ⟨short, rfl⟩
      exact ⟨_, ⟨isDirectory, short, rfl⟩, rfl⟩
  rw [place_eq_ok_iff, names, inside.start_pathIn, List.foldlM_append, front_leads, Fits, and_assoc,
    ← last_leads]
  rfl

theorem keepsDirectories_put (free : tree.at? place = none) :
    KeepsDirectories tree (tree.put place node) := by
  refine ⟨rfl, fun other isDirectory => ?_⟩
  rw [at?_put]
  split
  · next same =>
      rw [same, free] at isDirectory
      cases isDirectory
  · split
    · rfl
    · exact isDirectory

/-- Files with some names stand in a directory, and nothing else does. -/
structure Holds (tree : FileTree) (place : Place) (files : List String) : Prop where
  isDirectory : tree.at? place = some .directory
  file : ∀ file ∈ files, ∃ content, tree.at? (place ++ [file]) = some (.file content)
  nothingElse : ∀ below ≠ [], (∀ file ∈ files, below ≠ [file]) → tree.at? (place ++ below) = none

variable {files : List String}

/-- A file system of which only an empty directory is known. -/
def ofDirectory (place : Place) : FileTree where
  current := []
  nodes := [(place, .directory)]

theorem holds_ofDirectory (place : Place) : (ofDirectory place).Holds place [] where
  isDirectory := by
    simp [ofDirectory, at?]
  file := by
    simp
  nothingElse := by
    intro below nonempty _
    have notAbove : ∀ other, other <+: place → (place ++ below).isPrefixOf other = false := by
      intro other above
      rw [← Bool.not_eq_true, List.isPrefixOf_iff_prefix]
      intro beyond
      exact nonempty (List.append_right_eq_self.mp
        ((beyond.trans above).eq_of_length_le (by simp)))
    simp [ofDirectory, at?, notAbove, nonempty]

theorem at?_put_inside (tree : FileTree) (place : Place) (node : Node) {below : Place}
    (nonempty : below ≠ []) :
    (tree.put (place ++ [name]) node).at? (place ++ below) =
      if below = [name] then some node else tree.at? (place ++ below) := by
  have notAbove : below ≠ [name] → ¬place ++ below <+: place ++ [name] := by
    rw [List.prefix_append_right_inj, List.prefix_cons_iff]
    rintro other (empty | ⟨rest, rfl, short⟩)
    · exact nonempty empty
    · exact other (by rw [List.prefix_nil.mp short])
  simp only [at?_put, List.append_cancel_left_eq]
  split
  · rfl
  · next other => rw [if_neg (notAbove other)]

theorem Holds.put (holds : tree.Holds place files) (file : String) (content : Bytes) :
    (tree.put (place ++ [file]) (.file content)).Holds place (files ++ [file]) where
  isDirectory := by
    rw [at?_put, if_neg (by simp), if_pos (List.prefix_append place [file])]
  file := by
    intro asked member
    rw [at?_put_inside tree place _ (by simp)]
    split
    · exact ⟨content, rfl⟩
    · next other =>
        refine holds.file asked ((List.mem_append.mp member).resolve_right fun isFile => other ?_)
        rw [List.mem_singleton.mp isFile]
  nothingElse := by
    intro below nonempty others
    rw [at?_put_inside tree place _ nonempty, if_neg (others file (by simp))]
    exact holds.nothingElse below nonempty fun other member =>
      others other (List.mem_append_left _ member)

/-- A file that fits can be written under a new name, and then stands beside the others. -/
theorem Holds.write (holds : tree.Holds place files) (leads : tree.place directory = .ok place)
    (inside : LeadsInside file) (fits : Fits directory file) (new : file ∉ files)
    (content : Bytes) :
    ∃ after, tree.write (Run.pathIn directory file) content = .ok after ∧
      after.place directory = .ok place ∧ after.Holds place (files ++ [file]) := by
  have arrives := (place_pathIn_eq_ok_iff inside leads holds.isDirectory).mpr ⟨fits, rfl⟩
  have free : tree.at? (place ++ [file]) = none := by
    refine holds.nothingElse [file] (by simp) fun other member same => new ?_
    rwa [List.singleton_inj.mp same]
  have put := holds.put file content
  refine ⟨(tree.put (place ++ [file]) (.file content)).remember
    (.file (Run.pathIn directory file) content), ?_, ?_,
    ⟨put.isDirectory, put.file, put.nothingElse⟩⟩
  · rw [FileTree.write, arrives]
    simp [bind, Except.bind, pure, Except.pure, free]
  · exact (keepsDirectories_put free).place_eq_ok leads

theorem Holds.write_eq_error (holds : tree.Holds place files)
    (leads : tree.place directory = .ok place) (inside : LeadsInside file)
    (unfit : ¬Fits directory file) (content : Bytes) :
    ∃ error, tree.write (Run.pathIn directory file) content = .error error := by
  cases arrives : tree.place (Run.pathIn directory file) with
  | ok next =>
      exact absurd ((place_pathIn_eq_ok_iff inside leads holds.isDirectory).mp arrives).1 unfit
  | error error => exact ⟨error, by rw [FileTree.write, arrives]; rfl⟩

end FileTree

end JsonSieve
