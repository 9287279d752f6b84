import JsonSieve.Proofs.CommandLine.Operands
import JsonSieve.Proofs.CommandLine.Sieving
import JsonSieve.Proofs.Expression.Padding
import JsonSieve.Proofs.Sieve.Conjunction

/-!
# The places of filters

Filters are given as arguments and on the lines of a filter file, in any order.  Where each of them
is given does not matter: the filters of the sieve are the same up to their order, and the same
documents pass them in any order.
-/

namespace JsonSieve

theorem Documents.select_of_same_filters {filters others : List Expression} {depthLimit : Nat}
    (same : ∀ filter, filter ∈ others ↔ filter ∈ filters) (invert : Bool) (input : Bytes) :
    select (Sieve.ofFilters others ⟨depthLimit, none⟩) invert input =
      select (Sieve.ofFilters filters ⟨depthLimit, none⟩) invert input := by
  have accepts : ∀ document, (Sieve.ofFilters others ⟨depthLimit, none⟩).accepts document =
      (Sieve.ofFilters filters ⟨depthLimit, none⟩).accepts document :=
    fun document => Sieve.passesWithin_of_same_filters same
  simp only [select_eq, accepts]

namespace Run

/-- Spaces and tabs. -/
def Padding (characters : List Char) : Prop :=
  ∀ character ∈ characters, character = ' ' ∨ character = '\t'

/-- A line on which a filter stands by itself, or none, with spaces and tabs around it. -/
inductive Holds : List String → List Char → Prop
  | nothing (padding : List Char) : Padding padding → Holds [] padding
  | filter (before : List Char) (source : String) (after : List Char) :
      Padding before → Padding after → Holds [source] (before ++ source.toList ++ after)

inductive LineEnd : List Char → Prop
  | lineFeed : LineEnd ['\n']
  | carriageReturn : LineEnd ['\r', '\n']

/-- A text with these filters on its lines, in this order.  The last line need not be ended. -/
inductive Lists : List String → List Char → Prop
  | last {sources : List String} {line : List Char} : Holds sources line → Lists sources line
  | line {sources others : List String} {line ending rest : List Char} :
      Holds sources line → LineEnd ending → Lists others rest →
        Lists (sources ++ others) (line ++ ending ++ rest)

variable {sources : List String} {line text : List Char}

theorem Padding.isWhiteSpace (padding : Padding line) :
    ∀ character ∈ line, Lines.isWhiteSpace character := by
  intro character member
  rcases padding character member with rfl | rfl <;> decide

theorem Padding.lineFeed_notMem (padding : Padding line) : '\n' ∉ line := by
  intro member
  rcases padding '\n' member with same | same <;> cases same

/-- The filter that a run takes from the line of a source. -/
def trimmed (source : String) : List Char :=
  Lines.trim Lines.isWhiteSpace source.toList

theorem trimmedPieces_line (ending : List Char) (holds : Holds sources line)
    (some : ∀ source ∈ sources, trimmed source ≠ [])
    (unbroken : ∀ source ∈ sources, '\n' ∉ source.toList)
    (white : ∀ character ∈ ending, Lines.isWhiteSpace character)
    (ends : '\n' ∉ ending) :
    Lines.trimmedPieces '\n' Lines.isWhiteSpace (line ++ ending) = sources.map trimmed := by
  have single : '\n' ∉ line → Lines.trimmedPieces '\n' Lines.isWhiteSpace (line ++ ending) =
      [Lines.trim Lines.isWhiteSpace line].filter (!·.isEmpty) := by
    intro absent
    have trim := @Lines.trim_padded _ Lines.isWhiteSpace line [] ending (by simp) white
    rw [Lines.trimmedPieces, Lines.splitAt_of_not_mem (by simp [absent, ends]), List.map_singleton]
    exact congrArg (fun piece => [piece].filter (!·.isEmpty)) trim
  cases holds with
  | nothing _ padding =>
      have empty : Lines.trim Lines.isWhiteSpace line = [] := by
        have trim := @Lines.trim_padded _ Lines.isWhiteSpace [] line [] padding.isWhiteSpace
          (by simp)
        rw [List.append_nil, List.append_nil] at trim
        exact trim
      rw [single padding.lineFeed_notMem, empty]
      rfl
  | filter before source after paddingBefore paddingAfter =>
      rw [List.forall_mem_singleton] at some unbroken
      rw [single (by simp [paddingBefore.lineFeed_notMem, paddingAfter.lineFeed_notMem, unbroken]),
        Lines.trim_padded paddingBefore.isWhiteSpace paddingAfter.isWhiteSpace]
      simpa [trimmed] using some

/-- The lines of a filter file give the filters on them. -/
theorem filterLines_of_lists (lists : Lists sources text)
    (some : ∀ source ∈ sources, trimmed source ≠ [])
    (unbroken : ∀ source ∈ sources, '\n' ∉ source.toList) :
    filterLines (String.ofList text) =
      sources.map fun source => String.ofList (trimmed source) := by
  have pieces : Lines.trimmedPieces '\n' Lines.isWhiteSpace text = sources.map trimmed := by
    induction lists with
    | last holds =>
        have alone := trimmedPieces_line [] holds some unbroken (by simp) (by simp)
        rwa [List.append_nil] at alone
    | line holds ends lists ih =>
        rw [List.forall_mem_append] at some unbroken
        have further := ih some.2 unbroken.2
        cases ends with
        | lineFeed =>
            have own := trimmedPieces_line [] holds some.1 unbroken.1 (by simp) (by simp)
            rw [List.append_nil] at own
            rw [List.append_assoc, List.singleton_append, Lines.trimmedPieces_append, own, further,
              List.map_append]
        | carriageReturn =>
            have own := trimmedPieces_line ['\r'] holds some.1 unbroken.1
              (List.forall_mem_singleton.mpr (by decide)) (by decide)
            rw [← List.singleton_append, ← List.append_assoc, List.append_assoc,
              List.singleton_append, Lines.trimmedPieces_append, own, further, List.map_append]
  rw [filterLines, String.toList_ofList, pieces, List.map_map]
  rfl

/-- Filters that stand in a filter file, or none if there is no filter file. -/
def StandIn (files : FileTree) : Option String → List String → Prop
  | none, listed => listed = []
  | some path, listed =>
      ∃ text : String, content? files path = some (Utf8.encode text) ∧ Lists listed text.toList

/-- Filters are given in some order: each of them as an argument or in the filter file. -/
def AreGiven (sources : List String) (surroundings : Surroundings) (options : SieveOptions) :
    Prop :=
  ∃ listed, StandIn surroundings.files options.filterFile listed ∧
    (options.filters ++ listed).Perm sources

theorem filterSources_of_standIn {surroundings : Surroundings} {options : SieveOptions}
    {listed : List String} (standIn : StandIn surroundings.files options.filterFile listed)
    (some : ∀ source ∈ listed, trimmed source ≠ [])
    (unbroken : ∀ source ∈ listed, '\n' ∉ source.toList) :
    filterSources surroundings options =
      .ok (options.filters ++ listed.map fun source => String.ofList (trimmed source)) := by
  rw [filterSources]
  cases isFile : options.filterFile with
  | none =>
      rw [isFile] at standIn
      obtain rfl : listed = [] := standIn
      simp
  | some path =>
      rw [isFile] at standIn
      obtain ⟨text, content, lists⟩ := standIn
      have lines := filterLines_of_lists lists some unbroken
      rw [String.ofList_toList] at lines
      simp [readFilterFile, content, Utf8.decode?_eq_some_iff.mpr rfl, lines, Except.map]

theorem readFilters_of_each {filters : List Expression}
    (each : List.Forall₂ (fun source filter =>
      Expression.parse (Utf8.encode source) = .ok filter) sources filters) :
    readFilters sources = .ok filters := by
  induction each with
  | nil => rfl
  | cons first _ ih =>
      rw [readFilters, first, ih]
      rfl

theorem sieveOf_of_standIn {surroundings : Surroundings} {options : SieveOptions}
    {listed : List String} {meaning : String → Expression}
    (standIn : StandIn surroundings.files options.filterFile listed)
    (nonempty : options.filters ++ listed ≠ [])
    (means : ∀ source ∈ options.filters ++ listed,
      Expression.parse (Utf8.encode source) = .ok (meaning source))
    (unbroken : ∀ source ∈ options.filters ++ listed, '\n' ∉ source.toList) :
    sieveOf surroundings options =
      .ok (Sieve.ofFilters ((options.filters ++ listed).map meaning) (settingsOf options)) := by
  rw [List.forall_mem_append] at means unbroken
  have gathered := filterSources_of_standIn standIn
    (fun source member => (Expression.parse_trim (means.2 source member)).1) unbroken.2
  -- What is read of a line is not the source itself, but it is the same filter.
  have each : List.Forall₂ (fun source filter =>
      Expression.parse (Utf8.encode source) = .ok filter)
      (options.filters ++ listed.map fun source => String.ofList (trimmed source))
      ((options.filters ++ listed).map meaning) := by
    rw [List.map_append]
    refine List.rel_append ?_ ?_
    · exact List.forall₂_map_right_iff.mpr (List.forall₂_same.mpr means.1)
    · refine List.forall₂_map_left_iff.mpr (List.forall₂_map_right_iff.mpr
        (List.forall₂_same.mpr fun source member => ?_))
      exact (Expression.parse_trim (means.2 source member)).2
  refine Fallible.bind_eq_ok_iff.mpr ⟨_, gathered, ?_⟩
  rw [if_neg (by simpa using nonempty)]
  exact Fallible.bind_eq_ok_iff.mpr ⟨_, readFilters_of_each each, rfl⟩

theorem noHyphen_of_parse {source : String} {filter : Expression}
    (accepted : Expression.parse (Utf8.encode source) = .ok filter) :
    ArgumentGrammar.NoHyphen source := by
  obtain ⟨first, others, split, start⟩ := Expression.exists_cons_of_parse accepted
  rw [ArgumentGrammar.NoHyphen, split, List.head?_cons]
  rintro ⟨⟩
  revert start
  decide

theorem ne_of_parse {source name : String} {filter : Expression}
    (accepted : Expression.parse (Utf8.encode source) = .ok filter)
    (isName : name.toList.head?.any Char.isAlpha) : source ≠ name := by
  rintro rfl
  obtain ⟨first, others, split, start⟩ := Expression.exists_cons_of_parse accepted
  rw [split, List.head?_cons, Option.any_some] at isName
  rcases start.imp_right Json.Reader.cases_of_isBlank with rfl | rfl | rfl | rfl | rfl <;>
    cases isName

/-- Filters on one line each can be given as arguments or in a file, in any order and padded.  The
run prints the same documents, and no filter is mistaken for anything else. -/
theorem filters_can_be_given_anywhere (others : SieveOptions) (nonempty : sources ≠ [])
    (accepted : ∀ source ∈ sources, ∃ filter,
      Expression.parse (Utf8.encode source) = .ok filter)
    (unbroken : ∀ source ∈ sources, '\n' ∉ source.toList)
    (unlimited : others.timeBudget = none) :
    ∃ filters, readFilters sources = .ok filters ∧
      (∀ surroundings arguments given filterFile input,
        let options := { others with filters := given, filterFile := filterFile }
        Command.ofArguments arguments = .ok (.sieve options) →
        AreGiven sources surroundings options →
        sieveInput surroundings others = .ok (some input) →
          run surroundings arguments =
            (.printing (report others.count (Documents.select
              (Sieve.ofFilters filters (settingsOf others)) others.invert input)),
              surroundings.files)) ∧
      ∀ given ⊆ sources,
        (given ≠ [] → Command.ofArguments given = .ok (.sieve { filters := given })) ∧
        ∀ arguments options, Command.ofArguments arguments = .ok (.sieve options) →
          Command.ofArguments (arguments ++ given) =
            .ok (.sieve { options with filters := options.filters ++ given }) := by
  obtain ⟨meaning, means⟩ : ∃ meaning : String → Expression, ∀ source ∈ sources,
      Expression.parse (Utf8.encode source) = .ok (meaning source) := by
    have : Nonempty Expression := ⟨.constant true⟩
    choose! meaning means using accepted
    exact ⟨meaning, means⟩
  refine ⟨sources.map meaning, ?_, ?_, ?_⟩
  · exact readFilters_of_each (List.forall₂_map_right_iff.mpr (List.forall₂_same.mpr means))
  · intro surroundings arguments given filterFile input options isCommand areGiven read
    obtain ⟨listed, standIn, order⟩ := areGiven
    have compiled := sieveOf_of_standIn standIn
      (fun none => nonempty (List.perm_nil.mp (none ▸ order).symm))
      (fun source member => means source (order.mem_iff.mp member))
      fun source member => unbroken source (order.mem_iff.mp member)
    have settings : settingsOf options = ⟨(settingsOf others).depthLimit, none⟩ :=
      congrArg (Settings.mk _) unlimited
    have sameSettings : settingsOf others = ⟨(settingsOf others).depthLimit, none⟩ := settings
    rw [settings] at compiled
    rw [run, isCommand, sameSettings, ← Documents.select_of_same_filters
      fun filter => (order.map meaning).mem_iff]
    have sameInput : sieveInput surroundings options = .ok (some input) := read
    exact command_sieve compiled sameInput
  · intro given fewer
    have noHyphens : ∀ source ∈ given, ArgumentGrammar.NoHyphen source :=
      fun source member => noHyphen_of_parse (means source (fewer member))
    refine ⟨fun some => Command.ofArguments_filters some noHyphens ?_ ?_, ?_⟩
    · exact fun member => ne_of_parse (means _ (fewer member)) (by decide) rfl
    · exact fun member => ne_of_parse (means _ (fewer member)) (by decide) rfl
    · exact fun arguments options made => Command.ofArguments_append made noHyphens

/-- Two filters, one of them in a file between a blank line and the end, or both as arguments. -/
theorem filters_given_in_two_places :
    let array := "[\"everyin\", 1, [\"field\", \"\"], [\"true\"]]"
    let constant := " [\"not\",\t[\"false\"]]"
    let listing := "\r\n\t" ++ constant ++ " \r\n"
    let surroundings : Surroundings :=
      ⟨(Utf8.encode "[]\n3\n" : Bytes), ⟨[], [(["filters"], .file (Utf8.encode listing))], []⟩⟩
    let output := Utf8.encode "[]\n"
    run surroundings ["-f", "/filters", array] = (.printing output, surroundings.files) ∧
      run surroundings [constant, array] = (.printing output, surroundings.files) := by
  intro array constant listing surroundings output
  have unbroken : ∀ source ∈ [array, constant], '\n' ∉ source.toList := by
    simp only [List.forall_mem_cons]
    exact ⟨by decide, by decide, by simp⟩
  have isArray : Expression.parse (Utf8.encode array) =
      .ok (.quantifier .every 1 (.field 0 "") (.constant true)) := by cbv
  have isConstant :
      Expression.parse (Utf8.encode constant) = .ok (.negation (.constant false)) := by cbv
  have accepted : ∀ source ∈ [array, constant], ∃ filter,
      Expression.parse (Utf8.encode source) = .ok filter := by
    simp only [List.forall_mem_cons]
    exact ⟨⟨_, isArray⟩, ⟨_, isConstant⟩, by simp⟩
  obtain ⟨filters, areFilters, anywhere, alone⟩ :=
    filters_can_be_given_anywhere {} (by simp) accepted unbroken rfl
  have read := readFilters_of_each (.cons isArray (.cons isConstant .nil))
  obtain rfl := Except.ok.inj (read.symm.trans areFilters)
  have selected : report false (Documents.select (Sieve.ofFilters
      [.quantifier .every 1 (.field 0 "") (.constant true), .negation (.constant false)] {})
        false (Utf8.encode "[]\n3\n")) = output := by decide +kernel
  have printed : ∀ arguments given filterFile,
      Command.ofArguments arguments =
        .ok (.sieve { filters := given, filterFile := filterFile }) →
      AreGiven [array, constant] surroundings { filters := given, filterFile := filterFile } →
      run surroundings arguments = (.printing output, surroundings.files) := by
    intro arguments given filterFile made areGiven
    rw [← selected]
    exact anywhere surroundings arguments given filterFile _ made areGiven rfl
  constructor
  · have named : Command.ofArguments ["-f", "/filters"] =
        .ok (.sieve { filterFile := some "/filters" }) := by decide +kernel
    have made := (alone [array] (by simp)).2 _ _ named
    have content : ∀ octets,
        content? ⟨[], [(["filters"], .file octets)], []⟩ "/filters" = some octets := by
      intro octets
      cbv
    have noPadding : Padding [] := by simp [Padding]
    have split : listing.toList =
        [] ++ ['\r', '\n'] ++ (['\t'] ++ constant.toList ++ [' '] ++ ['\r', '\n'] ++ []) := by
      simp [listing]
    have lines : Lists [constant] listing.toList :=
      split ▸ .line (.nothing [] noPadding) .carriageReturn
        (.line (.filter ['\t'] constant [' '] (by simp [Padding]) (by simp [Padding]))
          .carriageReturn (.last (.nothing [] noPadding)))
    exact printed _ _ _ made ⟨[constant], ⟨listing, content _, lines⟩, .refl _⟩
  · refine printed _ [constant, array] none ((alone _ ?_).1 (by simp)) ⟨[], rfl, .swap ..⟩
    simp

end Run

end JsonSieve
