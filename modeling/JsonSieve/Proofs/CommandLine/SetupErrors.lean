import JsonSieve.CommandLine.Run
import JsonSieve.Proofs.Fallible
import JsonSieve.Proofs.Text.Utf8
import Mathlib

/-!
# Errors before the first document

A run that sieves documents has to read its filters and to find its input.  It works on these one
after the other, and the first thing that is wrong ends the run with status 1 and nothing printed.
Nothing that comes later can fail: whatever the documents hold, the status is 0.

A standard input that holds something can be read.  One that cannot be read at all, such as a
directory, is a fault of the input like a file that cannot be opened.

The complaint of a run is the error that ends it.  What is logged about documents that are skipped
is none.
-/

namespace JsonSieve.Run

/-- The text of a file, which has to be UTF-8. -/
def HoldsText (files : FileTree) (path : String) (text : String) : Prop :=
  content? files path = some (Utf8.encode text)

/-- Filters are given as arguments and, behind these, on the lines of the filter file. -/
inductive Gives (surroundings : Surroundings) (options : SieveOptions) : List String → Prop
  | arguments : options.filterFile = none → Gives surroundings options options.filters
  | lines {path text : String} : options.filterFile = some path →
      HoldsText surroundings.files path text →
        Gives surroundings options (options.filters ++ filterLines text)

def Accepted (source : String) : Prop :=
  ∃ filter, Expression.parse (Utf8.encode source) = .ok filter

instance : DecidablePred Accepted := fun source =>
  decidable_of_iff ((Expression.parse (Utf8.encode source)).isOk = true) <| by
    rw [Accepted]
    cases Expression.parse (Utf8.encode source) <;> simp [Except.isOk, Except.toBool]

/-- Why there is no input, be it a file or the standard input. -/
inductive InputFault (surroundings : Surroundings) (options : SieveOptions) : SetupError → Prop
  | notOpened {path : String} : options.input = some path → surroundings.files.node? path = none →
      InputFault surroundings options (.inputNotOpened path)
  | notMapped {path : String} {node : Node} : options.input = some path →
      surroundings.files.node? path = some node → (∀ content, node ≠ .file content) →
        InputFault surroundings options (.inputNotMapped path)
  | notRead : options.input = none → surroundings.input.isTerminal = false →
      surroundings.input.content? = none → InputFault surroundings options .inputNotRead

/-- The first thing that is wrong: the filter file, the lack of filters, the first filter that is
not accepted, or the input. -/
inductive FirstFault (surroundings : Surroundings) (options : SieveOptions) : SetupError → Prop
  | filterFile {path : String} : options.filterFile = some path →
      (∀ text, ¬HoldsText surroundings.files path text) →
        FirstFault surroundings options (.unreadableFilterFile path)
  | noFilter : Gives surroundings options [] → FirstFault surroundings options .noFilter
  | filter {before after : List String} {source : String} {error : FilterError} :
      Gives surroundings options (before ++ source :: after) →
      (∀ earlier ∈ before, Accepted earlier) →
      Expression.parse (Utf8.encode source) = .error error →
        FirstFault surroundings options (.invalidFilter source error)
  | input {sources : List String} {error : SetupError} :
      Gives surroundings options sources → sources ≠ [] → (∀ source ∈ sources, Accepted source) →
      InputFault surroundings options error → FirstFault surroundings options error

/-- Something is wrong, be it the first thing that is wrong or a later one. -/
def Faulty (surroundings : Surroundings) (options : SieveOptions) : Prop :=
  (∃ path, options.filterFile = some path ∧ ∀ text, ¬HoldsText surroundings.files path text) ∨
  Gives surroundings options [] ∨
  (∃ sources, Gives surroundings options sources ∧ ∃ source ∈ sources, ¬Accepted source) ∨
  ∃ path, options.input = some path ∧
    ∀ content, surroundings.files.node? path ≠ some (.file content)

/-- The documents are in a standard input that cannot be read. -/
def Unread (surroundings : Surroundings) (options : SieveOptions) : Prop :=
  options.input = none ∧ surroundings.input.isTerminal = false ∧
    surroundings.input.content? = none

variable {surroundings : Surroundings} {options : SieveOptions} {sources : List String}
  {error : SetupError}

theorem readFilterFile_eq {path : String} {text : String}
    (holds : HoldsText surroundings.files path text) :
    readFilterFile surroundings path = .ok (filterLines text) := by
  rw [HoldsText] at holds
  rw [readFilterFile, holds, Option.bind_some, Utf8.decode?_eq_some_iff.mpr rfl]

theorem readFilterFile_eq_error {path : String}
    (unreadable : ∀ text, ¬HoldsText surroundings.files path text) :
    readFilterFile surroundings path = .error (.unreadableFilterFile path) := by
  rw [readFilterFile]
  split
  · next text decoded =>
      obtain ⟨content, isContent, isText⟩ := Option.bind_eq_some_iff.mp decoded
      rw [Utf8.decode?_eq_some_iff.mp isText] at isContent
      exact absurd isContent (unreadable text)
  · rfl

theorem filterSources_of_gives (gives : Gives surroundings options sources) :
    filterSources surroundings options = .ok sources := by
  cases gives with
  | arguments noFile => rw [filterSources, noFile]
  | lines isFile holds =>
      rw [filterSources, isFile]
      dsimp only
      rw [readFilterFile_eq holds]
      rfl

/-- The filters can be gathered unless the filter file cannot be read. -/
theorem gives_or_unreadable (surroundings : Surroundings) (options : SieveOptions) :
    (∃ sources, Gives surroundings options sources) ∨
      ∃ path, options.filterFile = some path ∧
        ∀ text, ¬HoldsText surroundings.files path text := by
  cases isFile : options.filterFile with
  | none => exact Or.inl ⟨_, .arguments isFile⟩
  | some path =>
      by_cases readable : ∃ text, HoldsText surroundings.files path text
      · obtain ⟨text, holds⟩ := readable
        exact Or.inl ⟨_, .lines isFile holds⟩
      · exact Or.inr ⟨path, rfl, not_exists.mp readable⟩

theorem filterSources_of_unreadable {path : String} (isFile : options.filterFile = some path)
    (unreadable : ∀ text, ¬HoldsText surroundings.files path text) :
    filterSources surroundings options = .error (.unreadableFilterFile path) := by
  rw [filterSources, isFile]
  dsimp only
  rw [readFilterFile_eq_error unreadable]
  rfl

theorem Gives.unique {others : List String} (gives : Gives surroundings options sources)
    (again : Gives surroundings options others) : others = sources :=
  Except.ok.inj ((filterSources_of_gives again).symm.trans (filterSources_of_gives gives))

def readFilter (source : String) : Except SetupError Expression :=
  (Expression.parse (Utf8.encode source)).mapError (.invalidFilter source)

theorem readFilters_eq_mapM (sources : List String) :
    readFilters sources = sources.mapM readFilter := by
  induction sources with
  | nil => rfl
  | cons source sources ih =>
      rw [readFilters, List.mapM_cons, readFilter, ← ih]
      cases Expression.parse (Utf8.encode source) with
      | error error => rfl
      | ok filter => cases readFilters sources <;> rfl

theorem readFilter_eq_ok_iff {source : String} {filter : Expression} :
    readFilter source = .ok filter ↔ Expression.parse (Utf8.encode source) = .ok filter := by
  rw [readFilter]
  cases Expression.parse (Utf8.encode source) <;> simp [Except.mapError]

theorem readFilter_eq_error_iff {source : String} :
    readFilter source = .error error ↔ ∃ fault,
      Expression.parse (Utf8.encode source) = .error fault ∧
        error = .invalidFilter source fault := by
  rw [readFilter]
  cases Expression.parse (Utf8.encode source) <;> simp [Except.mapError, eq_comm]

theorem accepted_of_readFilters {filters : List Expression}
    (read : readFilters sources = .ok filters) : ∀ source ∈ sources, Accepted source := by
  rw [readFilters_eq_mapM, Fallible.mapM_eq_ok_iff] at read
  induction read with
  | nil => simp
  | cons first _ ih =>
      exact List.forall_mem_cons.mpr ⟨⟨_, readFilter_eq_ok_iff.mp first⟩, ih⟩

/-- Filters in a row fail with the error of the first one that is not accepted. -/
theorem readFilters_eq_error_iff :
    readFilters sources = .error error ↔
      ∃ before source after fault, sources = before ++ source :: after ∧
        (∀ earlier ∈ before, Accepted earlier) ∧
        Expression.parse (Utf8.encode source) = .error fault ∧
          error = .invalidFilter source fault := by
  rw [readFilters_eq_mapM, Fallible.mapM_eq_error_iff]
  simp only [readFilter_eq_ok_iff, readFilter_eq_error_iff, Accepted]
  constructor
  · rintro ⟨before, source, after, split, sound, fault, failed, rfl⟩
    exact ⟨before, source, after, fault, split, sound, failed, rfl⟩
  · rintro ⟨before, source, after, fault, split, sound, failed, rfl⟩
    exact ⟨before, source, after, split, sound, fault, failed, rfl⟩

theorem exists_readFilters (accepted : ∀ source ∈ sources, Accepted source) :
    ∃ filters, readFilters sources = .ok filters := by
  cases read : readFilters sources with
  | ok filters => exact ⟨filters, rfl⟩
  | error error =>
      obtain ⟨before, source, after, fault, rfl, -, failed, -⟩ := readFilters_eq_error_iff.mp read
      obtain ⟨filter, parsed⟩ := accepted source (by simp)
      cases parsed.symm.trans failed

theorem sieveInput_some {path : String} (isInput : options.input = some path) :
    sieveInput surroundings options = (readInput surroundings (some path)).map some := by
  rw [sieveInput, isInput, Option.isNone_some, Bool.false_and, if_neg (by decide)]

theorem sieveInput_none (noInput : options.input = none)
    (untyped : surroundings.input.isTerminal = false) :
    sieveInput surroundings options = (readInput surroundings none).map some := by
  rw [sieveInput, noInput, untyped, Bool.and_false, if_neg (by decide)]

theorem sieveInput_eq_error_iff :
    sieveInput surroundings options = .error error ↔ InputFault surroundings options error := by
  constructor
  · intro failed
    cases isInput : options.input with
    | some path =>
        rw [sieveInput_some isInput, readInput] at failed
        split at failed <;> cases failed
        · next nothing => exact .notOpened isInput nothing
        · next found => exact .notMapped isInput found nofun
        · next found => exact .notMapped isInput found nofun
    | none =>
        cases typed : surroundings.input.isTerminal with
        | true => simp [sieveInput, isInput, typed] at failed
        | false =>
            rw [sieveInput_none isInput typed, readInput] at failed
            split at failed <;> cases failed
            next unread => exact .notRead isInput typed unread
  · intro fault
    cases fault with
    | notOpened isInput nothing =>
        rw [sieveInput_some isInput, readInput, nothing]
        rfl
    | @notMapped path node isInput found noFile =>
        rw [sieveInput_some isInput, readInput, found]
        cases node with
        | file content => exact absurd rfl (noFile content)
        | stream content => rfl
        | directory => rfl
    | notRead noInput untyped unread =>
        rw [sieveInput_none noInput untyped, readInput, unread]
        rfl

/-- An input is at fault if its file cannot be mapped, or if it cannot be read. -/
theorem exists_inputFault_iff :
    (∃ error, InputFault surroundings options error) ↔
      (∃ path, options.input = some path ∧
        ∀ content, surroundings.files.node? path ≠ some (.file content)) ∨
      Unread surroundings options := by
  constructor
  · rintro ⟨error, fault⟩
    cases fault with
    | @notOpened path isInput nothing =>
        exact Or.inl ⟨path, isInput, fun content found => nomatch nothing.symm.trans found⟩
    | @notMapped path node isInput found noFile =>
        refine Or.inl ⟨path, isInput, fun content isFile => noFile content ?_⟩
        exact Option.some.inj (found.symm.trans isFile)
    | notRead noInput untyped unread => exact Or.inr ⟨noInput, untyped, unread⟩
  · rintro (⟨path, isInput, noFile⟩ | ⟨noInput, untyped, unread⟩)
    · cases found : surroundings.files.node? path with
      | none => exact ⟨_, .notOpened isInput found⟩
      | some node =>
          refine ⟨_, .notMapped isInput found ?_⟩
          rintro content rfl
          exact noFile content found
    · exact ⟨_, .notRead noInput untyped unread⟩

theorem sieve_of_firstFault (fault : FirstFault surroundings options error) :
    sieve surroundings options = .error error := by
  cases fault with
  | filterFile isFile unreadable =>
      rw [sieve, sieveOf, filterSources_of_unreadable isFile unreadable]
      rfl
  | noFilter gives =>
      rw [sieve, sieveOf, filterSources_of_gives gives]
      rfl
  | @filter before after source fault gives sound failed =>
      have failed :
          readFilters (before ++ source :: after) = .error (.invalidFilter source fault) :=
        readFilters_eq_error_iff.mpr ⟨before, source, after, fault, rfl, sound, failed, rfl⟩
      rw [sieve, sieveOf, filterSources_of_gives gives]
      simp [bind, Except.bind, failed]
  | input gives some accepted fault =>
      obtain ⟨filters, read⟩ := exists_readFilters accepted
      have failed := sieveInput_eq_error_iff.mpr fault
      rw [sieve, sieveOf, filterSources_of_gives gives]
      simp [bind, Except.bind, pure, Except.pure, read, failed, some]

theorem FirstFault.faulty_or_unread (fault : FirstFault surroundings options error) :
    Faulty surroundings options ∨ Unread surroundings options := by
  cases fault with
  | filterFile isFile unreadable => exact Or.inl (Or.inl ⟨_, isFile, unreadable⟩)
  | noFilter gives => exact Or.inl (Or.inr (Or.inl gives))
  | @filter before after source fault gives sound failed =>
      refine Or.inl (Or.inr (Or.inr (Or.inl ⟨_, gives, source, by simp, ?_⟩)))
      rintro ⟨filter, accepted⟩
      cases accepted.symm.trans failed
  | input gives some accepted fault =>
      rcases exists_inputFault_iff.mp ⟨error, fault⟩ with noFile | unread
      · exact Or.inl (Or.inr (Or.inr (Or.inr noFile)))
      · exact Or.inr unread

theorem not_faulty_or_unread (gives : Gives surroundings options sources) (some : sources ≠ [])
    (accepted : ∀ source ∈ sources, Accepted source)
    (noFault : ¬∃ error, InputFault surroundings options error) :
    ¬(Faulty surroundings options ∨ Unread surroundings options) := by
  rw [exists_inputFault_iff, not_or] at noFault
  rintro ((⟨path, isFile, unreadable⟩ | nothing | ⟨others, again, source, member, refused⟩ |
    noFile) | unread)
  · cases gives with
    | arguments noFile => cases noFile.symm.trans isFile
    | lines isSame holds =>
        cases isSame.symm.trans isFile
        exact unreadable _ holds
  · exact some (nothing.unique gives)
  · rw [gives.unique again] at member
    exact refused (accepted source member)
  · exact noFault.1 noFile
  · exact noFault.2 unread

theorem exists_sieve_eq_ok (gives : Gives surroundings options sources) (some : sources ≠ [])
    (accepted : ∀ source ∈ sources, Accepted source)
    (noFault : ¬∃ error, InputFault surroundings options error) :
    ∃ output, sieve surroundings options = .ok output := by
  obtain ⟨filters, read⟩ := exists_readFilters accepted
  rw [sieve, sieveOf, filterSources_of_gives gives]
  cases found : sieveInput surroundings options with
  | error error => exact absurd ⟨error, sieveInput_eq_error_iff.mp found⟩ noFault
  | ok input => cases input <;> simp [bind, Except.bind, pure, Except.pure, read, some]

/-- If anything is wrong, something is the first, and otherwise the run comes to its documents. -/
theorem firstFault_or_sound (surroundings : Surroundings) (options : SieveOptions) :
    (∃ error, FirstFault surroundings options error) ∨
      ¬(Faulty surroundings options ∨ Unread surroundings options) ∧
        ∃ output, sieve surroundings options = .ok output := by
  rcases gives_or_unreadable surroundings options with
    ⟨sources, gives⟩ | ⟨path, isFile, unreadable⟩
  · by_cases some : sources = []
    · exact Or.inl ⟨_, .noFilter (some ▸ gives)⟩
    · cases read : readFilters sources with
      | error error =>
          obtain ⟨before, source, after, fault, rfl, sound, failed, rfl⟩ :=
            readFilters_eq_error_iff.mp read
          exact Or.inl ⟨_, .filter gives sound failed⟩
      | ok filters =>
          have accepted := accepted_of_readFilters read
          by_cases fault : ∃ error, InputFault surroundings options error
          · obtain ⟨error, fault⟩ := fault
            exact Or.inl ⟨error, .input gives some accepted fault⟩
          · exact Or.inr ⟨not_faulty_or_unread gives some accepted fault,
              exists_sieve_eq_ok gives some accepted fault⟩
  · exact Or.inl ⟨_, .filterFile isFile unreadable⟩

end JsonSieve.Run
