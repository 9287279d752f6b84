import JsonSieve.CommandLine.Run
import JsonSieve.Proofs.Documents.Selection

/-!
# What `jsm` prints of a stream of documents

Once its filters are compiled and its input is read, a run cannot fail any more.  It prints the
documents that it selects, one on a line, or how many they are.  So the runs with and without
`--invert` can be set side by side, and what one run prints can be fed into another.
-/

namespace JsonSieve.Run

open Documents

variable {surroundings : Surroundings} {options : SieveOptions} {sieve : Sieve}

theorem command_sieve {input : Bytes} (compiled : sieveOf surroundings options = .ok sieve)
    (read : sieveInput surroundings options = .ok (some input)) :
    command surroundings (.sieve options) =
      (.printing (report options.count (select sieve options.invert input)),
        surroundings.files) := by
  rw [command, Run.sieve, compiled, read]
  rfl

theorem report_counted {documents : List Bytes}
    (each : ∀ document ∈ documents, IsDocument document) :
    report true documents =
      Utf8.encode (toString ((report false documents).count 0x0a) ++ "\n") := by
  simp only [report, if_true, Bool.false_eq_true, if_false, count_toOutput each]

/-- Each document that is JSON is printed by exactly one of the two runs, as often as it occurs and
in order.  The counts of both add up to the number of these documents. -/
theorem documents_are_shared_out {input : Bytes}
    (compiled : sieveOf surroundings options = .ok sieve)
    (read : sieveInput surroundings options = .ok (some input)) :
    let documents := ofInput input
    let printed := fun invert => documents.filter
      (fun document => isJson document && (sieve.accepts document != invert))
    let run := fun invert count => command surroundings
      (.sieve { options with invert := invert, count := count })
    let lineFeeds := fun invert => (run invert false).1.output.count 0x0a
    (∀ invert, run invert false =
      (.printing ((printed invert).flatMap (fun document => document ++ [0x0a])),
        surroundings.files)) ∧
    (∀ invert, Lines.splitAt 0x0a (run invert false).1.output = printed invert ++ [[]]) ∧
    (∀ invert, (printed invert).Sublist documents) ∧
    (∀ document ∈ documents, ∃ line ∈ Lines.splitAt 0x0a input,
      document = Lines.trim Lines.isBlankOctet line) ∧
    (∀ document ∈ documents, isJson document = true →
      (document ∈ printed false ↔ document ∉ printed true)) ∧
    (printed false ++ printed true).Perm (documents.filter isJson) ∧
    (∀ document, isJson document = false → ∀ invert, document ∉ printed invert) ∧
    (∀ document ∈ documents, ∀ error, isJson document = true →
      sieve.evaluate document = .error error → document ∈ printed true) ∧
    (∀ invert, run invert true =
      (.printing (Utf8.encode (toString (lineFeeds invert) ++ "\n")), surroundings.files)) ∧
    lineFeeds false + lineFeeds true = (documents.filter isJson).length := by
  intro documents printed run lineFeeds
  have selected : ∀ invert, select sieve invert input = printed invert :=
    fun invert => select_eq sieve invert input
  have areDocuments : ∀ invert, ∀ document ∈ printed invert, IsDocument document :=
    fun invert document member => isDocument_of_mem_ofInput (List.mem_of_mem_filter member)
  have reported : ∀ invert count,
      run invert count = (.printing (report count (printed invert)), surroundings.files) := by
    intro invert count
    -- Neither option changes what the filters and the input are.
    have sameSieve : sieveOf surroundings { options with invert := invert, count := count } =
        .ok sieve := compiled
    have sameInput : sieveInput surroundings { options with invert := invert, count := count } =
        .ok (some input) := read
    rw [← selected]
    exact command_sieve sameSieve sameInput
  have output : ∀ invert, (run invert false).1.output = toOutput (printed invert) :=
    fun invert => congrArg (fun result => result.1.output) (reported invert false)
  have counted : ∀ invert, lineFeeds invert = (printed invert).length := by
    intro invert
    rw [← count_toOutput (areDocuments invert), ← output]
  have shared : (printed false ++ printed true).Perm (documents.filter isJson) := by
    rw [← selected, ← selected]
    exact select_append_select_perm sieve input
  refine ⟨fun invert => reported invert false, ?_, fun invert => List.filter_sublist, ?_, ?_,
    shared, ?_, ?_, ?_, ?_⟩
  · intro invert
    rw [output]
    exact splitAt_toOutput (areDocuments invert)
  · intro document member
    obtain ⟨line, isLine, trimmed⟩ := List.mem_map.mp (List.mem_of_mem_filter member)
    exact ⟨line, isLine, trimmed.symm⟩
  · intro document member wellFormed
    simp [printed, member, wellFormed]
  · intro document malformed invert
    simp [printed, malformed]
  · intro document member error wellFormed failed
    simp [printed, member, wellFormed, Sieve.accepts, failed]
  · intro invert
    rw [reported, report_counted (areDocuments invert)]
    exact congrArg (fun octets : Bytes =>
      (Outcome.printing (Utf8.encode (toString (octets.count 0x0a) ++ "\n")), surroundings.files))
      (output invert).symm
  · rw [counted, counted, ← List.length_append]
    exact shared.length_eq

/-- Of five lines one is blank and one is no JSON, and the last one is no array. -/
theorem three_of_five_lines_are_shared_out :
    let surroundings : Surroundings :=
      ⟨(Utf8.encode " []\r\n \nx\n[0]\n3" : Bytes), ⟨[], [], []⟩⟩
    let options : SieveOptions :=
      { filters := ["[\"everyin\", 1, [\"field\", \"\"], [\"false\"]]"] }
    let output := fun invert => (command surroundings
      (.sieve { options with invert := invert, count := false })).1.output
    output false = Utf8.encode "[]\n" ∧ output true = Utf8.encode "[0]\n3\n" ∧
      (output false).count 0x0a + (output true).count 0x0a = 3 := by
  intro surroundings options output
  have compiled : sieveOf surroundings options =
      .ok (Sieve.ofFilters [.quantifier .every 1 (.field 0 "") (.constant false)] {}) := by cbv
  have read : sieveInput surroundings options =
      .ok (some (Utf8.encode " []\r\n \nx\n[0]\n3")) := rfl
  obtain ⟨printed, -, -, -, -, -, -, -, -, sum⟩ := documents_are_shared_out compiled read
  refine ⟨?_, ?_, sum.trans ?_⟩
  · refine (congrArg (fun result => result.1.output) (printed false)).trans ?_
    decide +kernel
  · refine (congrArg (fun result => result.1.output) (printed true)).trans ?_
    decide +kernel
  · decide +kernel

/-- How a run ends that finds its input on the standard input. -/
def outcomeOn (surroundings : Surroundings) (options : SieveOptions) (input : Bytes) : Outcome :=
  (command { surroundings with input := input } (.sieve { options with input := none })).1

theorem outcomeOn_eq (compiled : sieveOf surroundings options = .ok sieve) (invert : Bool)
    (input : Bytes) :
    outcomeOn surroundings { options with invert := invert, count := false } input =
      .printing (toOutput (select sieve invert input)) := by
  have sameSieve : sieveOf { surroundings with input := input }
      { options with input := none, invert := invert, count := false } = .ok sieve := compiled
  have found : sieveInput { surroundings with input := input }
      { options with input := none, invert := invert, count := false } = .ok (some input) := rfl
  rw [outcomeOn, command_sieve sameSieve found]
  rfl

theorem toOutput_append (first second : List Bytes) :
    toOutput (first ++ second) = toOutput first ++ toOutput second :=
  List.flatMap_append

/-- Two inputs with a line feed between them give what they give by themselves.  What a run prints
passes again, and the inverted run prints nothing of it. -/
theorem sieving_is_streaming_and_idempotent
    (compiled : sieveOf surroundings options = .ok sieve) :
    let outcome := fun invert => outcomeOn surroundings
      { options with invert := invert, count := false }
    let run := fun invert input => (outcome invert input).output
    (∀ invert input, outcome invert input = .printing (toOutput (select sieve invert input))) ∧
    (∀ invert path input, readInput surroundings (some path) = .ok input →
      command surroundings
          (.sieve { options with input := some path, invert := invert, count := false }) =
        (.printing (run invert input), surroundings.files)) ∧
    (∀ invert first second,
      run invert (first ++ 0x0a :: second) = run invert first ++ run invert second) ∧
    (∀ invert input, run invert (run invert input) = run invert input) ∧
    (∀ invert input, run (!invert) (run invert input) = []) ∧
    (∀ first second, ofInput (first ++ 0x0a :: second) = ofInput first ++ ofInput second) ∧
    ∀ input, ∀ document ∈ ofInput input,
      document ≠ [] ∧ 0x0a ∉ document ∧ Lines.trim Lines.isBlankOctet document = document := by
  intro outcome run
  have run_eq : ∀ invert input, run invert input = toOutput (select sieve invert input) :=
    fun invert input => congrArg Outcome.output (outcomeOn_eq compiled invert input)
  refine ⟨outcomeOn_eq compiled, ?_, ?_, ?_, ?_, ofInput_append, ?_⟩
  · intro invert path input read
    have sameSieve : sieveOf surroundings
        { options with input := some path, invert := invert, count := false } = .ok sieve :=
      compiled
    have found : sieveInput surroundings
        { options with input := some path, invert := invert, count := false } =
          .ok (some input) :=
      congrArg (Except.map some) read
    rw [command_sieve sameSieve found, run_eq]
    rfl
  · intro invert first second
    rw [run_eq, run_eq, run_eq, select_append, toOutput_append]
  · intro invert input
    rw [run_eq, run_eq, select_again]
  · intro invert input
    rw [run_eq, run_eq, select_turned_around]
    rfl
  · intro input document member
    have isDocument := isDocument_of_mem_ofInput member
    exact ⟨isDocument.nonempty, isDocument.unbroken, isDocument.trimmed⟩

/-- The line feed between two inputs may stand in the middle of an array, which is none then. -/
theorem sieving_is_streaming_for_mixed_lines :
    let surroundings : Surroundings := ⟨([] : Bytes), ⟨[], [], []⟩⟩
    let options : SieveOptions := { filters := ["[\"not\", [\"false\"]]"] }
    let run := fun invert input => (outcomeOn surroundings
      { options with invert := invert, count := false } input).output
    let first := Utf8.encode "\t1\r\n\n[2"
    let second := Utf8.encode "]\x0c\n3"
    run false (first ++ 0x0a :: second) = run false first ++ run false second ∧
      run false (run false (first ++ 0x0a :: second)) = run false (first ++ 0x0a :: second) ∧
      run true (run false (first ++ 0x0a :: second)) = [] := by
  intro surroundings options run first second
  have compiled : sieveOf surroundings options =
      .ok (Sieve.ofFilters [.negation (.constant false)] {}) := by cbv
  obtain ⟨-, -, append, again, inverted, -, -⟩ := sieving_is_streaming_and_idempotent compiled
  exact ⟨append false first second, again false _, inverted false _⟩

end JsonSieve.Run
