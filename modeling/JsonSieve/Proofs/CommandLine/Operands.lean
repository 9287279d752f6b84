import JsonSieve.CommandLine.Command
import JsonSieve.Proofs.Fallible

/-!
# Operands on the command line

An argument that does not begin with a hyphen and is not the value of an option is an operand.  For
a sieve the operands are its filters, in their order.
-/

namespace JsonSieve

namespace ArgumentGrammar

variable {Draft : Type} {grammar : ArgumentGrammar Draft} {draft after : Draft}
  {arguments operands : List String}

/-- Whether an argument can only be an operand or the value of an option. -/
def NoHyphen (argument : String) : Prop :=
  argument.toList.head? ≠ some '-'

theorem takeArgument_of_noHyphen {argument : String} (noHyphen : NoHyphen argument) :
    grammar.takeArgument draft argument =
      (grammar.operand argument draft).map fun draft => (draft, none) := by
  rw [takeArgument]
  split
  · next starts => exact absurd (by rw [starts]; rfl) noHyphen
  · next starts => exact absurd (by rw [starts]; rfl) noHyphen
  · rfl

theorem take_cons (draft : Draft) (argument : String) (arguments : List String) :
    grammar.take draft (argument :: arguments) =
      if argument = "--" then grammar.takeOperands draft arguments
      else match grammar.takeArgument draft argument, arguments with
        | .error stop, _ => .error stop
        | .ok (next, none), arguments => grammar.take next arguments
        | .ok (_, some _), [] => .error .wrongUsage
        | .ok (next, some apply), value :: arguments =>
            if isValue value then apply value next >>= (grammar.take · arguments)
            else .error .wrongUsage := by
  conv_lhs => unfold take
  rcases grammar.takeArgument draft argument with stop | ⟨next, _ | apply⟩
  · rfl
  · rfl
  · cases arguments with
    | nil => rfl
    | cons value arguments =>
        dsimp only
        cases apply value next <;> rfl

theorem take_separator (draft : Draft) (arguments : List String) :
    grammar.take draft ("--" :: arguments) = grammar.takeOperands draft arguments := by
  rw [take_cons, if_pos rfl]

section Steps

variable {argument value : String} {next : Draft} {stop : Stop}
  {apply : String → Draft → Except Stop Draft} (noSeparator : argument ≠ "--")
include noSeparator

theorem take_error (taken : grammar.takeArgument draft argument = .error stop) :
    grammar.take draft (argument :: arguments) = .error stop := by
  rw [take_cons, if_neg noSeparator, taken]

theorem take_argument (taken : grammar.takeArgument draft argument = .ok (next, none)) :
    grammar.take draft (argument :: arguments) = grammar.take next arguments := by
  rw [take_cons, if_neg noSeparator, taken]

theorem take_waiting (taken : grammar.takeArgument draft argument = .ok (next, some apply)) :
    grammar.take draft [argument] = .error .wrongUsage := by
  rw [take_cons, if_neg noSeparator, taken]

theorem take_valued (taken : grammar.takeArgument draft argument = .ok (next, some apply)) :
    grammar.take draft (argument :: value :: arguments) =
      if isValue value then apply value next >>= (grammar.take · arguments)
      else .error .wrongUsage := by
  rw [take_cons, if_neg noSeparator, taken]

end Steps

theorem take_operands (noHyphens : ∀ operand ∈ operands, NoHyphen operand) :
    grammar.take draft operands = grammar.takeOperands draft operands := by
  induction operands generalizing draft with
  | nil => rfl
  | cons operand operands ih =>
      rw [List.forall_mem_cons] at noHyphens
      have noSeparator : operand ≠ "--" := by
        rintro rfl
        exact noHyphens.1 rfl
      have taken := @takeArgument_of_noHyphen _ grammar draft operand noHyphens.1
      rw [takeOperands, List.foldlM_cons]
      cases given : grammar.operand operand draft with
      | error stop =>
          rw [given] at taken
          exact take_error noSeparator taken
      | ok next =>
          rw [given] at taken
          rw [take_argument noSeparator taken]
          exact ih noHyphens.2

theorem take_append_operands (taken : grammar.take draft arguments = .ok after)
    (noHyphens : ∀ operand ∈ operands, NoHyphen operand) :
    grammar.take draft (arguments ++ operands) = grammar.takeOperands after operands := by
  induction draft, arguments using take.induct grammar with
  | case1 draft =>
      cases taken
      exact take_operands noHyphens
  | case2 draft arguments =>
      rw [take_separator] at taken
      rw [List.cons_append, take_separator, takeOperands, List.foldlM_append, ← takeOperands, taken]
      rfl
  | case3 draft argument arguments noSeparator stop failed =>
      rw [take_error noSeparator failed] at taken
      cases taken
  | case4 draft argument noSeparator next arguments done ih =>
      rw [take_argument noSeparator done] at taken
      rw [List.cons_append, take_argument noSeparator done, ih taken]
  | case5 draft argument noSeparator next apply waiting =>
      rw [take_waiting noSeparator waiting] at taken
      cases taken
  | case6 draft argument noSeparator next apply value arguments waiting isValue after applied ih =>
      rw [take_valued noSeparator waiting, if_pos isValue, applied] at taken
      rw [List.cons_append, List.cons_append, take_valued noSeparator waiting, if_pos isValue,
        applied]
      exact ih taken
  | case7 draft argument noSeparator next apply value arguments waiting isValue stop failed =>
      rw [take_valued noSeparator waiting, if_pos isValue, failed] at taken
      cases taken
  | case8 draft argument noSeparator next apply value arguments waiting noValue =>
      rw [take_valued noSeparator waiting, if_neg noValue] at taken
      cases taken

end ArgumentGrammar

namespace Command

open ArgumentGrammar

variable {arguments sources : List String} {options : SieveOptions}

theorem takeOperands_sieve (draft : Draft SieveOptions) (sources : List String) :
    sieveGrammar.takeOperands draft sources =
      .ok { draft with
        options := { draft.options with filters := draft.options.filters ++ sources } } := by
  induction sources generalizing draft with
  | nil => simp [takeOperands, pure, Except.pure]
  | cons source sources ih =>
      rw [takeOperands, List.foldlM_cons]
      refine (ih _).trans ?_
      rw [List.append_assoc, List.singleton_append]

theorem ofSieveArguments_eq_ok_iff :
    ofSieveArguments arguments = .ok (.sieve options) ↔
      ∃ draft, sieveGrammar.take (.ofDefaults {}) arguments = .ok draft ∧
        draft ≠ .ofDefaults {} ∧ draft.finish = .ok options := by
  rw [ofSieveArguments, Fallible.bind_eq_ok_iff]
  refine exists_congr fun draft => and_congr_right fun _ => ?_
  split
  · next same => exact iff_of_false nofun fun changed => changed.1 same
  · next changed =>
      rw [Fallible.bind_eq_ok_iff]
      simp [changed, pure, Except.pure]

theorem ofTokensArguments_ne_sieve : ofTokensArguments arguments ≠ .ok (.sieve options) := by
  intro made
  obtain ⟨_, -, made⟩ := Fallible.bind_eq_ok_iff.mp made
  obtain ⟨_, -, made⟩ := Fallible.bind_eq_ok_iff.mp made
  cases made

theorem ofShellArguments_ne_sieve : ofShellArguments arguments ≠ .ok (.sieve options) := by
  intro made
  obtain ⟨draft, -, made⟩ := Fallible.bind_eq_ok_iff.mp made
  obtain ⟨finished, -, made⟩ := Fallible.bind_eq_ok_iff.mp made
  cases finished <;> cases made

theorem ofManualArguments_ne_sieve : ofManualArguments arguments ≠ .ok (.sieve options) := by
  intro made
  obtain ⟨draft, -, made⟩ := Fallible.bind_eq_ok_iff.mp made
  obtain ⟨finished, -, made⟩ := Fallible.bind_eq_ok_iff.mp made
  cases made

theorem ofGenerateArguments_ne_sieve : ofGenerateArguments arguments ≠ .ok (.sieve options) := by
  intro made
  obtain ⟨draft, -, made⟩ := Fallible.bind_eq_ok_iff.mp made
  split at made
  · cases made
  · have last : ∀ {made : Except Stop Command},
        (made >>= fun command => draft.finish >>= fun _ => pure command) = .ok (.sieve options) →
          made = .ok (.sieve options) := by
      intro made whole
      obtain ⟨command, isCommand, whole⟩ := Fallible.bind_eq_ok_iff.mp whole
      obtain ⟨finished, -, whole⟩ := Fallible.bind_eq_ok_iff.mp whole
      cases whole
      exact isCommand
    dsimp only at made
    split at made
    · exact ofShellArguments_ne_sieve (last made)
    · exact ofManualArguments_ne_sieve (last made)
    · cases last made

theorem ofArguments_eq_ok_iff :
    ofArguments arguments = .ok (.sieve options) ↔
      arguments.head? ≠ some "tokens" ∧ arguments.head? ≠ some "generate" ∧
        ofSieveArguments arguments = .ok (.sieve options) := by
  unfold ofArguments
  split
  · exact iff_of_false ofTokensArguments_ne_sieve fun claimed => claimed.1 rfl
  · exact iff_of_false ofGenerateArguments_ne_sieve fun claimed => claimed.2.1 rfl
  · next noTokens noGenerate =>
      refine ⟨fun made => ⟨fun isHead => ?_, fun isHead => ?_, made⟩, fun claimed => claimed.2.2⟩
      · obtain ⟨others, rfl⟩ := List.head?_eq_some_iff.mp isHead
        exact noTokens others rfl
      · obtain ⟨others, rfl⟩ := List.head?_eq_some_iff.mp isHead
        exact noGenerate others rfl

/-- Filters without a hyphen at the front can be given behind the other arguments of a sieve. -/
theorem ofArguments_append (made : ofArguments arguments = .ok (.sieve options))
    (noHyphens : ∀ source ∈ sources, NoHyphen source) :
    ofArguments (arguments ++ sources) =
      .ok (.sieve { options with filters := options.filters ++ sources }) := by
  obtain ⟨noTokens, noGenerate, made⟩ := ofArguments_eq_ok_iff.mp made
  obtain ⟨draft, taken, changed, finished⟩ := ofSieveArguments_eq_ok_iff.mp made
  have nonempty : arguments ≠ [] := by
    rintro rfl
    cases taken
    exact changed rfl
  have sameHead : (arguments ++ sources).head? = arguments.head? :=
    List.head?_append_of_ne_nil _ nonempty
  refine ofArguments_eq_ok_iff.mpr ⟨sameHead ▸ noTokens, sameHead ▸ noGenerate, ?_⟩
  refine ofSieveArguments_eq_ok_iff.mpr
    ⟨_, (take_append_operands taken noHyphens).trans (takeOperands_sieve _ _), ?_, ?_⟩
  · intro same
    have none : draft.options.filters ++ sources = [] :=
      congrArg (fun draft => draft.options.filters) same
    obtain ⟨-, rfl⟩ := List.append_eq_nil_iff.mp none
    rw [List.append_nil] at same
    exact changed same
  · rw [Draft.finish] at finished ⊢
    split at finished
    · cases finished
    · next agree =>
        cases finished
        exact if_neg agree

/-- Filters alone, without a hyphen at the front of any of them, are the filters of a sieve, unless
the first one is the name of a subcommand. -/
theorem ofArguments_filters (nonempty : sources ≠ [])
    (noHyphens : ∀ source ∈ sources, NoHyphen source)
    (noTokens : "tokens" ∉ sources) (noGenerate : "generate" ∉ sources) :
    ofArguments sources = .ok (.sieve { filters := sources }) := by
  refine ofArguments_eq_ok_iff.mpr ⟨fun isHead => noTokens (List.mem_of_mem_head? isHead),
    fun isHead => noGenerate (List.mem_of_mem_head? isHead), ?_⟩
  refine ofSieveArguments_eq_ok_iff.mpr
    ⟨_, (take_operands noHyphens).trans (takeOperands_sieve _ _), fun same => nonempty ?_, rfl⟩
  exact congrArg (fun draft => draft.options.filters) same

end Command

end JsonSieve
