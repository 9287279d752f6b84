import JsonSieve.Proofs.Sieve.Outcome

/-!
# Sessions of a sieve

A sieve is asked to record documents, to evaluate them without recording, for recorded verdicts and
to forget these, in any order.  Through all requests it keeps its filters, its settings and one
verdict for each filter.

Recording and evaluating without recording agree on every document, whatever was recorded before:
recording starts from the verdicts of earlier documents and evaluating from fresh ones, but both
overwrite the verdicts that are reached.  What recording does not reach stays as it was.  The
recorded verdict of a filter is about the last document only if the filter was reached on it.
-/

namespace JsonSieve

namespace Sieve

open Evaluation Verdict

/-- What a sieve is asked in a session. -/
inductive Request
  | record (document : Bytes)
  | evaluate (document : Bytes)
  | accepts (document : Bytes)
  | verdict (index : Nat)
  | clear

def perform (sieve : Sieve) : Request → Sieve
  | .record document => (sieve.record document).2
  | .clear => sieve.clear
  | .evaluate _ | .accepts _ | .verdict _ => sieve

def after (sieve : Sieve) (session : List Request) : Sieve :=
  session.foldl perform sieve

/-- A sieve of these filters under these settings with one verdict for each filter. -/
structure IsSieveOf (filters : List Expression) (settings : Settings) (sieve : Sieve) :
    Prop where
  filters_eq : sieve.filters = filters
  settings_eq : sieve.settings = settings
  length_verdicts : sieve.verdicts.length = filters.length

variable {filters : List Expression} {settings : Settings} {sieve : Sieve}

theorem isSieveOf_ofFilters (filters : List Expression) (settings : Settings) :
    IsSieveOf filters settings (ofFilters filters settings) where
  filters_eq := rfl
  settings_eq := rfl
  length_verdicts := List.length_replicate

theorem IsSieveOf.record (isSieve : IsSieveOf filters settings sieve) (document : Bytes) :
    IsSieveOf filters settings (sieve.record document).2 := by
  have within := sieve.length_reached_le document
  have lengths := isSieve.length_verdicts
  rw [isSieve.filters_eq] at within
  rw [record_eq]
  refine ⟨isSieve.filters_eq, isSieve.settings_eq, ?_⟩
  simp only [List.length_append, List.length_drop]
  omega

theorem IsSieveOf.perform (isSieve : IsSieveOf filters settings sieve) (request : Request) :
    IsSieveOf filters settings (sieve.perform request) := by
  cases request with
  | record document => exact isSieve.record document
  | clear =>
      refine ⟨isSieve.filters_eq, isSieve.settings_eq, ?_⟩
      rw [Sieve.perform, clear, List.length_map, isSieve.length_verdicts]
  | evaluate document => exact isSieve
  | accepts document => exact isSieve
  | verdict index => exact isSieve

theorem IsSieveOf.after (isSieve : IsSieveOf filters settings sieve) (session : List Request) :
    IsSieveOf filters settings (sieve.after session) := by
  induction session generalizing sieve with
  | nil => exact isSieve
  | cons request session ih => exact ih (isSieve.perform request)

/-- What an evaluation reaches and comes to depends on the filters and the settings alone. -/
theorem IsSieveOf.reached_eq (isSieve : IsSieveOf filters settings sieve) (document : Bytes) :
    sieve.reached document = (ofFilters filters settings).reached document := by
  obtain ⟨rfl, rfl, -⟩ := isSieve
  rfl

theorem IsSieveOf.outcome_eq (isSieve : IsSieveOf filters settings sieve) (document : Bytes) :
    sieve.outcome document = (ofFilters filters settings).outcome document := by
  obtain ⟨rfl, rfl, -⟩ := isSieve
  rfl

theorem IsSieveOf.verdict_eq_false (isSieve : IsSieveOf filters settings sieve) {index : Nat}
    (beyond : filters.length ≤ index) : sieve.verdict index = false := by
  rw [verdict, List.getElem?_eq_none (by rw [isSieve.length_verdicts]; exact beyond)]
  rfl

theorem isSieveOf_after (filters : List Expression) (settings : Settings)
    (session : List Request) :
    IsSieveOf filters settings ((ofFilters filters settings).after session) :=
  (isSieveOf_ofFilters filters settings).after session

def writeAt? (verdicts : List Bool) (index : Nat) (verdict : Bool) : Option (List Bool) :=
  if index < verdicts.length then some (verdicts.set index verdict) else none

/-- Evaluates filters in order and writes their verdicts from an index on. -/
def judgeFrom? (limits : Limits) : (index : Nat) → List Expression → List Bool → Bindings →
    Option (Except EvaluationError Bool × List Bool)
  | _, [], verdicts, _ => some (.ok true, verdicts)
  | index, filter :: filters, verdicts, bindings =>
      match judge limits filter bindings with
      | (.error error, _) => some (.error error, verdicts)
      | (.ok verdict, bindings) =>
          (writeAt? verdicts index verdict).bind fun verdicts =>
            (judgeFrom? limits (index + 1) filters verdicts bindings).map
              fun (result, verdicts) => (result.map (verdict && ·), verdicts)

/-- Evaluates the filters of a sieve on a document and writes their verdicts by index. -/
def runByIndex? (sieve : Sieve) (document : Bytes) (verdicts : List Bool) :
    Option (Except EvaluationError Bool × List Bool) :=
  match Json.ofBytes? document with
  | none => some (.error .malformedDocument, verdicts)
  | some value =>
      (judgeFrom? sieve.settings.limits 0 sieve.filters verdicts (initial value)).map
        fun (result, verdicts) => (result.map (!sieve.filters.isEmpty && ·), verdicts)

/-- If there is a verdict for every filter, every index is in range. -/
theorem judgeFrom?_eq {limits : Limits} {verdicts : List Bool} {index : Nat}
    {bindings : Bindings} (enough : index + filters.length ≤ verdicts.length) :
    judgeFrom? limits index filters verdicts bindings =
      some ((judgeInOrder limits filters (verdicts.drop index) bindings).1,
        verdicts.take index ++
          (judgeInOrder limits filters (verdicts.drop index) bindings).2) := by
  induction filters generalizing index verdicts bindings with
  | nil => simp only [judgeFrom?, judgeInOrder, List.take_append_drop]
  | cons filter filters ih =>
      rw [List.length_cons] at enough
      rw [judgeFrom?, judgeInOrder]
      obtain ⟨verdict, after⟩ := judge limits filter bindings
      cases verdict with
      | error error => simp only [List.take_append_drop]
      | ok verdict =>
          have inRange : index < verdicts.length := by omega
          have stillEnough :
              index + 1 + filters.length ≤ (verdicts.set index verdict).length := by
            rw [List.length_set]
            omega
          -- Writing at the index settles what lies up to it and leaves what lies beyond.
          have ahead : (verdicts.set index verdict).drop (index + 1) =
              (verdicts.drop index).tail := by
            rw [List.drop_set_of_lt (Nat.lt_succ_self index), List.tail_drop]
          have behind : (verdicts.set index verdict).take (index + 1) =
              verdicts.take index ++ [verdict] := by
            rw [List.take_add_one, List.take_set_of_le (Nat.le_refl index),
              List.getElem?_set_self inRange]
            rfl
          simp only [writeAt?, if_pos inRange, Option.bind_some, ih stillEnough, ahead, behind,
            Option.map_some, List.append_assoc, List.singleton_append]

theorem runByIndex?_eq {sieve : Sieve} (document : Bytes)
    (length : sieve.verdicts.length = sieve.filters.length) :
    sieve.runByIndex? document sieve.verdicts = some (sieve.run document sieve.verdicts) := by
  unfold runByIndex? run
  cases Json.ofBytes? document with
  | none => rfl
  | some value =>
      simp only [judgeFrom?_eq (show 0 + sieve.filters.length ≤ sieve.verdicts.length by omega),
        List.drop_zero, List.take_zero, List.nil_append, Option.map_some]

variable {document : Bytes}

theorem record_passes_iff (sieve : Sieve) (document : Bytes) :
    (sieve.record document).1 = true ↔
      ∃ report, sieve.evaluate document = .ok report ∧ report.passes = true := by
  rw [record_eq, evaluate_eq]
  cases sieve.outcome document with
  | error error => simp [Verdict.is, Except.map]
  | ok passes => simp [Verdict.is, Except.map]

theorem verdicts_of_report {report : Report} (judged : sieve.evaluate document = .ok report) :
    report.verdicts = sieve.reached document ∧
      report.verdicts.length = sieve.filters.length := by
  rw [evaluate_eq] at judged
  cases outcome : sieve.outcome document with
  | error error =>
      rw [outcome] at judged
      cases judged
  | ok passes =>
      rw [outcome] at judged
      obtain rfl := Except.ok.inj judged
      have all := length_reached_of_ok outcome
      have nothingElse : (noVerdicts sieve.filters).drop (sieve.reached document).length = [] := by
        rw [all]
        exact List.drop_eq_nil_of_le (Nat.le_of_eq List.length_replicate)
      simp only [nothingElse, List.append_nil]
      exact ⟨trivial, all⟩

theorem IsSieveOf.verdict_record_of_report (isSieve : IsSieveOf filters settings sieve)
    {report : Report} (judged : sieve.evaluate document = .ok report) (index : Nat) :
    (sieve.record document).2.verdict index = report.verdicts[index]?.getD false := by
  obtain ⟨verdicts, length⟩ := verdicts_of_report judged
  rw [verdict_record, ← verdicts]
  by_cases within : index < report.verdicts.length
  · rw [List.getElem?_eq_getElem within]
    rfl
  · rw [isSieve.verdict_eq_false (by rw [← isSieve.filters_eq]; omega)]

/-- An evaluation that fails on a value fails at some filter, and the verdicts of the filters
before it are recorded. -/
theorem exists_failing_filter {error : EvaluationError}
    (failed : sieve.evaluate document = .error error) :
    Json.ofBytes? document = none ∨
      ∃ value failing filter, Json.ofBytes? document = some value ∧
        sieve.filters[failing]? = some filter ∧
          verdictOn sieve.settings.limits value filter = .error error ∧
            ∀ index < failing, ∃ earlier, sieve.filters[index]? = some earlier ∧
              verdictOn sieve.settings.limits value earlier =
                .ok ((sieve.record document).2.verdict index) := by
  rw [evaluate_eq] at failed
  rcases sieve.evaluation_cases document with
    ⟨malformed, -, -⟩ | ⟨value, -, -, judged⟩ | ⟨value, first, later, parsed, split, judged⟩
  · exact Or.inl malformed
  · rw [judged] at failed
    cases failed
  · rw [judged] at failed
    obtain rfl := Except.error.inj failed
    have atIndex : ∀ index : Nat, (sieve.filters[index]?).map
        (verdictOn sieve.settings.limits value) =
          ((sieve.reached document).map Except.ok ++ .error first :: later)[index]? := by
      intro index
      rw [← split, ownVerdicts, List.getElem?_map]
    have atFailing := atIndex (sieve.reached document).length
    rw [List.getElem?_append_right (by simp), List.length_map, Nat.sub_self] at atFailing
    obtain ⟨filter, found, fails⟩ := Option.map_eq_some_iff.mp atFailing
    refine Or.inr ⟨value, _, filter, parsed, found, fails, ?_⟩
    intro index before
    have earlierVerdict := atIndex index
    rw [List.getElem?_append_left (by simpa using before), List.getElem?_map,
      List.getElem?_eq_getElem before] at earlierVerdict
    obtain ⟨earlier, found, verdict⟩ := Option.map_eq_some_iff.mp earlierVerdict
    refine ⟨earlier, found, ?_⟩
    rw [verdict, verdict_record, List.getElem?_eq_getElem before]
    rfl

/-- In every session recording a document agrees with evaluating it, whatever was recorded before.
The verdicts recorded are those of the report, or those before the filter that failed. -/
theorem record_agrees_with_evaluate (filters : List Expression) (settings : Settings)
    (session : List Request) (document : Bytes) :
    let fresh := ofFilters filters settings
    let sieve := fresh.after session
    let recorded := (sieve.record document).2
    ((sieve.record document).1 = true ↔
      ∃ report, sieve.evaluate document = .ok report ∧ report.passes = true) ∧
    ((sieve.record document).1 = (fresh.record document).1 ∧
      sieve.evaluate document = fresh.evaluate document) ∧
    (∀ report, sieve.evaluate document = .ok report →
      report.verdicts.length = filters.length ∧
        ∀ index, recorded.verdict index = report.verdicts[index]?.getD false) ∧
    (∀ error, sieve.evaluate document = .error error →
      Json.ofBytes? document = none ∨
        ∃ value failing filter, Json.ofBytes? document = some value ∧
          filters[failing]? = some filter ∧
            verdictOn settings.limits value filter = .error error ∧
              ∀ index < failing, ∃ earlier, filters[index]? = some earlier ∧
                verdictOn settings.limits value earlier = .ok (recorded.verdict index)) ∧
    (∀ index, filters.length ≤ index → sieve.verdict index = false) ∧
    sieve.verdicts.length = filters.length ∧
    sieve.runByIndex? document sieve.verdicts = some (sieve.run document sieve.verdicts) := by
  intro fresh sieve recorded
  have isSieve : IsSieveOf filters settings sieve := isSieveOf_after filters settings session
  refine ⟨record_passes_iff sieve document, ⟨?_, ?_⟩, ?_, ?_, ?_, isSieve.length_verdicts, ?_⟩
  · rw [record_eq, record_eq, isSieve.outcome_eq]
  · rw [evaluate_eq, evaluate_eq, isSieve.outcome_eq, isSieve.reached_eq, isSieve.filters_eq]
    rfl
  · intro report judged
    refine ⟨?_, isSieve.verdict_record_of_report judged⟩
    rw [(verdicts_of_report judged).2, isSieve.filters_eq]
  · intro error failed
    have failing := exists_failing_filter failed
    rwa [isSieve.filters_eq, isSieve.settings_eq] at failing
  · intro index beyond
    exact isSieve.verdict_eq_false beyond
  · exact runByIndex?_eq document (by rw [isSieve.length_verdicts, isSieve.filters_eq])

theorem verdict_clear (sieve : Sieve) (index : Nat) : sieve.clear.verdict index = false := by
  rw [verdict, clear, List.getElem?_map]
  cases sieve.verdicts[index]? <;> rfl

theorem recorded_true_iff (sieve : Sieve) (document : Bytes) (index : Nat) :
    ((sieve.record document).2.verdict index = true → sieve.Reaches document index true) ↔
      sieve.verdict index = false ∨ ∃ verdict, sieve.Reaches document index verdict := by
  simp only [← getElem?_reached, verdict_record]
  cases (sieve.reached document)[index]? with
  | none => simp
  | some verdict => simp

/-- A verdict recorded as true comes from the last document exactly if its evaluation reached the
filter or the verdict was false before, as it is after verdicts are forgotten. -/
theorem recorded_verdict_is_current_iff (filters : List Expression) (settings : Settings)
    (session : List Request) (document : Bytes) (index : Nat) :
    let sieve := (ofFilters filters settings).after session
    (((sieve.record document).2.verdict index = true → sieve.Reaches document index true) ↔
      sieve.verdict index = false ∨ ∃ verdict, sieve.Reaches document index verdict) ∧
    ((sieve.clear.record document).2.verdict index = true →
      sieve.clear.Reaches document index true) := by
  intro sieve
  refine ⟨recorded_true_iff sieve document index, ?_⟩
  exact (recorded_true_iff sieve.clear document index).mpr (Or.inl (verdict_clear sieve index))

/-- A document that is no JSON leaves the verdict on the document before it. -/
theorem verdict_outlives_its_document :
    let sieve := (ofFilters [.constant true] {}).after [.record (Utf8.encode "\x7b\x7d")]
    (sieve.record (Utf8.encode "nope")).2.verdict 0 = true ∧
      ¬sieve.Reaches (Utf8.encode "nope") 0 true := by
  intro sieve
  have malformed : Json.ofBytes? (Utf8.encode "nope") = none := by cbv
  have parsed : Json.ofBytes? (Utf8.encode "\x7b\x7d") = some (.object []) := by cbv
  have before : sieve.verdict 0 = true := by
    change ((ofFilters [.constant true] {}).record (Utf8.encode "\x7b\x7d")).2.verdict 0 = true
    rw [verdict_record, reached, parsed]
    rfl
  constructor
  · rw [verdict_record, reached, malformed]
    exact before
  · rintro ⟨value, earlier, later, impossible, -⟩
    rw [malformed] at impossible
    cases impossible

end Sieve

end JsonSieve
