import JsonSieve.Proofs.Evaluation.Levels
import JsonSieve.Proofs.Sieve.Outcome

/-!
# Filters in conjunction

A document passes a sieve if there is a filter and every filter is true of it.  So neither the
order of the filters nor their repetition matters, and a filter added to others can only keep
documents back.  The sieve evaluates all filters and stops at an error, while a conjunction stops
at a filter that is false; yet the same documents pass both, if the conjunction may be one
level deeper.
-/

namespace JsonSieve

namespace Verdict

theorem map_and_eq_true_iff {verdict : Verdict} {value : Bool} :
    verdict.map (value && ·) = .ok true ↔ value = true ∧ verdict = .ok true := by
  cases verdict <;> simp [Except.map]

theorem conjunction_eq_true_iff {verdicts : List Verdict} :
    conjunction verdicts = .ok true ↔ ∀ verdict ∈ verdicts, verdict = .ok true := by
  induction verdicts with
  | nil => simp [conjunction]
  | cons verdict verdicts ih =>
      rw [List.forall_mem_cons, ← ih]
      cases verdict with
      | error error => simp [conjunction]
      | ok value =>
          rw [conjunction, map_and_eq_true_iff]
          simp

theorem firstOther_true_eq_true_iff {verdicts : List Verdict} :
    firstOther true verdicts = .ok true ↔ ∀ verdict ∈ verdicts, verdict = .ok true := by
  induction verdicts with
  | nil => simp
  | cons verdict verdicts ih =>
      rw [List.forall_mem_cons, ← ih]
      cases verdict with
      | error error => simp
      | ok value => cases value <;> simp [firstOther_cons_ok]

theorem is_true_iff {verdict : Verdict} : verdict.is true = true ↔ verdict = .ok true := by
  cases verdict <;> simp [is]

theorem toOption_eq_true_iff {verdict : Verdict} :
    verdict.toOption = some true ↔ verdict = .ok true := by
  cases verdict <;> simp [Except.toOption]

end Verdict

def Limits.oneMore (limits : Limits) : Limits :=
  { limits with depthLimit := limits.depthLimit + 1 }

namespace Evaluation

open Verdict

variable {limits : Limits}

/-- With one more level allowed, a condition on the second level is true exactly if it is true as a
filter by itself. -/
theorem evaluate_second_level_iff (positive : 1 ≤ limits.depthLimit) (filter : Expression)
    (value : Json.Value) :
    (evaluate limits.oneMore 2 filter (initial value)).1 = .ok true ↔
      verdictOn limits value filter = .ok true := by
  have sameLevels : limits.oneMore.depthLimit + 1 = limits.depthLimit + 2 := rfl
  rw [← toOption_eq_true_iff, ← toOption_eq_true_iff,
    toOption_evaluate_eq (show limits.oneMore.expired = limits.expired from rfl) sameLevels,
    verdictOn]
  cases filter with
  | constant verdict =>
      rw [evaluate_constant (Nat.not_lt.mpr positive)]
      rfl
  | _ => rfl

/-- A conjunction that may be one level deeper than its parts is true if it has parts and all of
them are true. -/
theorem verdictOn_conjunction_iff (positive : 1 ≤ limits.depthLimit)
    (filters : List Expression) (value : Json.Value) :
    verdictOn limits.oneMore value (.connective .conjunction filters) = .ok true ↔
      filters ≠ [] ∧ ∀ filter ∈ filters, verdictOn limits value filter = .ok true := by
  have entered : verdictOn limits.oneMore value (.connective .conjunction filters) =
      (evaluate limits.oneMore 1 (.connective .conjunction filters) (initial value)).1 := rfl
  have within : ¬limits.oneMore.depthLimit < 1 := Nat.not_lt.mpr (Nat.succ_pos _)
  rw [entered, evaluate_connective within]
  cases filters with
  | nil => simp
  | cons filter filters =>
      dsimp only
      rw [if_neg (by simp), Connective.neutral, firstOther_true_eq_true_iff, List.forall_mem_map]
      simp only [Nat.reduceAdd, evaluate_second_level_iff positive, ne_eq, reduceCtorEq,
        not_false_eq_true, true_and]

end Evaluation

namespace Sieve

open Evaluation Verdict

theorem accepts_iff (sieve : Sieve) (document : Bytes) :
    sieve.accepts document = true ↔
      ∃ value, Json.ofBytes? document = some value ∧ sieve.filters ≠ [] ∧
        ∀ filter ∈ sieve.filters,
          verdictOn sieve.settings.limits value filter = .ok true := by
  have all : ∀ value, conjunction (sieve.ownVerdicts value) = .ok true ↔
      ∀ filter ∈ sieve.filters, verdictOn sieve.settings.limits value filter = .ok true := by
    intro value
    rw [conjunction_eq_true_iff, ownVerdicts, List.forall_mem_map]
  rw [accepts_eq, is_true_iff, outcome]
  cases Json.ofBytes? document with
  | none => simp
  | some value =>
      simp only [map_and_eq_true_iff, all, Option.some.injEq, exists_eq_left', Bool.not_eq_true',
        List.isEmpty_eq_false_iff, ne_eq]

/-- Whether a document passes filters that may go so many levels deep, without a bound on
time. -/
def passesWithin (depthLimit : Nat) (filters : List Expression) (document : Bytes) : Bool :=
  (ofFilters filters ⟨depthLimit, none⟩).accepts document

theorem passesWithin_iff {depthLimit : Nat} {filters : List Expression} {document : Bytes} :
    passesWithin depthLimit filters document = true ↔
      ∃ value, Json.ofBytes? document = some value ∧ filters ≠ [] ∧
        ∀ filter ∈ filters, verdictOn ⟨depthLimit, false⟩ value filter = .ok true :=
  accepts_iff (ofFilters filters ⟨depthLimit, none⟩) document

theorem passesWithin_of_same_filters {depthLimit : Nat} {filters others : List Expression}
    {document : Bytes} (same : ∀ filter, filter ∈ others ↔ filter ∈ filters) :
    passesWithin depthLimit others document = passesWithin depthLimit filters document := by
  have empty : others ≠ [] ↔ filters ≠ [] := by
    simp only [ne_eq, List.eq_nil_iff_forall_not_mem, same]
  rw [Bool.eq_iff_iff, passesWithin_iff, passesWithin_iff]
  simp only [empty, same]

theorem passesWithin_of_subset {depthLimit : Nat} {filters others : List Expression}
    {document : Bytes} (nonempty : filters ≠ []) (fewer : filters ⊆ others)
    (passes : passesWithin depthLimit others document = true) :
    passesWithin depthLimit filters document = true := by
  obtain ⟨value, parsed, -, all⟩ := passesWithin_iff.mp passes
  exact passesWithin_iff.mpr
    ⟨value, parsed, nonempty, fun filter member => all filter (fewer member)⟩

/-- A document passes if it is JSON, there is a filter, and all filters are true of it.  So do
documents of their conjunction as a single filter, allowed one more level. -/
theorem filters_are_conjunction (depthLimit : Nat) (filters : List Expression)
    (document : Bytes) :
    (passesWithin depthLimit filters document = true ↔
      ∃ value, Json.ofBytes? document = some value ∧ filters ≠ [] ∧
        ∀ filter ∈ filters, verdictOn ⟨depthLimit, false⟩ value filter = .ok true) ∧
    (∀ others, (∀ filter, filter ∈ others ↔ filter ∈ filters) →
      passesWithin depthLimit others document = passesWithin depthLimit filters document) ∧
    (filters ≠ [] → ∀ filter, passesWithin depthLimit (filters ++ [filter]) document = true →
      passesWithin depthLimit filters document = true) ∧
    (1 ≤ depthLimit → passesWithin depthLimit filters document =
      passesWithin (depthLimit + 1) [.connective .conjunction filters] document) := by
  refine ⟨passesWithin_iff, fun others same => passesWithin_of_same_filters same, ?_, ?_⟩
  · intro nonempty filter
    exact passesWithin_of_subset nonempty (List.subset_append_left filters [filter])
  · intro positive
    have single : ∀ value, verdictOn ⟨depthLimit + 1, false⟩ value
        (.connective .conjunction filters) = .ok true ↔
          filters ≠ [] ∧
            ∀ filter ∈ filters, verdictOn ⟨depthLimit, false⟩ value filter = .ok true :=
      verdictOn_conjunction_iff (show 1 ≤ (⟨depthLimit, false⟩ : Limits).depthLimit from positive)
        filters
    rw [Bool.eq_iff_iff, passesWithin_iff, passesWithin_iff]
    simp [single]

/-- Where there is no filter, an appended one can let a document pass. -/
theorem appended_to_nothing_passes :
    passesWithin 128 [] (Utf8.encode "\x7b\x7d") = false ∧
      passesWithin 128 ([] ++ [.constant true]) (Utf8.encode "\x7b\x7d") = true := by
  constructor
  · rw [← Bool.not_eq_true, passesWithin_iff]
    rintro ⟨value, -, nonempty, -⟩
    exact nonempty rfl
  · have parsed : Json.ofBytes? (Utf8.encode "\x7b\x7d") = some (.object []) := by cbv
    refine passesWithin_iff.mpr ⟨.object [], parsed, List.cons_ne_nil _ _, ?_⟩
    intro filter member
    obtain rfl := List.mem_singleton.mp member
    rfl

end Sieve

end JsonSieve
