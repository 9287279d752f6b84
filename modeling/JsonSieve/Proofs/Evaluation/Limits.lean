import JsonSieve.Proofs.Evaluation.Errors
import JsonSieve.Proofs.Expression.Grammar

/-!
# Limits on an evaluation

An evaluation that reaches a limit ends with the error that names this limit.  Nothing between
there and the filter as a whole turns an error into a truth value, under a negation as little as
among the children of a connective or over the elements of an array.  So a limit can only
withhold a verdict: with fewer levels, or without time, a filter has the verdict that it has
otherwise, or none.

The two limits are met at different places.  Levels are counted wherever a condition is entered,
and a filter has enough of them if it has no more levels itself.  Time is looked at only before an
element of an array is bound, so that lack of time shows exactly in the evaluations that get there.
-/

namespace JsonSieve

namespace Verdict

/-- A verdict that another one has been cut short to: an error, or still the other one. -/
def CutShort (error : EvaluationError) (verdict whole : Verdict) : Prop :=
  verdict = .error error ∨ verdict = whole

variable {error : EvaluationError} {verdict whole : Verdict}

theorem CutShort.map (cut : CutShort error verdict whole) (change : Bool → Bool) :
    CutShort error (verdict.map change) (whole.map change) := by
  rcases cut with rfl | rfl
  · exact Or.inl rfl
  · exact Or.inr rfl

/-- Verdicts that are cut short are, joined, the joined verdicts cut short. -/
theorem CutShort.firstOther {Item : Type} {neutral : Bool} {items : List Item}
    {first second : Item → Verdict}
    (each : ∀ item ∈ items, CutShort error (first item) (second item)) :
    CutShort error (firstOther neutral (items.map first))
      (Verdict.firstOther neutral (items.map second)) := by
  induction items with
  | nil => exact Or.inr rfl
  | cons item items ih =>
      rw [List.forall_mem_cons] at each
      rw [List.map_cons, List.map_cons]
      rcases each.1 with failed | same
      · rw [failed]
        exact Or.inl rfl
      · rw [same]
        cases second item with
        | error other => exact Or.inr rfl
        | ok value =>
            rw [firstOther_cons_ok, firstOther_cons_ok]
            split
            · exact ih each.2
            · exact Or.inr rfl

/-- Joined verdicts are decided by those up to the first one that is not neutral. -/
theorem firstOther_congr_of_reached {Item : Type} {neutral : Bool} {items : List Item}
    {first second : Item → Verdict}
    (alike : ∀ before item after, items = before ++ item :: after →
      (∀ earlier ∈ before, second earlier = .ok neutral) → first item = second item) :
    firstOther neutral (items.map first) = firstOther neutral (items.map second) := by
  induction items with
  | nil => rfl
  | cons item items ih =>
      have own : first item = second item := alike [] item items rfl (by simp)
      rw [List.map_cons, List.map_cons, own]
      cases reached : second item with
      | error error => rfl
      | ok value =>
          rw [firstOther_cons_ok, firstOther_cons_ok]
          split
          · next isNeutral =>
              refine ih fun before other after split undecided => ?_
              refine alike (item :: before) other after (by rw [split]; rfl) ?_
              rw [List.forall_mem_cons, reached, isNeutral]
              exact ⟨rfl, undecided⟩
          · rfl

theorem firstOther_append_error {neutral : Bool} {before : List Verdict}
    (each : ∀ earlier ∈ before, earlier = .ok neutral ∨ earlier = .error error)
    (after : List Verdict) :
    firstOther neutral (before ++ .error error :: after) = .error error := by
  induction before with
  | nil => rfl
  | cons verdict before ih =>
      rw [List.forall_mem_cons] at each
      rw [List.cons_append]
      rcases each.1 with rfl | rfl
      · rw [firstOther_cons_ok, if_pos rfl]
        exact ih each.2
      · rfl

end Verdict

namespace Evaluation

open Verdict

theorem cutShort_of_within {limits other : Limits} {depth : Nat} {expression : Expression}
    {bindings : Bindings}
    (within : ¬limits.depthLimit < depth →
      CutShort (.tooDeep limits.depthLimit) (evaluate limits depth expression bindings).1
        (evaluate other depth expression bindings).1) :
    CutShort (.tooDeep limits.depthLimit) (evaluate limits depth expression bindings).1
      (evaluate other depth expression bindings).1 := by
  by_cases tooDeep : limits.depthLimit < depth
  · exact Or.inl (by rw [evaluate_of_tooDeep tooDeep])
  · exact within tooDeep

/-- With fewer levels an evaluation has the same verdict, or fails for want of levels. -/
theorem evaluate_cutShort {limits other : Limits} (sameTime : limits.expired = other.expired)
    (fewer : limits.depthLimit ≤ other.depthLimit) (depth : Nat) (expression : Expression)
    (bindings : Bindings) :
    CutShort (.tooDeep limits.depthLimit) (evaluate limits depth expression bindings).1
      (evaluate other depth expression bindings).1 := by
  induction expression generalizing depth bindings with
  | connective kind children ih =>
      refine cutShort_of_within fun within => ?_
      rw [evaluate_connective within, evaluate_connective (by omega)]
      dsimp only
      split
      · exact Or.inr rfl
      · exact CutShort.firstOther fun child member => ih child member (depth + 1) bindings
  | negation inner ih =>
      refine cutShort_of_within fun within => ?_
      rw [evaluate_negation within, evaluate_negation (by omega)]
      exact (ih (depth + 1) bindings).map _
  | quantifier kind slot source predicate _ ih =>
      refine cutShort_of_within fun within => ?_
      cases joins : kind.neutral? with
      | none =>
          rw [evaluate_meaningless within joins, evaluate_meaningless (by omega) joins]
          exact Or.inr rfl
      | some neutral =>
          -- Both evaluations find the same elements, since paths have no levels.
          rw [evaluate_quantifier within joins, evaluate_quantifier (by omega) joins, sameTime]
          cases elements bindings source with
          | error error => exact Or.inr rfl
          | ok items =>
              change CutShort _ (if _ then _ else _) (if _ then _ else _)
              split
              · exact Or.inr rfl
              · exact CutShort.firstOther fun item _ => ih (depth + 1) _
  | _ =>
      refine cutShort_of_within fun within => ?_
      rw [evaluate, evaluate, Keeper.evaluate, Keeper.evaluate, if_neg within, if_neg (by omega)]
      exact Or.inr rfl

theorem dueTo_of_verdictOn {depthLimit : Nat} {filter : Expression} {document : Json.Value}
    {error : EvaluationError} (within : filter.depth ≤ depthLimit)
    (failed : verdictOn ⟨depthLimit, false⟩ document filter = .error error) :
    error.DueTo (filter.WellScoped []) filter.WellSorted := by
  rw [verdictOn, judge_eq_meaning document rfl within] at failed
  have fills : (Environment.ofDocument document).Fills [] :=
    fun slot filled => absurd filled List.not_mem_nil
  exact Expression.dueTo_of_meaning fills failed

/-- A filter with no more levels than the limit allows does not fail for want of levels. -/
theorem verdictOn_ne_tooDeep {depthLimit : Nat} {filter : Expression}
    (within : filter.depth ≤ depthLimit) (document : Json.Value) (limit : Nat) :
    verdictOn ⟨depthLimit, false⟩ document filter ≠ .error (.tooDeep limit) := by
  intro failed
  cases dueTo_of_verdictOn within failed with
  | document depends => exact depends

/-- An evaluation in time comes to bind an element: it enters a quantifier over an array with
elements, past the children of connectives before it. -/
inductive BindsElement (depthLimit : Nat) : (depth : Nat) → Expression → Bindings → Prop
  | quantifier {depth : Nat} {kind : Quantifier} {neutral : Bool} {slot : Nat}
      {source predicate : Expression} {bindings : Bindings} {item : Json.Value}
      {items : List Json.Value} (within : ¬depthLimit < depth)
      (meaningful : kind.neutral? = some neutral)
      (found : elements bindings source = .ok (item :: items)) :
      BindsElement depthLimit depth (.quantifier kind slot source predicate) bindings
  | negation {depth : Nat} {inner : Expression} {bindings : Bindings}
      (within : ¬depthLimit < depth)
      (binds : BindsElement depthLimit (depth + 1) inner bindings) :
      BindsElement depthLimit depth (.negation inner) bindings
  | connective {depth : Nat} {kind : Connective} {before : List Expression} {child : Expression}
      {after : List Expression} {bindings : Bindings} (within : ¬depthLimit < depth)
      (undecided : ∀ earlier ∈ before,
        (evaluate ⟨depthLimit, false⟩ (depth + 1) earlier bindings).1 = .ok kind.neutral)
      (binds : BindsElement depthLimit (depth + 1) child bindings) :
      BindsElement depthLimit depth (.connective kind (before ++ child :: after)) bindings

variable {depthLimit depth : Nat} {expression : Expression} {bindings : Bindings}

theorem evaluate_expired_of_within
    (within : ¬depthLimit < depth →
      (evaluate ⟨depthLimit, true⟩ depth expression bindings).1 =
        (evaluate ⟨depthLimit, false⟩ depth expression bindings).1) :
    (evaluate ⟨depthLimit, true⟩ depth expression bindings).1 =
      (evaluate ⟨depthLimit, false⟩ depth expression bindings).1 := by
  by_cases tooDeep : depthLimit < depth
  · rw [evaluate_of_tooDeep tooDeep, evaluate_of_tooDeep tooDeep]
  · exact within tooDeep

/-- Without time an evaluation has the verdict that it has in time if it binds no element then. -/
theorem evaluate_expired_of_not_bindsElement
    (noElement : ¬BindsElement depthLimit depth expression bindings) :
    (evaluate ⟨depthLimit, true⟩ depth expression bindings).1 =
      (evaluate ⟨depthLimit, false⟩ depth expression bindings).1 := by
  induction expression generalizing depth bindings with
  | connective kind children ih =>
      refine evaluate_expired_of_within fun within => ?_
      rw [evaluate_connective within, evaluate_connective within]
      dsimp only
      split
      · rfl
      · refine firstOther_congr_of_reached fun before child after split undecided => ?_
        refine ih child (by simp [split]) fun binds => noElement ?_
        rw [split]
        exact .connective within undecided binds
  | negation inner ih =>
      refine evaluate_expired_of_within fun within => ?_
      rw [evaluate_negation within, evaluate_negation within,
        ih fun binds => noElement (.negation within binds)]
  | quantifier kind slot source predicate _ _ =>
      refine evaluate_expired_of_within fun within => ?_
      cases joins : kind.neutral? with
      | none => rw [evaluate_meaningless within joins, evaluate_meaningless within joins]
      | some neutral =>
          rw [evaluate_quantifier within joins, evaluate_quantifier within joins]
          cases found : elements bindings source with
          | error error => rfl
          | ok items =>
              cases items with
              | nil => rfl
              | cons item items => exact absurd (.quantifier within joins found) noElement
  | comparison kind lhs rhs =>
      refine evaluate_expired_of_within fun within => ?_
      rw [evaluate_comparison within, evaluate_comparison within]
  | _ => rw [evaluate, evaluate, Keeper.evaluate, Keeper.evaluate]

/-- Without time an evaluation fails for want of it if it comes to bind an element in time. -/
theorem evaluate_expired_of_bindsElement
    (binds : BindsElement depthLimit depth expression bindings) :
    (evaluate ⟨depthLimit, true⟩ depth expression bindings).1 = .error .outOfTime := by
  induction expression generalizing depth bindings with
  | connective kind children ih =>
      cases binds with
      | @connective _ _ before child after _ within undecided binds =>
          have failed := ih child (by simp) binds
          -- A child before this one has its verdict in time, or no time itself.
          have each : ∀ earlier ∈ before.map
              (fun child => (evaluate ⟨depthLimit, true⟩ (depth + 1) child bindings).1),
              earlier = .ok kind.neutral ∨ earlier = .error .outOfTime := by
            rw [List.forall_mem_map]
            intro earlier member
            by_cases bindsEarlier : BindsElement depthLimit (depth + 1) earlier bindings
            · exact Or.inr (ih earlier (by simp [member]) bindsEarlier)
            · exact Or.inl ((evaluate_expired_of_not_bindsElement bindsEarlier).trans
                (undecided earlier member))
          have nonempty : ¬(before ++ child :: after).isEmpty := by simp
          rw [evaluate_connective within, if_neg nonempty, List.map_append, List.map_cons,
            failed]
          exact firstOther_append_error each _
  | negation inner ih =>
      cases binds with
      | negation within binds =>
          rw [evaluate_negation within, ih binds]
          rfl
  | quantifier kind slot source predicate _ _ =>
      cases binds with
      | quantifier within meaningful found =>
          rw [evaluate_quantifier within meaningful, found]
          rfl
  | _ => cases binds

theorem verdictOn_cutShort {fewer more : Nat} (le : fewer ≤ more) (document : Json.Value)
    (filter : Expression) :
    CutShort (.tooDeep fewer) (verdictOn ⟨fewer, false⟩ document filter)
      (verdictOn ⟨more, false⟩ document filter) := by
  cases filter with
  | constant value => exact Or.inr rfl
  | _ =>
      exact @evaluate_cutShort ⟨fewer, false⟩ ⟨more, false⟩ rfl le 1 _ (initial document)

theorem verdictOn_expired (depthLimit : Nat) (document : Json.Value) (filter : Expression) :
    (BindsElement depthLimit 1 filter (initial document) →
      verdictOn ⟨depthLimit, true⟩ document filter = .error .outOfTime) ∧
    (¬BindsElement depthLimit 1 filter (initial document) →
      verdictOn ⟨depthLimit, true⟩ document filter =
        verdictOn ⟨depthLimit, false⟩ document filter) := by
  cases filter with
  | constant value => exact ⟨nofun, fun _ => rfl⟩
  | _ => exact ⟨evaluate_expired_of_bindsElement, evaluate_expired_of_not_bindsElement⟩

theorem verdictOn_ne_malformedDocument (limits : Limits) (document : Json.Value)
    (filter : Expression) : verdictOn limits document filter ≠ .error .malformedDocument := by
  have enoughLevels : ∀ levels, filter.depth ≤ levels →
      verdictOn ⟨levels, false⟩ document filter ≠ .error .malformedDocument := by
    intro levels within failed
    cases dueTo_of_verdictOn within failed with
    | document depends => exact depends
  have inTime : ∀ levels,
      verdictOn ⟨levels, false⟩ document filter ≠ .error .malformedDocument := by
    intro levels
    rcases verdictOn_cutShort (Nat.le_max_left levels filter.depth) document filter with
      tooDeep | same
    · rw [tooDeep]
      exact nofun
    · rw [same]
      exact enoughLevels _ (Nat.le_max_right levels filter.depth)
  obtain ⟨levels, expired⟩ := limits
  cases expired with
  | false => exact inTime levels
  | true =>
      obtain ⟨failed, same⟩ := verdictOn_expired levels document filter
      by_cases binds : BindsElement levels 1 filter (initial document)
      · rw [failed binds]
        exact nofun
      · rw [same binds]
        exact inTime levels

/-- Within narrower limits a filter has the same verdict or fails for want of levels or of time.  It
fails for want of time exactly if it comes to bind an element. -/
theorem limits_only_withhold_verdicts (document : Json.Value) (filter : Expression) :
    let inTime := fun levels => verdictOn ⟨levels, false⟩ document filter
    let late := fun levels => verdictOn ⟨levels, true⟩ document filter
    (∀ fewer more, fewer ≤ more →
      inTime fewer = .error (.tooDeep fewer) ∨ inTime fewer = inTime more) ∧
    (∀ levels, late levels = .error .outOfTime ∨ late levels = inTime levels) ∧
    (∀ levels, BindsElement levels 1 filter (initial document) →
      late levels = .error .outOfTime) ∧
    (∀ levels, ¬BindsElement levels 1 filter (initial document) →
      late levels = inTime levels) ∧
    (∀ levels, filter.depth ≤ levels → ∀ limit, inTime levels ≠ .error (.tooDeep limit)) ∧
    (∀ octets, Expression.parse octets = .ok filter →
      ∀ levels, 64 ≤ levels → ∀ limit, inTime levels ≠ .error (.tooDeep limit)) ∧
    ∀ fewer more value, fewer ≤ more → inTime fewer = .ok value ∨ late fewer = .ok value →
      inTime more = .ok value := by
  intro inTime late
  have cutByTime : ∀ levels, late levels = .error .outOfTime ∨ late levels = inTime levels := by
    intro levels
    obtain ⟨failed, same⟩ := verdictOn_expired levels document filter
    by_cases binds : BindsElement levels 1 filter (initial document)
    · exact Or.inl (failed binds)
    · exact Or.inr (same binds)
  have reached : ∀ fewer more value, fewer ≤ more → inTime fewer = .ok value →
      inTime more = .ok value := by
    intro fewer more value le verdict
    rcases verdictOn_cutShort le document filter with failed | same
    · exact absurd (verdict.symm.trans failed) (by simp)
    · exact same.symm.trans verdict
  refine ⟨fun fewer more le => verdictOn_cutShort le document filter, cutByTime,
    fun levels => (verdictOn_expired levels document filter).1,
    fun levels => (verdictOn_expired levels document filter).2,
    fun levels within => verdictOn_ne_tooDeep within document, ?_, ?_⟩
  · intro octets read levels enough
    rw [Expression.parse] at read
    split at read
    · have within : filter.depth ≤ 64 := (Expression.bounds_of_ofValue read).1
      exact verdictOn_ne_tooDeep (within.trans enough) document
    · cases read
  · rintro fewer more value le (verdict | verdict)
    · exact reached fewer more value le verdict
    · rcases cutByTime fewer with failed | same
      · exact absurd (verdict.symm.trans failed) (by simp)
      · exact reached fewer more value le (same.symm.trans verdict)

end Evaluation

end JsonSieve
