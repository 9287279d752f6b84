import JsonSieve.Proofs.Evaluation.Clock

/-!
# Filters that share an evaluation

All filters of a sieve are evaluated on one stack of bindings.  Since every evaluation restores the
stack, each of them begins where a new evaluation would, also if one before it failed in the middle
of nested quantifiers.
-/

namespace JsonSieve

namespace Evaluation

/-- The verdicts of filters in a row, each evaluated in the state that the one before left, whatever
came of that one, and the state at their end. -/
def inTurn {State : Type} (judgeOne : Expression → State → Verdict × State) :
    List Expression → State → List Verdict × State
  | [], state => ([], state)
  | filter :: filters, state =>
      let (verdict, next) := judgeOne filter state
      let (verdicts, last) := inTurn judgeOne filters next
      (verdict :: verdicts, last)

/-- If single filters see no more of a state than a part of it, then so do filters in a row. -/
theorem inTurn_of_part {State Part : Type} {whole : Part → State}
    {judgeOne : Expression → State → Verdict × State}
    {judgePart : Expression → Part → Verdict × Part}
    (each : ∀ filter part, judgeOne filter (whole part) =
      ((judgePart filter part).1, whole (judgePart filter part).2))
    (filters : List Expression) (part : Part) :
    inTurn judgeOne filters (whole part) =
      ((inTurn judgePart filters part).1, whole (inTurn judgePart filters part).2) := by
  induction filters generalizing part with
  | nil => rfl
  | cons filter filters ih => simp only [inTurn, each, ih]

theorem inTurn_judge (limits : Limits) (document : Json.Value) (filters : List Expression) :
    inTurn (judge limits) filters (initial document) =
      (filters.map (verdictOn limits document), initial document) := by
  induction filters with
  | nil => rfl
  | cons filter filters ih => simp only [inTurn, judge_initial, ih, List.map_cons]

end Evaluation

namespace Clock

open Evaluation

/-- The verdict of a filter in a new evaluation of a document, which begins after so many readings
of the clock, and the number of readings at its end. -/
def verdictOn (clock : Clock) (depthLimit : Nat) (document : Json.Value) (filter : Expression)
    (readings : Nat) : Verdict × Nat :=
  let (verdict, after) := clock.judge depthLimit filter ⟨initial document, readings⟩
  (verdict, after.readings)

theorem judge_initial (clock : Clock) (depthLimit : Nat) (document : Json.Value)
    (filter : Expression) (readings : Nat) :
    clock.judge depthLimit filter ⟨initial document, readings⟩ =
      ((clock.verdictOn depthLimit document filter readings).1,
        ⟨initial document, (clock.verdictOn depthLimit document filter readings).2⟩) := by
  have restored : (clock.judge depthLimit filter ⟨initial document, readings⟩).2.bindings = _ :=
    clock.keeper.restores_judge depthLimit filter ⟨initial document, readings⟩
  rw [verdictOn]
  generalize clock.judge depthLimit filter ⟨initial document, readings⟩ = result at restored
  obtain ⟨verdict, ⟨bindings, after⟩⟩ := result
  obtain rfl : bindings = initial document := restored
  rfl

/-- Every evaluation restores its bindings, whenever the time runs out.  So filters that share an
evaluation have the verdicts that they have by themselves, also behind one that failed. -/
theorem bindings_restored_on_every_path :
    (∀ limits depth expression bindings,
      (Evaluation.evaluate limits depth expression bindings).2 = bindings) ∧
    (∀ clock depthLimit depth expression moment,
      (evaluate clock depthLimit depth expression moment).2.bindings = moment.bindings) ∧
    (∀ expired depthLimit depth expression moment,
      Evaluation.evaluate ⟨depthLimit, expired⟩ depth expression moment.bindings =
        (((stopped expired).evaluate depthLimit depth expression moment).1,
          ((stopped expired).evaluate depthLimit depth expression moment).2.bindings)) ∧
    (∀ limits document filters, inTurn (Evaluation.judge limits) filters (initial document) =
      (filters.map (Evaluation.verdictOn limits document), initial document)) ∧
    ∀ clock depthLimit document filters readings,
      let alone := inTurn (verdictOn clock depthLimit document) filters readings
      inTurn (judge clock depthLimit) filters ⟨initial document, readings⟩ =
        (alone.1, ⟨initial document, alone.2⟩) :=
  ⟨evaluate_bindings, fun clock => clock.keeper.restores_evaluate,
    fun expired => (shows_bindings expired).evaluate, inTurn_judge,
    fun clock depthLimit document => inTurn_of_part (clock.judge_initial depthLimit document)⟩

/-- The time runs out before the only element of the second row, where two slots are bound. -/
example :
    let document := Json.Value.array [.array [.null], .array [.null]]
    let everywhere := Expression.quantifier .every 1 (.field 0 "")
      (.quantifier .every 2 (.field 1 "") (.constant true))
    evaluate (fun reading => reading = 3) 3 1 everywhere ⟨initial document, 0⟩ =
      (.error .outOfTime, ⟨initial document, 4⟩) := by
  cbv

end Clock

end JsonSieve
