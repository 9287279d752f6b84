import JsonSieve.Evaluation
import JsonSieve.Json.Reader

/-!
# Sieves

A sieve is a list of filters with bounds on their evaluation.  A document passes if there is at
least one filter and all of them hold.  The filters are evaluated in order on one evaluation,
and the first error ends it: the document does not pass then.

A sieve also remembers the verdict of every filter from the last time that it was asked to
record them.  Recording overwrites verdicts as they are reached and leaves the others as they
were, so that a document which is no JSON changes none of them.
-/

namespace JsonSieve

/-- The bounds on the evaluation of one document. -/
structure Settings where
  depthLimit : Nat := 128
  timeBudget : Option Nat := none
  deriving DecidableEq

/-- The limits under settings.  An evaluation is taken to need no time, so that a budget of
milliseconds is over at once if it is zero, and never otherwise. -/
def Settings.limits (settings : Settings) : Limits where
  depthLimit := settings.depthLimit
  expired := settings.timeBudget == some 0

/-- Filters, the bounds on their evaluation and the verdicts recorded last. -/
structure Sieve where
  filters : List Expression
  settings : Settings
  verdicts : List Bool

namespace Sieve

/-- The verdicts before any document: none of the filters holds. -/
def noVerdicts (filters : List Expression) : List Bool :=
  List.replicate filters.length false

/-- A sieve of these filters, without recorded verdicts. -/
def ofFilters (filters : List Expression) (settings : Settings) : Sieve where
  filters := filters
  settings := settings
  verdicts := noVerdicts filters

/-- Evaluates filters in order and records their verdicts up to the first error.  The result
says whether all of them hold. -/
def judgeInOrder (limits : Limits) :
    List Expression → List Bool → Bindings → Except EvaluationError Bool × List Bool
  | [], verdicts, _ => (.ok true, verdicts)
  | filter :: filters, verdicts, bindings =>
      match Evaluation.judge limits filter bindings with
      | (.error error, _) => (.error error, verdicts)
      | (.ok verdict, bindings) =>
          let (result, others) := judgeInOrder limits filters verdicts.tail bindings
          (result.map (verdict && ·), verdict :: others)

/-- Evaluates the filters of a sieve on a document, starting from some verdicts. -/
def run (sieve : Sieve) (document : Bytes) (verdicts : List Bool) :
    Except EvaluationError Bool × List Bool :=
  match Json.ofBytes? document with
  | none => (.error .malformedDocument, verdicts)
  | some value =>
      let (result, verdicts) :=
        judgeInOrder sieve.settings.limits sieve.filters verdicts (Evaluation.initial value)
      (result.map (!sieve.filters.isEmpty && ·), verdicts)

/-- Whether a document passes, with the verdicts of all filters. -/
structure Report where
  passes : Bool
  verdicts : List Bool
  deriving DecidableEq

/-- Evaluates a document without recording anything. -/
def evaluate (sieve : Sieve) (document : Bytes) : Except EvaluationError Report :=
  let (result, verdicts) := sieve.run document (noVerdicts sieve.filters)
  result.map (fun passes => ⟨passes, verdicts⟩)

def accepts (sieve : Sieve) (document : Bytes) : Bool :=
  match sieve.evaluate document with
  | .ok report => report.passes
  | .error _ => false

/-- Whether a document passes, and the sieve with the verdicts recorded. -/
def record (sieve : Sieve) (document : Bytes) : Bool × Sieve :=
  let (result, verdicts) := sieve.run document sieve.verdicts
  (match result with
    | .ok passes => passes
    | .error _ => false,
    { sieve with verdicts := verdicts })

/-- The verdict recorded last for a filter. -/
def verdict (sieve : Sieve) (index : Nat) : Bool :=
  sieve.verdicts[index]?.getD false

def clear (sieve : Sieve) : Sieve :=
  { sieve with verdicts := sieve.verdicts.map (fun _ => false) }

end Sieve

end JsonSieve
