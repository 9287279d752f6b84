import JsonSieve.Proofs.Evaluation.Frame

/-!
# Evaluation against a clock

A quantifier looks at the clock before it binds an element, and the time may run out between two
elements.  Here the state of an evaluation counts the readings of a clock, which says at each of
them whether the time is over.

If the states of two evaluations stand for each other at every reading, then so do their results.
So with a clock that always says the same, an evaluation is the one under limits.
-/

namespace JsonSieve

namespace Keeper

variable {State Part : Type} {fine : Keeper State} {coarse : Keeper Part} {view : State → Part}

/-- What can be seen of a state is kept like a state by itself. -/
structure Shows (fine : Keeper State) (coarse : Keeper Part) (view : State → Part) : Prop where
  bindings : ∀ state, coarse.bindings (view state) = fine.bindings state
  rebind : ∀ state new, view (fine.rebind state new) = coarse.rebind (view state) new
  isLate : ∀ state,
    coarse.isLate (view state) = ((fine.isLate state).1, view (fine.isLate state).2)

/-- A step on what can be seen has the verdict of a step on the whole. -/
def Follows (view : State → Part) (whole : Evaluation State) (part : Evaluation Part) : Prop :=
  ∀ state, part (view state) = ((whole state).1, view (whole state).2)

namespace Shows

theorem push (shows : Shows fine coarse view) (slot : Nat) (element : Json.Value)
    (state : State) :
    coarse.push slot element (view state) = view (fine.push slot element state) := by
  rw [Keeper.push, Keeper.push, shows.bindings, shows.rebind]

theorem pop (shows : Shows fine coarse view) (state : State) :
    coarse.pop (view state) = view (fine.pop state) := by
  rw [Keeper.pop, Keeper.pop, shows.bindings, shows.rebind]

theorem overElements (shows : Shows fine coarse view) {slot : Nat} {decisive : Bool}
    {whole : Evaluation State} {part : Evaluation Part} (follows : Follows view whole part)
    (items : List Json.Value) :
    Follows view (fine.overElements slot decisive whole items)
      (coarse.overElements slot decisive part items) := by
  induction items with
  | nil => exact fun state => rfl
  | cons item items ih =>
      intro state
      rw [Keeper.overElements, Keeper.overElements, shows.isLate]
      cases fine.isLate state with
      | mk late before =>
          cases late with
          | true => rfl
          | false =>
              dsimp only
              rw [shows.push, follows]
              cases whole (fine.push slot item before) with
              | mk verdict after =>
                  cases verdict with
                  | error error => exact Prod.ext rfl (shows.pop after)
                  | ok value =>
                      dsimp only
                      rw [shows.pop]
                      split
                      · rfl
                      · exact ih (fine.pop after)

theorem overSource (shows : Shows fine coarse view) {slot : Nat} {source : Expression}
    {decisive : Bool} {whole : Evaluation State} {part : Evaluation Part}
    (follows : Follows view whole part) :
    Follows view (fine.overSource slot source decisive whole)
      (coarse.overSource slot source decisive part) := by
  intro state
  rw [Keeper.overSource, Keeper.overSource, shows.bindings]
  cases Evaluation.elements (fine.bindings state) source with
  | error error => rfl
  | ok items => exact shows.overElements follows items state

theorem evaluateUntil {depthLimit depth : Nat} {decisive : Bool} {children : List Expression}
    (each : ∀ child ∈ children, Follows view (fine.evaluate depthLimit depth child)
      (coarse.evaluate depthLimit depth child)) :
    Follows view (fine.evaluateUntil depthLimit decisive depth children)
      (coarse.evaluateUntil depthLimit decisive depth children) := by
  induction children with
  | nil =>
      intro state
      rw [Keeper.evaluateUntil, Keeper.evaluateUntil]
  | cons child children ih =>
      intro state
      rw [Keeper.evaluateUntil, Keeper.evaluateUntil, each child (by simp) state]
      cases fine.evaluate depthLimit depth child state with
      | mk verdict after =>
          cases verdict with
          | error error => rfl
          | ok value =>
              dsimp only
              split
              · rfl
              · exact ih (fun other member => each other (by simp [member])) after

/-- Too many levels down both evaluations end at once. -/
theorem follows_of_within {depthLimit depth : Nat} {expression : Expression}
    (within : ¬depthLimit < depth → Follows view (fine.evaluate depthLimit depth expression)
      (coarse.evaluate depthLimit depth expression)) :
    Follows view (fine.evaluate depthLimit depth expression)
      (coarse.evaluate depthLimit depth expression) := by
  by_cases tooDeep : depthLimit < depth
  · intro state
    rw [evaluate_of_tooDeep tooDeep, evaluate_of_tooDeep tooDeep]
  · exact within tooDeep

/-- What can be seen of an evaluation is an evaluation of what can be seen. -/
theorem evaluate (shows : Shows fine coarse view) (depthLimit depth : Nat)
    (expression : Expression) :
    Follows view (fine.evaluate depthLimit depth expression)
      (coarse.evaluate depthLimit depth expression) := by
  induction expression generalizing depth with
  | connective kind children ih =>
      refine follows_of_within fun within state => ?_
      have each : ∀ child ∈ children, Follows view (fine.evaluate depthLimit (depth + 1) child)
          (coarse.evaluate depthLimit (depth + 1) child) :=
        fun child member => ih child member (depth + 1)
      cases kind with
      | conjunction =>
          cases children with
          | nil => rw [Keeper.evaluate, Keeper.evaluate, if_neg within, if_neg within]
          | cons child children =>
              rw [Keeper.evaluate, Keeper.evaluate, if_neg within, if_neg within]
              exact evaluateUntil each state
      | disjunction =>
          rw [Keeper.evaluate, Keeper.evaluate, if_neg within, if_neg within]
          exact evaluateUntil each state
  | negation inner ih =>
      refine follows_of_within fun within state => ?_
      rw [Keeper.evaluate, Keeper.evaluate, if_neg within, if_neg within, ih (depth + 1) state]
      cases fine.evaluate depthLimit (depth + 1) inner state with
      | mk verdict after => cases verdict <;> rfl
  | comparison kind lhs rhs =>
      intro state
      rw [Keeper.evaluate, Keeper.evaluate, shows.bindings]
      split <;> rfl
  | quantifier kind slot source predicate _ ih =>
      refine follows_of_within fun within state => ?_
      cases kind with
      | any =>
          rw [Keeper.evaluate, Keeper.evaluate, if_neg within, if_neg within]
          exact shows.overSource (ih (depth + 1)) state
      | every =>
          rw [Keeper.evaluate, Keeper.evaluate, if_neg within, if_neg within]
          exact shows.overSource (ih (depth + 1)) state
      | anyEvery => rw [Keeper.evaluate, Keeper.evaluate, if_neg within, if_neg within]
  | _ =>
      intro state
      rw [Keeper.evaluate, Keeper.evaluate]
      split <;> rfl

end Shows

end Keeper

/-- Whether the time is over, for each reading of a clock. -/
abbrev Clock := Nat → Bool

/-- The bindings of an evaluation, and how often its clock has been read. -/
structure Moment where
  bindings : Bindings
  readings : Nat

namespace Clock

/-- Reads the clock whenever it is asked for the time. -/
def keeper (clock : Clock) : Keeper Moment where
  bindings := Moment.bindings
  rebind moment new := { moment with bindings := new }
  isLate moment := (clock moment.readings, { moment with readings := moment.readings + 1 })
  bindings_rebind _ _ := rfl
  bindings_isLate _ := rfl

def evaluate (clock : Clock) (depthLimit : Nat) : (depth : Nat) → Expression → Evaluation Moment :=
  clock.keeper.evaluate depthLimit

def judge (clock : Clock) (depthLimit : Nat) : Expression → Evaluation Moment :=
  clock.keeper.judge depthLimit

/-- The clock at whose readings the time is always over, or never. -/
def stopped (expired : Bool) : Clock :=
  fun _ => expired

theorem shows_bindings (expired : Bool) :
    Keeper.Shows (stopped expired).keeper (Evaluation.stack expired) Moment.bindings :=
  ⟨fun _ => rfl, fun _ _ => rfl, fun _ => rfl⟩

end Clock

end JsonSieve
