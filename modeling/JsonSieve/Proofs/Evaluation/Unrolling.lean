import JsonSieve.Proofs.Evaluation.Agreement
import JsonSieve.Proofs.Expression.Scope
import JsonSieve.Proofs.Path.Following

/-!
# Quantifiers unrolled

A quantifier over an array says of every element what a connective can say with one child for each
element.  The child is the predicate with the slot of the quantifier replaced by the path to the
element, except in predicates of inner quantifiers that fill the same slot.  Both fail together too,
and for the same reason; only the path that leads nowhere is written from the root in one case and
from the element in the other.
-/

namespace JsonSieve

namespace Expression

/-- Fields of a slot start at the root slot instead, and their paths with the path that leads
to what was in the slot.  A quantifier that fills the slot again keeps its own fields. -/
def Relabelling.rerooted (slot : Nat) (start : String) : Relabelling where
  field scope other path :=
    if other = slot ∧ slot ∉ scope then (rootSlot, start ++ path) else (other, path)
  slot _ filled := filled

/-- What a predicate says of the element with an index of the array to which a path leads. -/
def atElement (predicate : Expression) (slot : Nat) (path : String) (index : Nat) : Expression :=
  predicate.relabel (.rerooted slot (Path.element path index)) []

end Expression

/-- An error that does not say which path leads nowhere. -/
def EvaluationError.withoutPath : EvaluationError → EvaluationError
  | .path error => .path error.withoutPath
  | error => error

theorem Environment.mapError_fieldValue {environment : Environment} {slot : Nat}
    {value : Json.Value} (held : environment slot = some value) (path : String) :
    (environment.fieldValue slot path).mapError EvaluationError.withoutPath =
      ((Path.resolve value path).mapError Path.Error.withoutPath).mapError .path := by
  simp only [Environment.fieldValue, held]
  cases Path.resolve value path <;> rfl

theorem Alike.rerooted {document item : Json.Value} {slot : Nat} {start : String}
    (leads : ∀ rest, (Path.resolve document (start ++ rest)).mapError Path.Error.withoutPath =
      (Path.resolve item rest).mapError Path.Error.withoutPath)
    {predicate : Expression} (keeps : predicate.KeepsRoot) {scope : List Nat}
    {here there : Environment} (root : there rootSlot = some document)
    (own : slot ∉ scope → here slot = some item)
    (others : ∀ other, ¬(other = slot ∧ slot ∉ scope) → here other = there other) :
    Alike .withoutPath here predicate there (predicate.relabel (.rerooted slot start) scope) := by
  induction predicate generalizing scope here there with
  | constant value => exact .constant value
  | connective kind children ih =>
      rw [Expression.relabel, Expression.relabelAll_eq_map]
      exact .connective kind fun child member =>
        ih child member (keeps.part member) root own others
  | negation inner ih =>
      exact .negation (ih (keeps.part (by simp [Expression.parts])) root own others)
  | comparison kind lhs rhs lhsIH rhsIH =>
      exact .comparison kind
        (lhsIH (keeps.part (by simp [Expression.parts])) root own others)
        (rhsIH (keeps.part (by simp [Expression.parts])) root own others)
  | field other path =>
      refine .field ?_
      dsimp only [Expression.Relabelling.rerooted]
      split
      · next isOwn =>
          obtain ⟨rfl, free⟩ := isOwn
          rw [Environment.mapError_fieldValue (own free), Environment.mapError_fieldValue root,
            leads]
      · next isOther => simp only [Environment.fieldValue, others other isOther]
  | literal value => exact .literal value
  | quantifier kind filled source predicate sourceIH predicateIH =>
      have notRoot : filled ≠ rootSlot := by
        rintro rfl
        exact (Expression.keepsRoot_iff.mp keeps).1 kind source predicate rfl
      refine .quantifier kind (sourceIH (keeps.part (by simp [Expression.parts])) root own others)
        fun element => predicateIH (keeps.part (by simp [Expression.parts])) ?_ ?_ ?_
      · exact (Environment.put_of_ne notRoot.symm there element).trans root
      · intro free
        rw [List.mem_cons, not_or] at free
        exact (Environment.put_of_ne free.1 here element).trans (own free.2)
      · intro other isOther
        -- The slot just filled holds the element on both sides, be it the slot replaced or not.
        by_cases same : other = filled
        · rw [same]
          exact (here.put_self filled element).trans (there.put_self filled element).symm
        · have before : ¬(other = slot ∧ slot ∉ scope) := by
            rintro ⟨rfl, free⟩
            exact isOther ⟨rfl, by simp [same, free]⟩
          exact (Environment.put_of_ne same here element).trans
            ((others other before).trans (Environment.put_of_ne same there element).symm)

namespace Evaluation

section Unrolled

variable {document : Json.Value} {path : String} {items : List Json.Value} {slot : Nat}
  {predicate : Expression}

theorem elements_initial (found : Path.resolve document path = .ok (.array items)) :
    elements (initial document) (.field rootSlot path) = .ok items := by
  have bound : lookup (initial document) rootSlot = .ok document := rfl
  simp only [elements, fieldValue, bound, bind, Except.bind, found, Except.mapError]

/-- For an element of the array, the predicate and what it says of the element by its path have
verdicts that look alike. -/
theorem mapError_evaluate_atElement (found : Path.resolve document path = .ok (.array items))
    (keeps : predicate.KeepsRoot) (limits : Limits) (depth : Nat)
    {index : Nat} {item : Json.Value} (isItem : items[index]? = some item)
    (small : index < Digits.wordBound) :
    (evaluate limits depth predicate ((slot, item) :: initial document)).1.mapError
        EvaluationError.withoutPath =
      (evaluate limits depth (predicate.atElement slot path index)
        (initial document)).1.mapError EvaluationError.withoutPath := by
  have leads := Path.resolve_element found small isItem
  have alike : Alike .withoutPath ((Environment.ofDocument document).put slot item) predicate
      (Environment.ofDocument document) (predicate.atElement slot path index) := by
    refine .rerooted leads keeps rfl (fun _ => Environment.put_self _ slot item) ?_
    intro other isOther
    have different : other ≠ slot := fun same => isOther ⟨same, List.not_mem_nil⟩
    exact Environment.put_of_ne different _ item
  refine alike.mapError_evaluate (.refl limits depth) ?_ (environmentOf_initial document)
  rw [environmentOf_cons, environmentOf_initial]

/-- A quantifier looks like the connective with the same neutral verdict.  Without elements the
connective is false, so the quantifier has to be false as well. -/
theorem mapError_verdictOn_unrolled (found : Path.resolve document path = .ok (.array items))
    (countable : items.length ≤ Digits.wordBound) (keeps : predicate.KeepsRoot)
    (depthLimit : Nat) {kind : Quantifier}
    {connective : Connective} (joinsAlike : kind.neutral? = some connective.neutral)
    (falseIfEmpty : items = [] → connective.neutral = false) :
    (verdictOn ⟨depthLimit, false⟩ document
        (.quantifier kind slot (.field rootSlot path) predicate)).mapError
          EvaluationError.withoutPath =
      (verdictOn ⟨depthLimit, false⟩ document (.connective connective
        ((List.range items.length).map (predicate.atElement slot path)))).mapError
          EvaluationError.withoutPath := by
  change (evaluate _ 1 _ _).1.mapError _ = (evaluate _ 1 _ _).1.mapError _
  by_cases tooDeep : depthLimit < 1
  · rw [evaluate_of_tooDeep tooDeep, evaluate_of_tooDeep tooDeep]
  rw [evaluate_quantifier tooDeep joinsAlike, evaluate_connective tooDeep, elements_initial found]
  by_cases empty : items = []
  · rw [empty, falseIfEmpty empty]
    rfl
  have nonempty : ((List.range items.length).map (predicate.atElement slot path)).isEmpty ≠
      true := by simpa using empty
  change (Verdict.firstOther _ _).mapError _ = (if _ then _ else _ : Verdict).mapError _
  rw [if_neg nonempty, Verdict.mapError_firstOther, Verdict.mapError_firstOther]
  refine congrArg _ (List.ext_getElem (by simp) fun index inItems _ => ?_)
  simp only [List.getElem_map, List.getElem_range]
  simp only [List.length_map] at inItems
  exact mapError_evaluate_atElement found keeps _ 2
    (List.getElem?_eq_getElem inItems) (by omega)

end Unrolled

/-- A quantifier over an array is a connective with a child for each element, up to the path that a
missing field is reported with.  The indices of the elements are words of 64 bits. -/
theorem quantifiers_unroll {document : Json.Value} {path : String} {items : List Json.Value}
    {slot : Nat} {predicate : Expression}
    (found : Path.resolve document path = .ok (.array items))
    (countable : items.length ≤ Digits.wordBound) (keeps : predicate.KeepsRoot)
    (depthLimit : Nat) :
    let verdict := fun filter =>
      (verdictOn ⟨depthLimit, false⟩ document filter).mapError EvaluationError.withoutPath
    let ofElements := (List.range items.length).map (predicate.atElement slot path)
    verdict (.quantifier .any slot (.field rootSlot path) predicate) =
        verdict (.connective .disjunction ofElements) ∧
      (items ≠ [] → verdict (.quantifier .every slot (.field rootSlot path) predicate) =
        verdict (.connective .conjunction ofElements)) :=
  ⟨mapError_verdictOn_unrolled found countable keeps depthLimit rfl fun _ => rfl,
    fun nonempty => mapError_verdictOn_unrolled found countable keeps depthLimit rfl
      fun empty => absurd empty nonempty⟩

/-- Some row has the tag a or the number two.  The inner quantifier fills the slot of the outer one
again: its source is written as a path from the root, and its predicate stays. -/
theorem rows_unrolled :
    let items := [Json.Value.object [("tags", .array [.string "b"]), ("id", .number (.integer 1))],
      .object [("tags", .array [])]]
    let document := Json.Value.object [("rows", .array items)]
    let tagged := fun source => Expression.quantifier .any 1 source
      (.comparison .equal (.field 1 "") (.literal (.string "a")))
    let numbered := fun number =>
      Expression.comparison .equal number (.literal (.integer 2))
    let predicate := Expression.connective .disjunction
      [tagged (.field 1 ".tags"), numbered (.field 1 "id")]
    let verdict := fun filter =>
      (verdictOn ⟨64, false⟩ document filter).mapError EvaluationError.withoutPath
    Path.resolve document "rows" = .ok (.array items) ∧ items.length ≤ Digits.wordBound ∧
      predicate.KeepsRoot ∧
      predicate.atElement 1 "rows" 0 = .connective .disjunction
        [tagged (.field 0 "rows[0].tags"), numbered (.field 0 "rows[0]id")] ∧
      verdict (.quantifier .any 1 (.field 0 "rows") predicate) =
        verdict (.connective .disjunction
          [predicate.atElement 1 "rows" 0, predicate.atElement 1 "rows" 1]) ∧
      verdict (.quantifier .every 1 (.field 0 "rows") predicate) =
        verdict (.connective .conjunction
          [predicate.atElement 1 "rows" 0, predicate.atElement 1 "rows" 1]) := by
  intro items document tagged numbered predicate verdict
  have found : Path.resolve document "rows" = .ok (.array items) := by cbv
  have countable : items.length ≤ Digits.wordBound := by decide
  have keeps : predicate.KeepsRoot := by
    intro kind source inner occurs
    simp [predicate, tagged, numbered, Expression.nodes, Expression.nodesAmong, rootSlot] at occurs
  have unrolled := @quantifiers_unroll document "rows" items 1 predicate found countable keeps 64
  exact ⟨found, countable, keeps, by cbv, unrolled.1, unrolled.2 (List.cons_ne_nil _ _)⟩

end Evaluation

end JsonSieve
