import JsonSieve.Proofs.Evaluation.Meaning
import JsonSieve.Proofs.Fallible
import JsonSieve.Proofs.Json.Numbers
import JsonSieve.Proofs.Path.Following
import JsonSieve.Proofs.Scalar.Order

/-!
# The numbers that an evaluation meets

The numbers in a document that has been read can be read, and so are those in all its parts: the
values to which paths lead and the elements over which quantifiers range.  So whatever an evaluation
finds in a document and compares is a number if it looks like one, and only a constant of the filter
can be none.
-/

namespace JsonSieve

namespace Binary64

theorem isNaN_eq_false_of_isFinite {number : Binary64} (finite : number.isFinite) :
    number.isNaN = false := by
  simp only [isFinite, isNaN, decide_eq_true_eq, decide_eq_false_iff_not] at finite ⊢
  omega

end Binary64

open Json

theorem Scalar.isNaN_eq_false_of_readable {value : Value} (readable : value.Readable)
    {scalar : Scalar} (isScalar : Scalar.ofJson? value = some scalar) : scalar.isNaN = false := by
  cases readable with
  | @number number readable =>
      cases isScalar
      cases number with
      | integer integer =>
          rw [Scalar.ofNumber]
          split
          · rfl
          · exact isNaN_ofInt integer
      | float number => exact Binary64.isNaN_eq_false_of_isFinite readable
  | _ => cases isScalar <;> rfl

namespace Path

theorem readable_of_child? {value child : Value} (readable : value.Readable) {step : Step}
    (found : child? value step = some child) : child.Readable := by
  unfold child? at found
  split at found
  · cases readable with
    | object each =>
        obtain ⟨member, isMember, rfl⟩ := Option.map_eq_some_iff.mp found
        exact each member (List.mem_of_find?_eq_some isMember)
  · cases readable with
    | array each => exact each child (List.mem_of_getElem? found)
  · cases found

theorem readable_of_follow {whole : String} {value target : Value} (readable : value.Readable)
    {input : List Char} (followed : follow whole value input = .ok target) : target.Readable := by
  induction value, input using follow_induction with
  | arrived value =>
      rw [follow_nil] at followed
      exact Except.ok.inj followed ▸ readable
  | unreadable value input nonempty unreadable =>
      rw [follow_of_unreadable nonempty unreadable] at followed
      cases followed
  | astray value input step rest read noChild =>
      rw [follow_of_readStep read, noChild] at followed
      cases followed
  | onward value input step rest child read found ih =>
      rw [follow_of_readStep read, found] at followed
      exact ih (readable_of_child? readable found) followed

end Path

/-- The numbers in every slot can be read. -/
def Environment.Readable (environment : Environment) : Prop :=
  ∀ slot value, environment slot = some value → value.Readable

namespace Environment

variable {environment : Environment}

theorem readable_ofDocument {document : Value} (readable : document.Readable) :
    (ofDocument document).Readable := by
  intro slot value held
  rw [ofDocument] at held
  split at held
  · exact Option.some.inj held ▸ readable
  · cases held

theorem Readable.put (readable : environment.Readable) (slot : Nat) {item : Value}
    (own : item.Readable) : (environment.put slot item).Readable := by
  intro other value held
  by_cases same : other = slot
  · rw [same, put_self] at held
    exact Option.some.inj held ▸ own
  · rw [put_of_ne same] at held
    exact readable other value held

theorem Readable.fieldValue (readable : environment.Readable) {slot : Nat} {path : String}
    {value : Value} (found : environment.fieldValue slot path = .ok value) : value.Readable := by
  rw [Environment.fieldValue] at found
  split at found
  · next start held =>
      cases followed : Path.resolve start path with
      | error error => rw [followed] at found; cases found
      | ok target =>
          rw [followed] at found
          exact Except.ok.inj found ▸ Path.readable_of_follow (readable slot start held) followed
  · cases found

theorem Readable.isNaN_operand (readable : environment.Readable) {expression : Expression}
    (constants : ∀ number, expression = .literal (.float number) → number.isNaN = false)
    {scalar : Scalar} (found : environment.operand expression = .ok scalar) :
    scalar.isNaN = false := by
  cases expression with
  | field slot path =>
      obtain ⟨value, found, isScalar⟩ := Fallible.bind_eq_ok_iff.mp found
      split at isScalar
      · next own isOwn =>
          cases isScalar
          exact Scalar.isNaN_eq_false_of_readable (readable.fieldValue found) isOwn
      · cases isScalar
  | literal value =>
      cases found
      cases scalar with
      | float number => exact constants number rfl
      | _ => rfl
  | _ => cases found

theorem Readable.elements (readable : environment.Readable) {source : Expression}
    {items : List Value} (found : environment.elements source = .ok items) :
    ∀ item ∈ items, item.Readable := by
  cases source with
  | field slot path =>
      obtain ⟨value, found, isArray⟩ := Fallible.bind_eq_ok_iff.mp found
      have whole := readable.fieldValue found
      split at isArray
      · cases isArray
        cases whole with
        | array each => exact each
      · cases isArray
  | _ => cases found

end Environment

end JsonSieve
