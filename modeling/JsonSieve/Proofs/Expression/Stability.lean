import JsonSieve.Proofs.Expression.Printing
import JsonSieve.Proofs.Json.Numbers

/-!
# Printing filters that were read

A filter that was read can always be printed and read again, because its slots, its levels and its
floating point constants are within the limits.  What is read the second time is the filter with its
constants read again.  It is the same filter if each of its floating point constants is read from
its shortest decimal as an equal number.  Short decimals are; others need not be.
-/

namespace JsonSieve

namespace Expression

theorem finite_of_spellsScalar {argument : Json.Value} {value : Scalar}
    (spells : SpellsScalar argument value) (readable : argument.Readable) :
    (Expression.literal value).EachFloat fun number => number.isFinite := by
  rw [eachFloat_literal]
  rintro number rfl
  cases spells with
  | wideInteger value wide =>
      cases readable with
      | number range => exact Binary64.isFinite_ofInt (by rw [Json.Number.Readable] at range; omega)
  | float value =>
      cases readable with
      | number finite => exact finite

theorem exists_wireForm_child {arguments : List Json.Value} {children : List Expression}
    (each : List.Forall₂ WireForm arguments children)
    (readable : ∀ argument ∈ arguments, argument.Readable) :
    ∀ child ∈ children, ∃ argument, WireForm argument child ∧ argument.Readable := by
  induction each with
  | nil => simp
  | cons form others ih =>
      rw [List.forall_mem_cons] at readable ⊢
      exact ⟨⟨_, form, readable.1⟩, ih readable.2⟩

theorem exists_wireForm_part {value : Json.Value} {expression part : Expression}
    (form : WireForm value expression) (readable : value.Readable)
    (member : part ∈ expression.parts) :
    ∃ argument, WireForm argument part ∧ argument.Readable := by
  cases form with
  | application form =>
      cases readable with
      | array each =>
          have readable := (List.forall_mem_cons.mp each).2
          cases form with
          | connective kind each => exact exists_wireForm_child each readable part member
          | negation form =>
              obtain rfl := List.mem_singleton.mp member
              exact ⟨_, form, readable _ (by simp)⟩
          | comparison kind left right =>
              rcases List.mem_pair.mp member with rfl | rfl
              · exact ⟨_, left, readable _ (by simp)⟩
              · exact ⟨_, right, readable _ (by simp)⟩
          | quantifier kind spells own left right =>
              rcases List.mem_pair.mp member with rfl | rfl
              · exact ⟨_, left, readable _ (by simp)⟩
              · exact ⟨_, right, readable _ (by simp)⟩
          | _ => cases member

/-- The floating point constants of a written filter are finite if its numbers can be read. -/
theorem finite_of_wireForm {value : Json.Value} {expression : Expression}
    (form : WireForm value expression) (readable : value.Readable) :
    expression.EachFloat fun number => number.isFinite := by
  induction expression using induction_parts generalizing value with
  | step expression ih =>
      have inParts : ∀ part ∈ expression.parts, part.EachFloat fun number => number.isFinite := by
        intro part member
        obtain ⟨argument, form, readable⟩ := exists_wireForm_part form readable member
        exact ih part member form readable
      cases expression with
      | literal constant =>
          cases form with
          | application form =>
              cases readable with
              | array each =>
                  cases form with
                  | literal spells =>
                      exact finite_of_spellsScalar spells (each _ (by simp))
      | _ => exact (eachFloat_iff (by simp)).mpr inParts

theorem writable_of_parse {octets : Bytes} {filter : Expression}
    (accepted : parse octets = .ok filter) : filter.Writable ∧ filter.depth ≤ depthLimit := by
  rw [parse] at accepted
  split at accepted
  · next value read =>
      obtain ⟨depth, slots, keepsRoot⟩ := bounds_of_ofValue accepted
      have form := (((ofJson_iff depthLimit _).1 filter).mp accepted).1
      have readable := (Json.readable_of_ofBytes? read).settled
      exact ⟨⟨slots, keepsRoot, finite_of_wireForm form readable⟩, depth⟩
  · cases accepted

theorem reread_eq_self_of_short {filter : Expression} (writable : filter.Writable)
    (short : filter.EachFloat Binary64.IsShort) : filter.reread = filter :=
  reread_eq_self fun number occurs =>
    (Binary64.read?_writtenFloat (writable.finite number occurs)).2.2 (short number occurs)

/-- A filter that was read is printed and read again with equal constants exactly if its floating
point constants are read from their shortest decimals as equal numbers, as short decimals are. -/
theorem printed_filter_read_again {octets : Bytes} {filter : Expression}
    (accepted : parse octets = .ok filter) :
    parse (Utf8.encode filter.text) = .ok filter.reread ∧
    (filter.reread.agrees filter = true ↔
      filter.EachFloat fun number => number.reread.equals number = true) ∧
    (filter.EachFloat Binary64.IsShort → filter.reread = filter) := by
  obtain ⟨writable, within⟩ := writable_of_parse accepted
  exact ⟨writable.parse_text_eq_ok within, agrees_reread_iff, reread_eq_self_of_short writable⟩

theorem writable_float {number : Binary64} (finite : number.isFinite) :
    (Expression.literal (.float number)).Writable where
  slots := Nat.zero_le _
  keepsRoot := by simp [KeepsRoot, nodes]
  finite := eachFloat_literal.mpr fun _ same => Scalar.float.inj same ▸ finite

/-- The filter that is the number two and a half. -/
def twoAndAHalf : Expression := .literal (.float (Binary64.ofBits 0x4004000000000000))

theorem short_twoAndAHalf : twoAndAHalf.EachFloat Binary64.IsShort := by
  have short : (Binary64.ofBits 0x4004000000000000).IsShort :=
    Or.inr ⟨by decide +kernel, by decide +kernel, by decide +kernel⟩
  exact eachFloat_literal.mpr fun _ same => Scalar.float.inj same ▸ short

theorem accepted_twoAndAHalf : parse (Utf8.encode twoAndAHalf.text) = .ok twoAndAHalf := by
  have writable : twoAndAHalf.Writable := writable_float (by decide)
  have accepted := writable.parse_text_eq_ok (by decide)
  rwa [reread_eq_self_of_short writable short_twoAndAHalf] at accepted

theorem printed_twoAndAHalf_read_again :
    parse (Utf8.encode twoAndAHalf.text) = .ok twoAndAHalf ∧
      twoAndAHalf.EachFloat Binary64.IsShort ∧ twoAndAHalf.reread = twoAndAHalf :=
  ⟨accepted_twoAndAHalf, short_twoAndAHalf,
    (printed_filter_read_again accepted_twoAndAHalf).2.2 short_twoAndAHalf⟩

/-- The floating point number nearest to `5e+32`, and the next one. -/
def fiveTimes1e32 : Binary64 := Binary64.ofBits 0x46b8a6e32246c99c

def afterFiveTimes1e32 : Binary64 := Binary64.ofBits 0x46b8a6e32246c99d

theorem reread_fiveTimes1e32 :
    fiveTimes1e32.reread = afterFiveTimes1e32 ∧ afterFiveTimes1e32.reread = fiveTimes1e32 := by
  decide +kernel

/-- A filter that is accepted and that is printed as the text of another filter. -/
theorem printed_filter_not_read_back :
    ∃ filter again, parse (Utf8.encode "[\"value\",5e+32]") = .ok filter ∧
      parse (Utf8.encode filter.text) = .ok again ∧ again.agrees filter = false := by
  obtain ⟨first, second⟩ := reread_fiveTimes1e32
  have text : (Expression.literal (.float fiveTimes1e32)).text = "[\"value\",5e+32]" := by
    decide +kernel
  have accepted := (writable_float (by decide : fiveTimes1e32.isFinite)).parse_text_eq_ok
    (by decide)
  have again := (writable_float (by decide : afterFiveTimes1e32.isFinite)).parse_text_eq_ok
    (by decide)
  rw [text, reread, Scalar.reread, first] at accepted
  rw [reread, Scalar.reread, second] at again
  exact ⟨_, _, accepted, again, by decide⟩

end Expression

end JsonSieve
