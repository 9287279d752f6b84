import JsonSieve.Proofs.Expression.Printing

/-!
# Reading printed filters

A printed expression is read as the expression with its constants read again.  So if its floating
point constants are read back then it is read as itself, as long as it keeps the limits on slots
and levels.
-/

namespace JsonSieve

namespace Expression

/-- The floating point constants of an expression are finite, and each is read back from its
written form. -/
def FloatsReadBack (expression : Expression) : Prop :=
  ∀ value, .literal (.float value) ∈ expression.nodes →
    value.isFinite ∧ (Json.Number.float value).ReadsBack

/-- An expression without a slot or a floating point constant that would not be read back. -/
structure Printable (expression : Expression) : Prop where
  slots : expression.highestSlot ≤ slotLimit
  keepsRoot : expression.KeepsRoot
  floats : expression.FloatsReadBack

namespace Printable

variable {expression : Expression}

theorem writable (printable : expression.Printable) : expression.Writable where
  slots := printable.slots
  keepsRoot := printable.keepsRoot
  finite := fun value occurs => (printable.floats value occurs).1

theorem wireForm (printable : expression.Printable) : WireForm expression.toJson expression :=
  printable.writable.wireForm

theorem firstOffence (printable : expression.Printable) {levels : Nat}
    (deep : levels < expression.depth) :
    FirstOffence levels expression.toJson (.tooDeep depthLimit) :=
  printable.writable.firstOffence deep

end Printable

theorem parse_text_of_fits {expression : Expression}
    (printable : expression.Printable) (within : expression.depth ≤ 127) :
    parse (Utf8.encode expression.text) = ofValue expression.toJson := by
  have same : expression.reread = expression := reread_eq_self fun value occurs =>
    Binary64.reread_of_readsBack (printable.floats value occurs).2
  rw [printable.writable.parse_text within, same]

/-- The printed form of an expression is read as this expression exactly if it keeps the limits on
levels and slots and the root slot.  With more levels it is refused for them. -/
theorem parse_encode_text (expression : Expression) (floats : expression.FloatsReadBack) :
    (parse (Utf8.encode expression.text) = .ok expression ↔
      expression.depth ≤ 64 ∧ expression.highestSlot ≤ 64 ∧ expression.KeepsRoot) ∧
    (expression.highestSlot ≤ 64 → expression.KeepsRoot →
      65 ≤ expression.depth → expression.depth ≤ 127 →
      parse (Utf8.encode expression.text) = .error (.tooDeep 64)) := by
  constructor
  · constructor
    · intro read
      rw [parse] at read
      split at read
      · next value _ => exact bounds_of_ofValue read
      · cases read
    · rintro ⟨within, slots, keepsRoot⟩
      have printable : expression.Printable := ⟨slots, keepsRoot, floats⟩
      rw [parse_text_of_fits printable (by omega)]
      exact ((ofJson_iff depthLimit _).1 expression).mpr ⟨printable.wireForm, within⟩
  · intro slots keepsRoot deep within
    have printable : expression.Printable := ⟨slots, keepsRoot, floats⟩
    rw [parse_text_of_fits printable within]
    exact ((ofJson_iff depthLimit _).2 _).mpr (printable.firstOffence deep)

/-- Some row has a balance that is not less than zero with a minus. -/
def someBalance : Expression :=
  .quantifier .any 1 (.field 0 "rows")
    (.comparison .greaterOrEqual (.field 1 "balance") (.literal (.float Binary64.zero.negate)))

theorem readsBack_negativeZero : (Json.Number.float Binary64.zero.negate).ReadsBack := by
  refine ⟨⟨true, ['0'], ['0'], none⟩, by decide, ?_⟩
  have quotient : Json.Numeral.dividedByPower (Binary64.ofNat 0) 1 = Binary64.zero := by
    rw [Json.Numeral.dividedByPower]
    decide +kernel
  simp [Json.Numeral.value?, Json.Numeral.integer?, Json.Numeral.magnitude?,
    Json.Numeral.appendDigits, Json.Numeral.scaled?, Digits.value, Json.Numeral.significandBound,
    quotient]

theorem floatsReadBack_someBalance : someBalance.FloatsReadBack := by
  intro value occurs
  obtain rfl : value = Binary64.zero.negate := by
    simpa [someBalance, nodes] using occurs
  exact ⟨by decide, readsBack_negativeZero⟩

theorem parse_encode_text_someBalance :
    someBalance.FloatsReadBack ∧
      parse (Utf8.encode someBalance.text) = .ok someBalance := by
  refine ⟨floatsReadBack_someBalance,
    (parse_encode_text someBalance floatsReadBack_someBalance).1.mpr ⟨?_, ?_, ?_⟩⟩
  · decide
  · decide
  · simp [KeepsRoot, someBalance, nodes, rootSlot]

end Expression

end JsonSieve
