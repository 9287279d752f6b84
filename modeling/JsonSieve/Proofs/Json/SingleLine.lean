import JsonSieve.Json.Text
import JsonSieve.Proofs.Decimal.Shortest

/-!
# Values on a single line

The compact text of a value holds no control character, whatever the strings in it: in a string,
control characters are escaped, and nothing else that is written is one.  In particular it holds no
line feed.
-/

namespace JsonSieve.Json

/-- Characters of which none is a control character of ASCII below the blank. -/
def NoControls (characters : List Char) : Prop :=
  ∀ character ∈ characters, 0x20 ≤ character.toNat

variable {characters others : List Char}

theorem noControls_append :
    NoControls (characters ++ others) ↔ NoControls characters ∧ NoControls others :=
  List.forall_mem_append

theorem noControls_cons {first : Char} :
    NoControls (first :: others) ↔ 0x20 ≤ first.toNat ∧ NoControls others :=
  List.forall_mem_cons

theorem noControls_nil : NoControls [] :=
  fun _ member => absurd member List.not_mem_nil

theorem noControls_of_all (printable : characters.all fun character => 0x20 ≤ character.toNat) :
    NoControls characters := fun character member =>
  of_decide_eq_true (List.all_eq_true.mp printable character member)

theorem NoControls.notMem (noControls : NoControls characters) {character : Char}
    (control : character.toNat < 0x20) : character ∉ characters :=
  fun member => absurd (noControls character member) (not_le.mpr control)

theorem noControls_escaped (character : Char) : NoControls (escaped character) := by
  have control : ∀ code < 0x20, (['\\', 'u', '0', '0'] ++ twoHexDigits code).all
      fun digit => 0x20 ≤ digit.toNat := by decide
  unfold escaped
  split_ifs with quote backslash printable backspace tab lineFeed formFeed carriageReturn
  all_goals try exact noControls_of_all (by decide)
  · exact List.forall_mem_singleton.mpr printable
  · exact noControls_of_all (control character.toNat (not_le.mp printable))

theorem noControls_quoted (text : String) : NoControls (quoted text) := by
  refine noControls_cons.mpr ⟨by decide, noControls_append.mpr ⟨fun character member => ?_, ?_⟩⟩
  · obtain ⟨source, -, member⟩ := List.mem_flatMap.mp member
    exact noControls_escaped source character member
  · exact List.forall_mem_singleton.mpr (by decide)

theorem noControls_digits (digital : ∀ digit ∈ characters, digit.isDigit) :
    NoControls characters := fun digit member =>
  le_trans (by decide) (Decimal.toNat_of_isDigit (digital digit member)).1

theorem noControls_replicate (zeros : Nat) : NoControls (List.replicate zeros '0') :=
  noControls_digits fun _ member => by rw [List.eq_of_mem_replicate member]; rfl

theorem noControls_decimal {decimal : Decimal} (digital : ∀ digit ∈ decimal.digits, digit.isDigit)
    (style : Decimal.Style) : NoControls (decimal.written style) := by
  have front : ∀ places, NoControls (decimal.digits.take places) := fun places =>
    noControls_digits fun digit member => digital digit (List.mem_of_mem_take member)
  have back : ∀ places, NoControls (decimal.digits.drop places) := fun places =>
    noControls_digits fun digit member => digital digit (List.mem_of_mem_drop member)
  have exponent : NoControls (Digits.ofNat decimal.exponent.natAbs) :=
    noControls_digits fun _ => Digits.isDigit_of_mem_ofNat
  unfold Decimal.written Decimal.positional Decimal.scientific
  dsimp only
  split_ifs <;>
    simp only [noControls_cons, noControls_append, noControls_nil, noControls_replicate, front,
      back, exponent, noControls_digits digital] <;>
    decide

theorem noControls_writtenNumber (number : Number) : NoControls (writtenNumber number) := by
  have digits : ∀ value, NoControls (Digits.ofNat value) := fun value =>
    noControls_digits fun _ => Digits.isDigit_of_mem_ofNat
  have magnitude : ∀ rank, NoControls (writtenMagnitude rank) := by
    intro rank
    unfold writtenMagnitude
    split_ifs with zero
    · exact noControls_of_all (by decide)
    · exact noControls_decimal (Decimal.proper_shortest (Nat.pos_of_ne_zero zero)).digital _
  cases number with
  | integer value =>
      rw [writtenNumber, writtenInteger]
      split_ifs
      · exact noControls_cons.mpr ⟨by decide, digits _⟩
      · exact digits _
  | float value =>
      rw [writtenNumber, writtenFloat]
      split_ifs
      · exact noControls_cons.mpr ⟨by decide, magnitude _⟩
      · exact magnitude _
      · exact noControls_of_all (by decide)

theorem noControls_commaSeparated {pieces : List (List Char)}
    (each : ∀ piece ∈ pieces, NoControls piece) : NoControls (commaSeparated pieces) := by
  induction pieces using commaSeparated.induct with
  | case1 => exact noControls_nil
  | case2 piece => exact each piece (List.mem_singleton_self piece)
  | case3 piece next pieces ih =>
      rw [List.forall_mem_cons] at each
      exact noControls_append.mpr ⟨each.1, noControls_cons.mpr ⟨by decide, ih each.2⟩⟩

namespace Value

mutual

theorem noControls_written : (value : Value) → NoControls value.written
  | .null | .boolean true | .boolean false => noControls_of_all (by decide)
  | .number value => noControls_writtenNumber value
  | .string text => noControls_quoted text
  | .array items =>
      noControls_cons.mpr ⟨by decide, noControls_append.mpr
        ⟨noControls_commaSeparated (noControls_writtenItems items),
          List.forall_mem_singleton.mpr (by decide)⟩⟩
  | .object members =>
      noControls_cons.mpr ⟨by decide, noControls_append.mpr
        ⟨noControls_commaSeparated (noControls_writtenMembers members),
          List.forall_mem_singleton.mpr (by decide)⟩⟩

theorem noControls_writtenItems :
    (items : List Value) → ∀ piece ∈ writtenItems items, NoControls piece
  | [] => fun _ member => absurd member List.not_mem_nil
  | item :: items =>
      List.forall_mem_cons.mpr ⟨noControls_written item, noControls_writtenItems items⟩

theorem noControls_writtenMembers :
    (members : List (String × Value)) → ∀ piece ∈ writtenMembers members, NoControls piece
  | [] => fun _ member => absurd member List.not_mem_nil
  | (key, value) :: members =>
      List.forall_mem_cons.mpr ⟨noControls_append.mpr
        ⟨noControls_quoted key, noControls_cons.mpr ⟨by decide, noControls_written value⟩⟩,
          noControls_writtenMembers members⟩

end

end Value

end JsonSieve.Json
