import JsonSieve.Text.Utf8

/-!
# Texts and their UTF-8 forms

Octets are decoded to a text exactly if they are its UTF-8 form, and texts are in the order of these
forms.  In the UTF-8 form an ASCII character is a single octet, and the octets of other characters
are none of ASCII.
-/

namespace JsonSieve.Utf8

theorem toByteArray_encode (text : String) : (encode text).toByteArray = text.toByteArray := by
  rw [← String.utf8Encode_toList]
  rfl

theorem decode?_eq_some_iff {octets : Bytes} {text : String} :
    decode? octets = some text ↔ octets = encode text := by
  constructor
  · intro decoded
    by_cases valid : octets.toByteArray.IsValidUTF8
    · rw [decode?, String.fromUTF8?, dif_pos valid, Option.some.injEq] at decoded
      rw [← List.toByteArray_inj, toByteArray_encode, ← decoded]
      rfl
    · rw [decode?, String.fromUTF8?, dif_neg valid] at decoded
      cases decoded
  · rintro rfl
    rw [decode?, toByteArray_encode, String.fromUTF8?, dif_pos text.isValidUTF8]
    rfl

instance : Std.TransCmp compareTexts where
  eq_swap {_ _} := @Std.OrientedCmp.eq_swap Bytes (List.compareLex compare) _ _ _
  isLE_trans {_ _ _} := @Std.TransCmp.isLE_trans Bytes (List.compareLex compare) _ _ _ _

/-- Texts are ordered as the lists of their octets are: by the first octet that differs, and a
proper beginning comes first. -/
theorem compareTexts_eq_lt_iff {first second : String} :
    compareTexts first second = .lt ↔ encode first < encode second := by
  rw [compareTexts]
  generalize encode first = octets, encode second = others
  induction octets generalizing others with
  | nil => cases others <;> simp [List.compareLex]
  | cons octet octets ih =>
      cases others with
      | nil => simp [List.compareLex]
      | cons other others =>
          rw [List.compareLex_cons_cons, List.cons_lt_cons_iff, ← ih]
          cases order : compare octet other with
          | lt => simp [Std.compare_eq_lt.mp order]
          | eq =>
              obtain rfl := Std.LawfulEqCmp.eq_of_compare order
              simp
          | gt =>
              have greater := Std.compare_eq_gt.mp order
              simp [UInt8.lt_asymm greater, (UInt8.ne_of_lt greater).symm]

theorem compareTexts_eq_eq_iff {first second : String} :
    compareTexts first second = .eq ↔ encode first = encode second :=
  @Std.LawfulEqCmp.compare_eq_iff_eq Bytes (List.compareLex compare) _ _ _

def octetsOf (characters : List Char) : Bytes :=
  characters.flatMap String.utf8EncodeChar

theorem octetsOf_append (first second : List Char) :
    octetsOf (first ++ second) = octetsOf first ++ octetsOf second :=
  List.flatMap_append

theorem octetsOf_cons (character : Char) (characters : List Char) :
    octetsOf (character :: characters) = String.utf8EncodeChar character ++ octetsOf characters :=
  List.flatMap_cons

theorem forall_mem_octetsOf {characters : List Char} {property : UInt8 → Prop}
    (each : ∀ character ∈ characters,
      ∃ octet, String.utf8EncodeChar character = [octet] ∧ property octet) :
    ∀ octet ∈ octetsOf characters, property octet := by
  intro octet member
  obtain ⟨character, isMember, member⟩ := List.mem_flatMap.mp member
  obtain ⟨own, isOwn, holds⟩ := each character isMember
  rw [isOwn, List.mem_singleton] at member
  exact member ▸ holds

theorem utf8EncodeChar_of_lt {character : Char} (ascii : character.toNat < 0x80) :
    String.utf8EncodeChar character = [UInt8.ofNat character.toNat] := by
  have small : character.val.toNat ≤ 127 := Nat.le_of_lt_succ ascii
  rw [String.utf8EncodeChar, if_pos small]
  rfl

theorem toNat_of_mem_utf8EncodeChar {character : Char} {octet : UInt8}
    (member : octet ∈ String.utf8EncodeChar character) (ascii : octet.toNat < 0x80) :
    character.toNat = octet.toNat := by
  -- The octets of every other character have their highest bit set.
  have high : ∀ code, code < 0x80 → ¬(UInt8.ofNat (code + 0x80)).toNat < 0x80 := by
    intro code small
    simp only [UInt8.toNat_ofNat']
    omega
  by_cases small : character.toNat < 0x80
  · rw [utf8EncodeChar_of_lt small, List.mem_singleton] at member
    subst member
    simp only [UInt8.toNat_ofNat']
    omega
  · have notSmall : ¬character.val.toNat ≤ 127 := fun le => small (Nat.lt_succ_of_le le)
    simp only [String.utf8EncodeChar, if_neg notSmall] at member
    grind

end JsonSieve.Utf8
