import JsonSieve.Proofs.Json.Numeral
import JsonSieve.Proofs.Text.Utf8
import JsonSieve.Proofs.Token.Grammar
import JsonSieve.Json.Reader

/-!
# Numbers and strings as octets

What the reader takes for a number or for a string is, octet by octet, the spelling of a token.  A
string that holds no escape stands for its own characters.
-/

namespace JsonSieve.Json

open Utf8

namespace Numeral

variable {input rest digits : List Char}

theorem exists_digit_octet {character : Char} (digit : character.isDigit) :
    ∃ octet, String.utf8EncodeChar character = [octet] ∧ Lexer.isDigit octet ∧
      (character ≠ '0' → octet ≠ 0x30) := by
  have each : ∀ code < 0x80, (Char.ofNat code).isDigit →
      Lexer.isDigit (UInt8.ofNat code) ∧ (Char.ofNat code ≠ '0' → UInt8.ofNat code ≠ 0x30) := by
    decide
  have ascii : character.toNat < 0x80 := by
    simp only [Char.isDigit, Bool.and_eq_true, decide_eq_true_eq, UInt32.le_iff_toNat_le] at digit
    exact Nat.lt_of_le_of_lt digit.2 (by decide)
  have own := each character.toNat ascii
  rw [character.ofNat_toNat] at own
  exact ⟨_, utf8EncodeChar_of_lt ascii, own digit⟩

theorem allDigits_octetsOf (digital : ∀ digit ∈ digits, digit.isDigit) :
    Lexer.AllDigits (octetsOf digits) :=
  forall_mem_octetsOf fun digit member =>
    (exists_digit_octet (digital digit member)).imp fun _ own => ⟨own.1, own.2.1⟩

theorem digits_of_readDigits? (read : readDigits? input = some (digits, rest)) :
    input = digits ++ rest ∧ Lexer.Digits (octetsOf digits) := by
  obtain ⟨split, nonempty, digital, -⟩ := readDigits?_eq_some_iff.mp read
  obtain ⟨first, others, rfl⟩ := List.exists_cons_of_ne_nil nonempty
  refine ⟨split, ?_, allDigits_octetsOf digital⟩
  rw [octetsOf_cons]
  exact List.append_ne_nil_of_left_ne_nil String.utf8EncodeChar_ne_nil _

theorem whole_of_readWhole? (read : readWhole? input = some (digits, rest)) :
    input = digits ++ rest ∧ Lexer.Whole (octetsOf digits) := by
  unfold readWhole? at read
  split at read
  · cases read
    exact ⟨rfl, .zero⟩
  · next noZero =>
      obtain ⟨split, nonempty, digital, -⟩ := readDigits?_eq_some_iff.mp read
      obtain ⟨first, others, rfl⟩ := List.exists_cons_of_ne_nil nonempty
      rw [List.forall_mem_cons] at digital
      have nonzero : first ≠ '0' := fun zero => noZero (others ++ rest) (by rw [split, zero]; rfl)
      obtain ⟨octet, isOctet, isDigit, positive⟩ := exists_digit_octet digital.1
      refine ⟨split, ?_⟩
      rw [octetsOf_cons, isOctet]
      exact .positive octet _ isDigit (positive nonzero) (allDigits_octetsOf digital.2)

theorem fraction_of_readFraction? (read : readFraction? input = some (digits, rest)) :
    ∃ word, input = word ++ rest ∧ Lexer.Fraction (octetsOf word) := by
  unfold readFraction? at read
  split at read
  · next others =>
      obtain ⟨rfl, digital⟩ := digits_of_readDigits? read
      exact ⟨'.' :: digits, rfl, .present _ digital⟩
  · cases read
    exact ⟨[], rfl, .absent⟩

theorem exists_sign_of_readSign (input : List Char) :
    ∃ sign, input = sign ++ (readSign input).2 ∧ (sign = [] ∨ sign = ['+'] ∨ sign = ['-']) := by
  unfold readSign
  split
  · exact ⟨['+'], rfl, Or.inr (Or.inl rfl)⟩
  · unfold readMinus
    split
    · exact ⟨['-'], rfl, Or.inr (Or.inr rfl)⟩
    · exact ⟨[], rfl, Or.inl rfl⟩

theorem exponent_of_readExponent? {exponent : Option (Bool × List Char)}
    (read : readExponent? input = some (exponent, rest)) :
    ∃ word, input = word ++ rest ∧ Lexer.Exponent (octetsOf word) := by
  cases input with
  | nil =>
      cases read
      exact ⟨[], rfl, .absent⟩
  | cons letter others =>
      simp only [readExponent?] at read
      split at read
      · next isLetter =>
          obtain ⟨⟨digits, after⟩, readDigits, equal⟩ := Option.map_eq_some_iff.mp read
          cases equal
          obtain ⟨sign, split, isSign⟩ := exists_sign_of_readSign others
          obtain ⟨splitDigits, digital⟩ := digits_of_readDigits? readDigits
          have signed : Lexer.SignedDigits (octetsOf (sign ++ digits)) := by
            rw [octetsOf_append]
            rcases isSign with rfl | rfl | rfl
            · exact .unsigned _ digital
            · exact .signed 0x2b _ (Or.inl rfl) digital
            · exact .signed 0x2d _ (Or.inr rfl) digital
          refine ⟨letter :: (sign ++ digits), ?_, ?_⟩
          · rw [List.cons_append, List.append_assoc, ← splitDigits, ← split]
          · simp only [Bool.or_eq_true, decide_eq_true_eq] at isLetter
            rcases isLetter with rfl | rfl
            · exact .present 0x65 _ (Or.inr rfl) signed
            · exact .present 0x45 _ (Or.inl rfl) signed
      · cases read
        exact ⟨[], rfl, .absent⟩

/-- What is read as a numeral is spelled as one. -/
theorem numeral_of_read? {numeral : Numeral} (read : read? input = some (numeral, rest)) :
    ∃ word, input = word ++ rest ∧ Lexer.Numeral (octetsOf word) := by
  simp only [read?, Option.bind_eq_bind, Option.bind_eq_some_iff, Prod.exists, Option.pure_def,
    Option.some.injEq, Prod.mk.injEq] at read
  obtain ⟨whole, afterWhole, readWhole, fraction, afterFraction, readFraction, exponent,
    afterExponent, readExponent, -, rfl⟩ := read
  obtain ⟨splitWhole, isWhole⟩ := whole_of_readWhole? readWhole
  obtain ⟨fractional, rfl, isFraction⟩ := fraction_of_readFraction? readFraction
  obtain ⟨exponential, rfl, isExponent⟩ := exponent_of_readExponent? readExponent
  have magnitude : Lexer.Magnitude (octetsOf (whole ++ fractional ++ exponential)) := by
    rw [octetsOf_append, octetsOf_append]
    exact .mk _ _ _ isWhole isFraction isExponent
  rw [← List.append_assoc, ← List.append_assoc] at splitWhole
  unfold readMinus at splitWhole
  split at splitWhole
  · exact ⟨'-' :: (whole ++ fractional ++ exponential), congrArg (List.cons '-') splitWhole,
      .negative _ magnitude⟩
  · exact ⟨whole ++ fractional ++ exponential, splitWhole, .unsigned _ magnitude⟩

end Numeral

namespace Reader

variable {input rest : List Char} {character : Char}

def StandsInside (word : List Char) : Prop :=
  ∀ body, Lexer.StringBody body → Lexer.StringBody (octetsOf word ++ body)

theorem stringBody_append_of_plain {word body : Bytes}
    (plain : ∀ octet ∈ word, octet ≠ 0x22 ∧ octet ≠ 0x5c) (isBody : Lexer.StringBody body) :
    Lexer.StringBody (word ++ body) := by
  induction word with
  | nil => exact isBody
  | cons octet word ih =>
      rw [List.forall_mem_cons] at plain
      exact .octet octet _ plain.1.1 plain.1.2 (ih plain.2)

theorem standsInside_singleton (noQuote : character ≠ '"') (noBackslash : character ≠ '\\') :
    StandsInside [character] := by
  have same : ∀ octet ∈ String.utf8EncodeChar character, octet.toNat < 0x80 →
      character = Char.ofNat octet.toNat := by
    intro octet member ascii
    rw [← toNat_of_mem_utf8EncodeChar member ascii, character.ofNat_toNat]
  intro body isBody
  rw [octetsOf, List.flatMap_singleton]
  refine stringBody_append_of_plain (fun octet member => ⟨?_, ?_⟩) isBody
  · rintro rfl
    exact noQuote (same _ member (by decide))
  · rintro rfl
    exact noBackslash (same _ member (by decide))

theorem exists_hexDigit_octet {value : Nat} (isValue : hexValue? character = some value) :
    ∃ octet, String.utf8EncodeChar character = [octet] ∧ Lexer.isHexDigit octet := by
  have each : ∀ code < 0x80, (hexValue? (Char.ofNat code)).isSome →
      Lexer.isHexDigit (UInt8.ofNat code) := by
    decide
  have ascii : character.toNat < 0x80 := by
    have code : character.toNat = character.val.toNat := rfl
    simp only [hexValue?, Char.le_def, UInt32.le_iff_toNat_le] at isValue
    grind
  have own := each character.toNat ascii
  rw [character.ofNat_toNat, isValue] at own
  exact ⟨_, utf8EncodeChar_of_lt ascii, own rfl⟩

theorem hexDigits_of_readFourHex? {code : Nat} (read : readFourHex? input = some (code, rest)) :
    ∃ digits, input = digits ++ rest ∧ (octetsOf digits).length = 4 ∧
      ∀ octet ∈ octetsOf digits, Lexer.isHexDigit octet := by
  unfold readFourHex? at read
  split at read
  · next first second third fourth after =>
      simp only [Option.bind_eq_bind, Option.bind_eq_some_iff, Option.pure_def,
        Option.some.injEq, Prod.mk.injEq] at read
      obtain ⟨_, isFirst, _, isSecond, _, isThird, _, isFourth, -, rfl⟩ := read
      obtain ⟨firstOctet, first, firstDigit⟩ := exists_hexDigit_octet isFirst
      obtain ⟨secondOctet, second, secondDigit⟩ := exists_hexDigit_octet isSecond
      obtain ⟨thirdOctet, third, thirdDigit⟩ := exists_hexDigit_octet isThird
      obtain ⟨fourthOctet, fourth, fourthDigit⟩ := exists_hexDigit_octet isFourth
      refine ⟨[_, _, _, _], rfl, ?_⟩
      simp [octetsOf, first, second, third, fourth, firstDigit, secondDigit, thirdDigit,
        fourthDigit]
  · cases read

theorem standsInside_unicode {digits word : List Char} (long : (octetsOf digits).length = 4)
    (digital : ∀ octet ∈ octetsOf digits, Lexer.isHexDigit octet) (inside : StandsInside word) :
    StandsInside ('\\' :: 'u' :: (digits ++ word)) := by
  intro body isBody
  have split : octetsOf ('\\' :: 'u' :: (digits ++ word)) ++ body =
      0x5c :: 0x75 :: (octetsOf digits ++ (octetsOf word ++ body)) := by
    rw [octetsOf_cons, octetsOf_cons, octetsOf_append]
    simp only [List.append_assoc]
    rfl
  rw [split]
  exact .unicode _ _ long digital (inside body isBody)

theorem standsInside_nil : StandsInside [] :=
  fun _ isBody => isBody

theorem standsInside_of_readUnicodeEscape?
    (read : readUnicodeEscape? input = some (character, rest)) :
    ∃ word, input = word ++ rest ∧ StandsInside ('\\' :: 'u' :: word) := by
  simp only [readUnicodeEscape?, Option.bind_eq_bind, Option.bind_eq_some_iff] at read
  obtain ⟨⟨code, between⟩, readCode, read⟩ := read
  obtain ⟨digits, rfl, long, digital⟩ := hexDigits_of_readFourHex? readCode
  dsimp only at read
  split at read
  · split at read
    · next afterEscape =>
        simp only [Option.bind_eq_some_iff] at read
        obtain ⟨⟨low, after⟩, readLow, read⟩ := read
        obtain ⟨lowDigits, rfl, lowLong, lowDigital⟩ := hexDigits_of_readFourHex? readLow
        split at read
        · simp only [Option.pure_def, Option.some.injEq, Prod.mk.injEq] at read
          obtain ⟨-, rfl⟩ := read
          have second := standsInside_unicode lowLong lowDigital standsInside_nil
          refine ⟨digits ++ '\\' :: 'u' :: (lowDigits ++ []), by simp, ?_⟩
          exact standsInside_unicode long digital second
        · cases read
    · cases read
  · split at read
    · cases read
    · simp only [Option.pure_def, Option.some.injEq, Prod.mk.injEq] at read
      obtain ⟨-, rfl⟩ := read
      exact ⟨digits ++ [], by simp, standsInside_unicode long digital standsInside_nil⟩

theorem standsInside_simpleEscape {letter : Char}
    (escapes : simpleEscape? letter = some character) : StandsInside ['\\', letter] := by
  intro body isBody
  unfold simpleEscape? at escapes
  split at escapes
  case h_9 => cases escapes
  all_goals exact .escape _ body (by decide) isBody

/-- What is read as a character can stand inside a string, and holds a backslash unless it is the
character itself. -/
theorem standsInside_of_readCharacter? (read : readCharacter? input = some (character, rest)) :
    ∃ word, input = word ++ rest ∧ StandsInside word ∧
      (word = [character] ∨ 0x5c ∈ octetsOf word) := by
  unfold readCharacter? at read
  split at read
  · cases read
  · obtain ⟨word, rfl, inside⟩ := standsInside_of_readUnicodeEscape? read
    exact ⟨'\\' :: 'u' :: word, rfl, inside, Or.inr (List.mem_cons_self ..)⟩
  · next letter after noUnicode =>
      obtain ⟨found, escapes, equal⟩ := Option.map_eq_some_iff.mp read
      cases equal
      exact ⟨['\\', letter], rfl, standsInside_simpleEscape escapes,
        Or.inr (List.mem_cons_self ..)⟩
  · split at read
    · cases read
    · next plain =>
        cases read
        simp only [Bool.or_eq_true, decide_eq_true_eq, not_or] at plain
        exact ⟨[_], rfl, standsInside_singleton plain.1.1 plain.1.2, Or.inl rfl⟩

/-- What is read as the inside of a string is spelled as one, and holds a backslash unless it is
just the characters that are read. -/
theorem stringBody_of_readString? {characters : List Char}
    (read : readString? input = some (characters, rest)) :
    ∃ word, input = word ++ '"' :: rest ∧ Lexer.StringBody (octetsOf word) ∧
      (word = characters ∨ 0x5c ∈ octetsOf word) := by
  fun_induction readString? input generalizing characters with
  | case1 after =>
      cases read
      exact ⟨[], rfl, .nil, Or.inl rfl⟩
  | case2 input noQuote unreadable => cases read
  | case3 input noQuote character after readCharacter ih =>
      obtain ⟨⟨others, afterString⟩, readOthers, equal⟩ := Option.map_eq_some_iff.mp read
      cases equal
      obtain ⟨first, rfl, inside, firstOwn⟩ := standsInside_of_readCharacter? readCharacter
      obtain ⟨word, rfl, isBody, wordOwn⟩ := ih readOthers
      refine ⟨first ++ word, (List.append_assoc ..).symm, ?_, ?_⟩
      · rw [octetsOf_append]
        exact inside _ isBody
      · rw [octetsOf_append, List.mem_append]
        rcases firstOwn with rfl | backslash
        · rcases wordOwn with rfl | backslash
          · exact Or.inl rfl
          · exact Or.inr (Or.inr backslash)
        · exact Or.inr (Or.inl backslash)

end Reader

end JsonSieve.Json
