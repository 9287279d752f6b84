import JsonSieve.Token.Lexer
import Mathlib.Tactic.SplitIfs

/-!
# The grammar of tokens

The spellings of the tokens of each class, given without reference to the states of the lexer, and
for every state the octets that complete what has been read to a token.  The step function of the
lexer takes these sets of completions apart at their first octet.
-/

namespace JsonSieve

namespace Lexer

def AllDigits (word : Bytes) : Prop :=
  ∀ octet ∈ word, isDigit octet

def Digits (word : Bytes) : Prop :=
  word ≠ [] ∧ AllDigits word

/-- A zero, or digits that do not start with one. -/
inductive Whole : Bytes → Prop
  | zero : Whole [0x30]
  | positive (first : UInt8) (others : Bytes) :
      isDigit first → first ≠ 0x30 → AllDigits others → Whole (first :: others)

/-- A point and digits, or nothing. -/
inductive Fraction : Bytes → Prop
  | absent : Fraction []
  | present (digits : Bytes) : Digits digits → Fraction (0x2e :: digits)

/-- Digits, with a sign or without. -/
inductive SignedDigits : Bytes → Prop
  | unsigned (digits : Bytes) : Digits digits → SignedDigits digits
  | signed (sign : UInt8) (digits : Bytes) :
      sign = 0x2b ∨ sign = 0x2d → Digits digits → SignedDigits (sign :: digits)

/-- The letter `e` and digits that may have a sign, or nothing. -/
inductive Exponent : Bytes → Prop
  | absent : Exponent []
  | present (letter : UInt8) (digits : Bytes) :
      letter = 0x45 ∨ letter = 0x65 → SignedDigits digits → Exponent (letter :: digits)

/-- A numeral without its sign. -/
inductive Magnitude : Bytes → Prop
  | mk (whole fraction exponent : Bytes) :
      Whole whole → Fraction fraction → Exponent exponent →
        Magnitude (whole ++ fraction ++ exponent)

inductive Numeral : Bytes → Prop
  | unsigned (word : Bytes) : Magnitude word → Numeral word
  | negative (word : Bytes) : Magnitude word → Numeral (0x2d :: word)

/-- The inside of a string. -/
inductive StringBody : Bytes → Prop
  | nil : StringBody []
  | octet (octet : UInt8) (body : Bytes) :
      octet ≠ 0x22 → octet ≠ 0x5c → StringBody body → StringBody (octet :: body)
  | escape (octet : UInt8) (body : Bytes) :
      octet ∈ [0x62, 0x66, 0x6e, 0x72, 0x74, 0x5c, 0x2f, 0x22] → StringBody body →
        StringBody (0x5c :: octet :: body)
  | unicode (digits body : Bytes) :
      digits.length = 4 → (∀ digit ∈ digits, isHexDigit digit) → StringBody body →
        StringBody (0x5c :: 0x75 :: (digits ++ body))

/-- Whether a numeral shows by this octet that it may be no integer. -/
def MarksNumber (octet : UInt8) : Prop :=
  octet = 0x2e ∨ octet = 0x65 ∨ octet = 0x45

/-- Whether a string has to be decoded because of this octet. -/
def MarksEscaped (octet : UInt8) : Prop :=
  octet = 0x5c ∨ octet < 0x20 ∨ 0x7f ≤ octet

instance : DecidablePred MarksNumber :=
  fun octet => inferInstanceAs (Decidable (octet = 0x2e ∨ octet = 0x65 ∨ octet = 0x45))

instance : DecidablePred MarksEscaped :=
  fun octet => inferInstanceAs (Decidable (octet = 0x5c ∨ octet < 0x20 ∨ 0x7f ≤ octet))

def numeralKind (word : Bytes) : Token.Kind :=
  if ∃ octet ∈ word, MarksNumber octet then .number else .integer

def stringKind (body : Bytes) : Token.Kind :=
  if ∃ octet ∈ body, MarksEscaped octet then .escapedString else .string

/-- The spellings of the tokens of a class. -/
inductive Spells : Token.Kind → Bytes → Prop
  | openBrace : Spells .openBrace [0x7b]
  | closeBrace : Spells .closeBrace [0x7d]
  | colon : Spells .colon [0x3a]
  | openBracket : Spells .openBracket [0x5b]
  | closeBracket : Spells .closeBracket [0x5d]
  | comma : Spells .comma [0x2c]
  | trueWord : Spells .trueWord [0x74, 0x72, 0x75, 0x65]
  | falseWord : Spells .falseWord [0x66, 0x61, 0x6c, 0x73, 0x65]
  | nullWord : Spells .nullWord [0x6e, 0x75, 0x6c, 0x6c]
  | numeral (word : Bytes) : Numeral word → Spells (numeralKind word) word
  | string (body : Bytes) :
      StringBody body → Spells (stringKind body) (0x22 :: (body ++ [0x22]))

/-- Digits, and then a word of some language. -/
def DigitsThen (tail : Bytes → Prop) (word : Bytes) : Prop :=
  ∃ digits rest, word = digits ++ rest ∧ AllDigits digits ∧ tail rest

def AfterWhole (word : Bytes) : Prop :=
  ∃ fraction exponent, word = fraction ++ exponent ∧ Fraction fraction ∧ Exponent exponent

def AfterPoint : Bytes → Prop
  | [] => False
  | octet :: word => isDigit octet ∧ DigitsThen Exponent word

/-- The octets that complete what was read in a state to a token of some class. -/
def Completes : State → Token.Kind → Bytes → Prop
  | .start, kind, word => Spells kind word
  | .string plain, kind, word =>
      ∃ body, word = body ++ [0x22] ∧ StringBody body ∧
        kind = if plain then stringKind body else .escapedString
  | .escape, kind, word =>
      kind = .escapedString ∧ ∃ body, word = body ++ [0x22] ∧ StringBody (0x5c :: body)
  | .unicode further, kind, word =>
      kind = .escapedString ∧ ∃ digits body, word = digits ++ body ++ [0x22] ∧
        digits.length = further + 1 ∧ (∀ digit ∈ digits, isHexDigit digit) ∧ StringBody body
  | .minus, kind, word => kind = numeralKind word ∧ Magnitude word
  | .zero, kind, word => kind = numeralKind word ∧ AfterWhole word
  | .whole, kind, word => kind = numeralKind word ∧ DigitsThen AfterWhole word
  | .point, kind, word => kind = .number ∧ AfterPoint word
  | .fraction, kind, word => kind = .number ∧ DigitsThen Exponent word
  | .exponent, kind, word => kind = .number ∧ SignedDigits word
  | .exponentSign, kind, word => kind = .number ∧ Digits word
  | .exponentDigits, kind, word => kind = .number ∧ AllDigits word
  | .word missing meant, kind, word =>
      kind = meant ∧ meant ≠ .unknown ∧ missing ≠ [] ∧ word = missing

/-- The octets that complete a token of some class after an octet of this meaning. -/
def Outcome.Completes : Outcome → Token.Kind → Bytes → Prop
  | .more state, kind, word => Lexer.Completes state kind word
  | .last meant, kind, word => kind = meant ∧ meant ≠ .unknown ∧ word = []
  | .before _, _, _ => False

variable {octet : UInt8} {word : Bytes}

theorem allDigits_nil : AllDigits [] := by
  intro octet member
  cases member

theorem allDigits_cons : AllDigits (octet :: word) ↔ isDigit octet ∧ AllDigits word := by
  simp [AllDigits]

theorem digits_cons : Digits (octet :: word) ↔ isDigit octet ∧ AllDigits word := by
  simp [Digits, allDigits_cons]

theorem digitsThen_nil {tail : Bytes → Prop} : DigitsThen tail [] ↔ tail [] := by
  constructor
  · rintro ⟨digits, rest, split, digital, sound⟩
    obtain ⟨rfl, rfl⟩ := List.append_eq_nil_iff.mp split.symm
    exact sound
  · intro sound
    exact ⟨[], [], rfl, allDigits_nil, sound⟩

theorem digitsThen_cons {tail : Bytes → Prop} :
    DigitsThen tail (octet :: word) ↔
      tail (octet :: word) ∨ isDigit octet ∧ DigitsThen tail word := by
  constructor
  · rintro ⟨digits, rest, split, digital, sound⟩
    cases digits with
    | nil =>
        rw [List.nil_append] at split
        exact Or.inl (split ▸ sound)
    | cons digit digits =>
        obtain ⟨rfl, rfl⟩ := List.cons.inj split
        obtain ⟨first, digital⟩ := allDigits_cons.mp digital
        exact Or.inr ⟨first, digits, rest, rfl, digital, sound⟩
  · rintro (sound | ⟨first, digits, rest, rfl, digital, sound⟩)
    · exact ⟨[], octet :: word, rfl, allDigits_nil, sound⟩
    · exact ⟨octet :: digits, rest, rfl, allDigits_cons.mpr ⟨first, digital⟩, sound⟩

theorem not_signedDigits_nil : ¬SignedDigits [] := by
  intro sound
  cases sound with
  | unsigned digits digital => exact digital.1 rfl

theorem signedDigits_cons :
    SignedDigits (octet :: word) ↔
      (octet = 0x2b ∨ octet = 0x2d) ∧ Digits word ∨ isDigit octet ∧ AllDigits word := by
  constructor
  · intro sound
    cases sound with
    | unsigned digits digital => exact Or.inr (digits_cons.mp digital)
    | signed sign digits isSign digital => exact Or.inl ⟨isSign, digital⟩
  · rintro (⟨isSign, digital⟩ | digital)
    · exact .signed octet word isSign digital
    · exact .unsigned (octet :: word) (digits_cons.mpr digital)

theorem exponent_cons :
    Exponent (octet :: word) ↔ (octet = 0x45 ∨ octet = 0x65) ∧ SignedDigits word := by
  constructor
  · intro sound
    cases sound with
    | present letter digits isLetter digital => exact ⟨isLetter, digital⟩
  · rintro ⟨isLetter, digital⟩
    exact .present octet word isLetter digital

theorem afterPoint_iff :
    AfterPoint word ↔
      ∃ digits exponent, word = digits ++ exponent ∧ Digits digits ∧ Exponent exponent := by
  cases word with
  | nil =>
      constructor
      · exact False.elim
      · rintro ⟨digits, exponent, split, digital, sound⟩
        exact digital.1 (List.append_eq_nil_iff.mp split.symm).1
  | cons octet word =>
      constructor
      · rintro ⟨first, digits, exponent, rfl, digital, sound⟩
        exact ⟨octet :: digits, exponent, rfl, digits_cons.mpr ⟨first, digital⟩, sound⟩
      · rintro ⟨digits, exponent, split, digital, sound⟩
        obtain ⟨digit, digits, rfl⟩ := List.exists_cons_of_ne_nil digital.1
        obtain ⟨rfl, rfl⟩ := List.cons.inj split
        obtain ⟨first, digital⟩ := digits_cons.mp digital
        exact ⟨first, digits, exponent, rfl, digital, sound⟩

theorem afterWhole_nil : AfterWhole [] :=
  ⟨[], [], rfl, .absent, .absent⟩

theorem afterWhole_cons :
    AfterWhole (octet :: word) ↔
      octet = 0x2e ∧ AfterPoint word ∨ (octet = 0x45 ∨ octet = 0x65) ∧ SignedDigits word := by
  constructor
  · rintro ⟨fraction, exponent, split, fractional, sound⟩
    cases fractional with
    | absent =>
        rw [List.nil_append] at split
        exact Or.inr (exponent_cons.mp (split ▸ sound))
    | present digits digital =>
        obtain ⟨rfl, rfl⟩ := List.cons.inj split
        exact Or.inl ⟨rfl, afterPoint_iff.mpr ⟨digits, exponent, rfl, digital, sound⟩⟩
  · rintro (⟨rfl, afterPoint⟩ | exponent)
    · obtain ⟨digits, exponent, rfl, digital, sound⟩ := afterPoint_iff.mp afterPoint
      exact ⟨0x2e :: digits, exponent, rfl, .present digits digital, sound⟩
    · exact ⟨[], octet :: word, rfl, .absent, exponent_cons.mpr exponent⟩

theorem not_magnitude_nil : ¬Magnitude [] := by
  generalize equal : ([] : Bytes) = word
  intro sound
  cases sound with
  | mk whole fraction exponent isWhole =>
      cases isWhole with
      | zero => cases equal
      | positive => cases equal

theorem magnitude_cons :
    Magnitude (octet :: word) ↔
      octet = 0x30 ∧ AfterWhole word ∨
        (isDigit octet ∧ octet ≠ 0x30) ∧ DigitsThen AfterWhole word := by
  constructor
  · generalize equal : octet :: word = numeral
    intro sound
    cases sound with
    | mk whole fraction exponent isWhole isFraction isExponent =>
        cases isWhole with
        | zero =>
            obtain ⟨rfl, rfl⟩ := List.cons.inj equal
            exact Or.inl ⟨rfl, fraction, exponent, rfl, isFraction, isExponent⟩
        | positive first others digit nonzero digital =>
            obtain ⟨rfl, rfl⟩ := List.cons.inj equal
            exact Or.inr ⟨⟨digit, nonzero⟩, others, fraction ++ exponent,
              List.append_assoc others fraction exponent, digital,
              fraction, exponent, rfl, isFraction, isExponent⟩
  · rintro (⟨rfl, fraction, exponent, rfl, isFraction, isExponent⟩ |
      ⟨⟨digit, nonzero⟩, others, rest, rfl, digital, fraction, exponent, rfl, isFraction,
        isExponent⟩)
    · exact .mk [0x30] fraction exponent .zero isFraction isExponent
    · rw [← List.append_assoc, ← List.cons_append, ← List.cons_append]
      exact .mk (octet :: others) fraction exponent (.positive octet others digit nonzero digital)
        isFraction isExponent

theorem numeralKind_nil : numeralKind [] = .integer := by
  simp [numeralKind]

theorem numeralKind_of_marks (marks : MarksNumber octet) :
    numeralKind (octet :: word) = .number := by
  simp [numeralKind, marks]

theorem numeralKind_of_not_marks (plain : ¬MarksNumber octet) :
    numeralKind (octet :: word) = numeralKind word := by
  simp [numeralKind, plain]

theorem not_marksNumber_of_isDigit (digit : isDigit octet) : ¬MarksNumber octet := by
  rintro (rfl | rfl | rfl) <;> cases digit

theorem stringKind_of_plain (plain : ¬MarksEscaped octet) :
    stringKind (octet :: word) = stringKind word := by
  simp [stringKind, plain]

theorem stringKind_of_marks (marks : MarksEscaped octet) :
    stringKind (octet :: word) = .escapedString := by
  simp [stringKind, marks]

theorem marksEscaped_iff : MarksEscaped octet ↔ octet = 0x5c ∨ isPlain octet = false := by
  simp only [MarksEscaped, isPlain, UInt8.le_iff_toNat_le, UInt8.lt_iff_toNat_lt]
  grind

theorem stringKind_cons (plain : Bool) (notBackslash : octet ≠ 0x5c) :
    (if plain then stringKind (octet :: word) else .escapedString) =
      if plain && isPlain octet then stringKind word else .escapedString := by
  by_cases printable : isPlain octet
  · rw [stringKind_of_plain (by simp [marksEscaped_iff, notBackslash, printable]), printable,
      Bool.and_true]
  · rw [stringKind_of_marks (by simp [marksEscaped_iff, printable]), eq_false_of_ne_true printable,
      Bool.and_false, ite_self, if_neg Bool.false_ne_true]

theorem completes_string_cons {plain : Bool} {kind : Token.Kind} :
    Completes (.string plain) kind (octet :: word) ↔
      ((State.string plain).next octet).Completes kind word := by
  simp only [State.next]
  constructor
  · rintro ⟨body, split, isBody, rfl⟩
    cases isBody with
    | nil =>
        obtain ⟨rfl, rfl⟩ := List.cons.inj split
        rw [if_pos rfl]
        cases plain <;> simp [Outcome.Completes, stringKind]
    | octet first body notQuote notBackslash isBody =>
        obtain ⟨rfl, rfl⟩ := List.cons.inj split
        rw [if_neg notQuote, if_neg notBackslash]
        exact ⟨body, rfl, isBody, stringKind_cons plain notBackslash⟩
    | escape escaped body known isBody =>
        obtain ⟨rfl, rfl⟩ := List.cons.inj split
        rw [if_neg (by decide), if_pos rfl]
        refine ⟨?_, escaped :: body, rfl, .escape escaped body known isBody⟩
        rw [stringKind_of_marks (by decide), ite_self]
    | unicode digits body long digital isBody =>
        obtain ⟨rfl, rfl⟩ := List.cons.inj split
        rw [if_neg (by decide), if_pos rfl]
        refine ⟨?_, 0x75 :: (digits ++ body), rfl, .unicode digits body long digital isBody⟩
        rw [stringKind_of_marks (by decide), ite_self]
  · by_cases quote : octet = 0x22
    · subst quote
      rw [if_pos rfl]
      rintro ⟨rfl, known, rfl⟩
      exact ⟨[], rfl, .nil, by cases plain <;> simp [stringKind]⟩
    · rw [if_neg quote]
      by_cases backslash : octet = 0x5c
      · subst backslash
        rw [if_pos rfl]
        rintro ⟨rfl, body, rfl, isBody⟩
        exact ⟨0x5c :: body, rfl, isBody, by rw [stringKind_of_marks (by decide), ite_self]⟩
      · rw [if_neg backslash]
        rintro ⟨body, rfl, isBody, rfl⟩
        exact ⟨octet :: body, rfl, .octet octet body quote backslash isBody,
          (stringKind_cons plain backslash).symm⟩

theorem isSimpleEscape_iff :
    isSimpleEscape octet ↔
      octet ∈ [(0x62 : UInt8), 0x66, 0x6e, 0x72, 0x74, 0x5c, 0x2f, 0x22] := by
  simp only [isSimpleEscape, Bool.or_eq_true, decide_eq_true_eq, List.mem_cons, List.not_mem_nil]
  grind

theorem stringBody_escape_iff :
    StringBody (0x5c :: word) ↔
      (∃ octet body, word = octet :: body ∧ isSimpleEscape octet ∧ StringBody body) ∨
        ∃ digits body, word = 0x75 :: (digits ++ body) ∧ digits.length = 4 ∧
          (∀ digit ∈ digits, isHexDigit digit) ∧ StringBody body := by
  constructor
  · intro isBody
    cases isBody with
    | octet first body notQuote notBackslash => exact absurd rfl notBackslash
    | escape octet body known isBody =>
        exact Or.inl ⟨octet, body, rfl, isSimpleEscape_iff.mpr known, isBody⟩
    | unicode digits body long digital isBody =>
        exact Or.inr ⟨digits, body, rfl, long, digital, isBody⟩
  · rintro (⟨octet, body, rfl, known, isBody⟩ | ⟨digits, body, rfl, long, digital, isBody⟩)
    · exact .escape octet body (isSimpleEscape_iff.mp known) isBody
    · exact .unicode digits body long digital isBody

theorem completes_escape_cons {kind : Token.Kind} :
    Completes .escape kind (octet :: word) ↔
      (State.escape.next octet).Completes kind word := by
  simp only [State.next, Completes, stringBody_escape_iff]
  constructor
  · rintro ⟨rfl, inside, split, ⟨escaped, body, rfl, known, isBody⟩ |
      ⟨digits, body, rfl, long, digital, isBody⟩⟩
    · obtain ⟨rfl, rfl⟩ := List.cons.inj split
      rw [if_pos known]
      exact ⟨body, rfl, isBody, rfl⟩
    · obtain ⟨rfl, rfl⟩ := List.cons.inj split
      rw [if_neg (by decide), if_pos rfl]
      exact ⟨rfl, digits, body, rfl, long, digital, isBody⟩
  · by_cases known : isSimpleEscape octet
    · rw [if_pos known]
      rintro ⟨body, rfl, isBody, rfl⟩
      exact ⟨rfl, octet :: body, rfl, Or.inl ⟨octet, body, rfl, known, isBody⟩⟩
    · rw [if_neg known]
      by_cases unicode : octet = 0x75
      · subst unicode
        rw [if_pos rfl]
        rintro ⟨rfl, digits, body, rfl, long, digital, isBody⟩
        exact ⟨rfl, 0x75 :: (digits ++ body), rfl,
          Or.inr ⟨digits, body, rfl, long, digital, isBody⟩⟩
      · rw [if_neg unicode]
        rintro ⟨-, impossible, -⟩
        exact absurd rfl impossible

theorem completes_unicode_cons {further : Nat} {kind : Token.Kind} :
    Completes (.unicode further) kind (octet :: word) ↔
      ((State.unicode further).next octet).Completes kind word := by
  simp only [State.next]
  constructor
  · rintro ⟨rfl, digits, body, split, long, digital, isBody⟩
    obtain ⟨digit, digits, rfl⟩ := List.exists_cons_of_length_eq_add_one long
    obtain ⟨rfl, rfl⟩ := List.cons.inj split
    rw [List.forall_mem_cons] at digital
    rw [if_pos digital.1]
    cases further with
    | zero =>
        obtain rfl := List.length_eq_zero_iff.mp (Nat.succ.inj long)
        exact ⟨body, rfl, isBody, rfl⟩
    | succ further => exact ⟨rfl, digits, body, rfl, Nat.succ.inj long, digital.2, isBody⟩
  · by_cases digit : isHexDigit octet
    · rw [if_pos digit]
      cases further with
      | zero =>
          rintro ⟨body, rfl, isBody, rfl⟩
          exact ⟨rfl, [octet], body, rfl, rfl, by simpa using digit, isBody⟩
      | succ further =>
          rintro ⟨rfl, digits, body, rfl, long, digital, isBody⟩
          exact ⟨rfl, octet :: digits, body, rfl, congrArg Nat.succ long,
            List.forall_mem_cons.mpr ⟨digit, digital⟩, isBody⟩
    · rw [if_neg digit]
      rintro ⟨-, impossible, -⟩
      exact absurd rfl impossible

theorem isExponentLetter_iff : isExponentLetter octet ↔ octet = 0x45 ∨ octet = 0x65 := by
  simp [isExponentLetter]

theorem completes_zero_cons {kind : Token.Kind} :
    Completes .zero kind (octet :: word) ↔
      (State.zero.next octet).Completes kind word := by
  simp only [State.next, Completes, afterWhole_cons]
  by_cases point : octet = 0x2e
  · subst point
    rw [if_pos rfl, numeralKind_of_marks (by decide)]
    simp [Outcome.Completes, Completes]
  · rw [if_neg point]
    by_cases letter : octet = 0x45 ∨ octet = 0x65
    · rw [if_pos (isExponentLetter_iff.mpr letter),
        numeralKind_of_marks (Or.inr letter.symm)]
      simp [Outcome.Completes, Completes, point, letter]
    · rw [if_neg (mt isExponentLetter_iff.mp letter)]
      simp [Outcome.Completes, point, letter]

theorem not_point_of_isDigit (digit : isDigit octet) : octet ≠ 0x2e := by
  rintro rfl
  cases digit

theorem not_letter_of_isDigit (digit : isDigit octet) : ¬(octet = 0x45 ∨ octet = 0x65) := by
  rintro (rfl | rfl) <;> cases digit

theorem completes_whole_cons {kind : Token.Kind} :
    Completes .whole kind (octet :: word) ↔
      (State.whole.next octet).Completes kind word := by
  by_cases digit : isDigit octet
  · simp [State.next, Outcome.Completes, Completes, digitsThen_cons, afterWhole_cons, digit,
      not_point_of_isDigit digit, not_letter_of_isDigit digit,
      numeralKind_of_not_marks (not_marksNumber_of_isDigit digit)]
  · have same : State.whole.next octet = State.zero.next octet := by simp [State.next, digit]
    rw [same, ← completes_zero_cons]
    simp [Completes, digitsThen_cons, digit]

theorem completes_minus_cons {kind : Token.Kind} :
    Completes .minus kind (octet :: word) ↔
      (State.minus.next octet).Completes kind word := by
  simp only [State.next, Completes, magnitude_cons]
  by_cases zero : octet = 0x30
  · subst zero
    simp [Outcome.Completes, Completes, numeralKind_of_not_marks
      (not_marksNumber_of_isDigit (show isDigit 0x30 by decide))]
  · rw [if_neg zero]
    by_cases digit : isDigit octet
    · simp [Outcome.Completes, Completes, zero, digit,
        numeralKind_of_not_marks (not_marksNumber_of_isDigit digit)]
    · simp [Outcome.Completes, zero, digit]

theorem completes_point_cons {kind : Token.Kind} :
    Completes .point kind (octet :: word) ↔
      (State.point.next octet).Completes kind word := by
  by_cases digit : isDigit octet
  · simp [State.next, Outcome.Completes, Completes, AfterPoint, digit]
  · simp [State.next, Outcome.Completes, Completes, AfterPoint, digit]

theorem completes_fraction_cons {kind : Token.Kind} :
    Completes .fraction kind (octet :: word) ↔
      (State.fraction.next octet).Completes kind word := by
  simp only [State.next, Completes, digitsThen_cons, exponent_cons]
  by_cases digit : isDigit octet
  · simp [Outcome.Completes, Completes, digit, not_letter_of_isDigit digit]
  · by_cases letter : octet = 0x45 ∨ octet = 0x65
    · simp [Outcome.Completes, Completes, digit, letter, isExponentLetter_iff.mpr letter]
    · simp [Outcome.Completes, digit, letter, mt isExponentLetter_iff.mp letter]

theorem completes_exponent_cons {kind : Token.Kind} :
    Completes .exponent kind (octet :: word) ↔
      (State.exponent.next octet).Completes kind word := by
  simp only [State.next, Completes, signedDigits_cons]
  by_cases sign : octet = 0x2b ∨ octet = 0x2d
  · have noDigit : ¬isDigit octet := by
      rcases sign with rfl | rfl <;> decide
    simp [Outcome.Completes, Completes, sign, noDigit]
  · by_cases digit : isDigit octet
    · simp [Outcome.Completes, Completes, sign, digit]
    · simp [Outcome.Completes, sign, digit]

theorem completes_exponentSign_cons {kind : Token.Kind} :
    Completes .exponentSign kind (octet :: word) ↔
      (State.exponentSign.next octet).Completes kind word := by
  by_cases digit : isDigit octet
  · simp [State.next, Outcome.Completes, Completes, digits_cons, digit]
  · simp [State.next, Outcome.Completes, Completes, digits_cons, digit]

theorem completes_exponentDigits_cons {kind : Token.Kind} :
    Completes .exponentDigits kind (octet :: word) ↔
      (State.exponentDigits.next octet).Completes kind word := by
  by_cases digit : isDigit octet
  · simp [State.next, Outcome.Completes, Completes, allDigits_cons, digit]
  · simp [State.next, Outcome.Completes, Completes, allDigits_cons, digit]

theorem completes_word_cons {missing : Bytes} {meant kind : Token.Kind} :
    Completes (.word missing meant) kind (octet :: word) ↔
      ((State.word missing meant).next octet).Completes kind word := by
  match missing with
  | [] => simp [State.next, Outcome.Completes, Completes]
  | [expected] =>
      by_cases equal : octet = expected
      · simp [State.next, Outcome.Completes, Completes, equal]
      · simp [State.next, Outcome.Completes, Completes, equal]
  | expected :: next :: missing =>
      by_cases equal : octet = expected
      · simp [State.next, Outcome.Completes, Completes, equal]
      · simp [State.next, Outcome.Completes, Completes, equal]

theorem numeral_cons :
    Numeral (octet :: word) ↔ Magnitude (octet :: word) ∨ octet = 0x2d ∧ Magnitude word := by
  constructor
  · intro sound
    cases sound with
    | unsigned word magnitude => exact Or.inl magnitude
    | negative word magnitude => exact Or.inr ⟨rfl, magnitude⟩
  · rintro (magnitude | ⟨rfl, magnitude⟩)
    · exact .unsigned _ magnitude
    · exact .negative _ magnitude

theorem begin_of_nonzero (digit : isDigit octet) (nonzero : octet ≠ 0x30) :
    State.begin octet = .more .whole := by
  grind [isDigit, State.begin, punctuation?, State.beginLonger]

theorem completes_begin_of_numeral (sound : Numeral (octet :: word)) :
    (State.begin octet).Completes (numeralKind (octet :: word)) word := by
  rcases numeral_cons.mp sound with magnitude | ⟨rfl, magnitude⟩
  · rcases magnitude_cons.mp magnitude with ⟨rfl, after⟩ | ⟨⟨digit, nonzero⟩, after⟩
    · exact ⟨numeralKind_of_not_marks (by decide), after⟩
    · rw [begin_of_nonzero digit nonzero]
      exact ⟨numeralKind_of_not_marks (not_marksNumber_of_isDigit digit), after⟩
  · exact ⟨numeralKind_of_not_marks (by decide), magnitude⟩

theorem completes_begin_of_spells {kind : Token.Kind} (spelled : Spells kind (octet :: word)) :
    (State.begin octet).Completes kind word := by
  generalize equal : octet :: word = input at spelled
  cases spelled with
  | numeral numeral sound =>
      subst equal
      exact completes_begin_of_numeral sound
  | string body isBody =>
      obtain ⟨rfl, rfl⟩ := List.cons.inj equal
      exact ⟨body, rfl, isBody, rfl⟩
  | trueWord | falseWord | nullWord =>
      obtain ⟨rfl, rfl⟩ := List.cons.inj equal
      exact ⟨rfl, by decide, by decide, rfl⟩
  | _ =>
      obtain ⟨rfl, rfl⟩ := List.cons.inj equal
      exact ⟨rfl, by decide, rfl⟩

theorem spells_of_punctuation {kind : Token.Kind} (found : punctuation? octet = some kind) :
    Spells kind [octet] := by
  unfold punctuation? at found
  split_ifs at found with brace closing colon bracket closing comma
  all_goals
    obtain rfl := Option.some.inj found
    subst octet
    constructor

theorem spells_of_completes_beginLonger {kind : Token.Kind}
    (completes : (State.beginLonger octet).Completes kind word) :
    Spells kind (octet :: word) := by
  unfold State.beginLonger at completes
  split_ifs at completes with quote minus zero digit trueWord falseWord nullWord
  · obtain ⟨body, rfl, isBody, rfl⟩ := completes
    exact quote ▸ .string body isBody
  · obtain ⟨rfl, magnitude⟩ := completes
    subst minus
    rw [← numeralKind_of_not_marks (show ¬MarksNumber 0x2d by decide)]
    exact .numeral _ (.negative word magnitude)
  · obtain ⟨rfl, after⟩ := completes
    subst zero
    rw [← numeralKind_of_not_marks (show ¬MarksNumber 0x30 by decide)]
    exact .numeral _ (.unsigned _ (magnitude_cons.mpr (Or.inl ⟨rfl, after⟩)))
  · obtain ⟨rfl, after⟩ := completes
    rw [← numeralKind_of_not_marks (not_marksNumber_of_isDigit digit)]
    exact .numeral _ (.unsigned _ (magnitude_cons.mpr (Or.inr ⟨⟨digit, zero⟩, after⟩)))
  · obtain ⟨rfl, -, -, rfl⟩ := completes
    exact trueWord ▸ .trueWord
  · obtain ⟨rfl, -, -, rfl⟩ := completes
    exact falseWord ▸ .falseWord
  · obtain ⟨rfl, -, -, rfl⟩ := completes
    exact nullWord ▸ .nullWord
  · exact absurd rfl completes.2.1

theorem spells_of_completes_begin {kind : Token.Kind}
    (completes : (State.begin octet).Completes kind word) : Spells kind (octet :: word) := by
  unfold State.begin at completes
  split at completes
  · next meant found =>
      obtain ⟨rfl, -, rfl⟩ := completes
      exact spells_of_punctuation found
  · exact spells_of_completes_beginLonger completes

theorem completes_start_cons {kind : Token.Kind} :
    Completes .start kind (octet :: word) ↔
      (State.start.next octet).Completes kind word :=
  ⟨completes_begin_of_spells, spells_of_completes_begin⟩

/-- The completions of a state, taken apart at their first octet, are those of its step. -/
theorem completes_cons (state : State) (kind : Token.Kind) :
    Completes state kind (octet :: word) ↔ (state.next octet).Completes kind word := by
  cases state with
  | start => exact completes_start_cons
  | string plain => exact completes_string_cons
  | escape => exact completes_escape_cons
  | unicode further => exact completes_unicode_cons
  | minus => exact completes_minus_cons
  | zero => exact completes_zero_cons
  | whole => exact completes_whole_cons
  | point => exact completes_point_cons
  | fraction => exact completes_fraction_cons
  | exponent => exact completes_exponent_cons
  | exponentSign => exact completes_exponentSign_cons
  | exponentDigits => exact completes_exponentDigits_cons
  | word missing meant => exact completes_word_cons

theorem not_spells_nil (kind : Token.Kind) : ¬Spells kind [] := by
  generalize equal : ([] : Bytes) = input
  intro spelled
  cases spelled with
  | numeral word sound =>
      subst equal
      generalize equal : ([] : Bytes) = input at sound
      cases sound with
      | unsigned word magnitude => exact not_magnitude_nil (equal ▸ magnitude)
      | negative word magnitude => cases equal
  | _ => cases equal

/-- A state is complete without any further octet exactly as the lexer says at the end of the
input. -/
theorem completes_nil (state : State) (kind : Token.Kind) :
    Completes state kind [] ↔ kind = state.kindAtEnd ∧ state.kindAtEnd ≠ .unknown := by
  cases state with
  | start =>
      have := not_spells_nil kind
      simp [Completes, State.kindAtEnd, this]
  | string plain => simp [Completes, State.kindAtEnd]
  | escape => simp [Completes, State.kindAtEnd]
  | unicode further => simp [Completes, State.kindAtEnd]
  | minus => simp [Completes, State.kindAtEnd, not_magnitude_nil]
  | zero => simp [Completes, State.kindAtEnd, afterWhole_nil, numeralKind_nil]
  | whole => simp [Completes, State.kindAtEnd, digitsThen_nil, afterWhole_nil, numeralKind_nil]
  | point => simp [Completes, State.kindAtEnd, AfterPoint]
  | fraction => simp [Completes, State.kindAtEnd, digitsThen_nil, Exponent.absent]
  | exponent => simp [Completes, State.kindAtEnd, not_signedDigits_nil]
  | exponentSign => simp [Completes, State.kindAtEnd, Digits]
  | exponentDigits => simp [Completes, State.kindAtEnd, allDigits_nil]
  | word missing meant => simp [Completes, State.kindAtEnd]

end Lexer

end JsonSieve
