import JsonSieve.Json.Numeral
import JsonSieve.Json.Text
import JsonSieve.Proofs.Text.Spans
import Mathlib

/-!
# Reading written numbers

A numeral is read in the same way whatever follows it, as long as that does not continue the
numeral.  The decimal form of an integer that fits into 64 bits is read as the integer.
-/

namespace JsonSieve

namespace Digits

theorem isDigit_of_mem_ofNat {number : Nat} {digit : Char} (member : digit ∈ ofNat number) :
    digit.isDigit :=
  Nat.isDigit_of_mem_toDigits (by decide) (by decide) member

theorem ofNat_ne_nil (number : Nat) : ofNat number ≠ [] :=
  Nat.toDigits_ne_nil

theorem toNat_ofNat (number : Nat) : toNat (ofNat number) = number := by
  have same : toNat (ofNat number) = Nat.ofDigitChars 10 (Nat.toDigits 10 number) 0 := by
    simp only [toNat, ofNat, value, Nat.ofDigitChars_eq_foldl, Nat.mul_comm]
  rw [same, Nat.ofDigitChars_toDigits (by decide) (by decide)]

theorem head_ofNat_ne_zero {number : Nat} (positive : 0 < number) :
    (ofNat number).head? ≠ some '0' := by
  induction number using Nat.strongRecOn with
  | ind number ih =>
      rw [ofNat, Nat.toDigits_eq_if (by decide)]
      by_cases small : number < 10
      · simp [small]
        omega
      · have shorter := ih (number / 10) (by omega) (by omega)
        obtain ⟨first, others, digits⟩ :=
          List.exists_cons_of_ne_nil (ofNat_ne_nil (number / 10))
        rw [digits] at shorter
        rw [ofNat] at digits
        rw [if_neg small, digits]
        exact shorter

end Digits

namespace Json

/-- The written form of a number is read as another number. -/
def Number.ReadAs (number other : Number) : Prop :=
  ∃ numeral, Numeral.read? (writtenNumber number) = some (numeral, []) ∧
    numeral.value? = some other

def Number.ReadsBack (number : Number) : Prop :=
  number.ReadAs number

namespace Numeral

/-- No numeral goes on with these characters. -/
def Ends (rest : List Char) : Prop :=
  ∀ character ∈ rest.head?,
    ¬character.isDigit ∧ character ≠ '.' ∧ character ≠ 'e' ∧ character ≠ 'E'

variable {input rest after : List Char}

theorem readDigits?_eq_some_iff {digits : List Char} :
    readDigits? input = some (digits, after) ↔
      input = digits ++ after ∧ digits ≠ [] ∧ (∀ digit ∈ digits, digit.isDigit) ∧
        ∀ character ∈ after.head?, ¬character.isDigit := by
  simp only [Bool.not_eq_true]
  constructor
  · intro read
    unfold readDigits? at read
    split at read
    · cases read
    · next nonempty =>
        cases read
        obtain ⟨whole, digital, stopped⟩ := Spans.span_eq_iff.mp
          (⟨rfl, rfl⟩ : input.takeWhile Char.isDigit = _ ∧ input.dropWhile Char.isDigit = _)
        exact ⟨whole, by simpa using nonempty, digital, stopped⟩
  · rintro ⟨whole, nonempty, digital, stopped⟩
    obtain ⟨taken, left⟩ := Spans.span_eq_iff.mpr ⟨whole, digital, stopped⟩
    rw [readDigits?, taken, left, if_neg (by simpa using nonempty)]

theorem readDigits?_append {digits : List Char} (ends : Ends rest)
    (read : readDigits? input = some (digits, after)) :
    readDigits? (input ++ rest) = some (digits, after ++ rest) := by
  obtain ⟨rfl, nonempty, digital, stops⟩ := readDigits?_eq_some_iff.mp read
  refine readDigits?_eq_some_iff.mpr ⟨List.append_assoc .., nonempty, digital, ?_⟩
  cases after with
  | nil => exact fun character isHead => (ends character isHead).1
  | cons first after => exact stops

theorem readMinus_append (nonempty : input ≠ []) :
    readMinus (input ++ rest) = ((readMinus input).1, (readMinus input).2 ++ rest) := by
  obtain ⟨first, others, rfl⟩ := List.exists_cons_of_ne_nil nonempty
  unfold readMinus
  grind

theorem readSign_append (nonempty : input ≠ []) :
    readSign (input ++ rest) = ((readSign input).1, (readSign input).2 ++ rest) := by
  obtain ⟨first, others, rfl⟩ := List.exists_cons_of_ne_nil nonempty
  by_cases plus : first = '+'
  · subst plus
    rfl
  · have noSign : ∀ others, readSign (first :: others) = readMinus (first :: others) := by
      intro others
      rw [readSign]
      intro rest equal
      exact plus (List.cons.inj equal).1
    rw [List.cons_append, noSign, noSign, ← List.cons_append, readMinus_append nonempty]

theorem readWhole?_append {digits : List Char} (ends : Ends rest)
    (read : readWhole? input = some (digits, after)) :
    readWhole? (input ++ rest) = some (digits, after ++ rest) := by
  unfold readWhole? at read
  split at read
  · cases read
    rfl
  · next noZero =>
      rw [readWhole?, readDigits?_append ends read]
      intro others equal
      cases input with
      | nil => cases read
      | cons first input => exact noZero _ (by rw [(List.cons.inj equal).1])

theorem readFraction?_append {digits : List Char} (ends : Ends rest)
    (read : readFraction? input = some (digits, after)) :
    readFraction? (input ++ rest) = some (digits, after ++ rest) := by
  unfold readFraction? at read
  split at read
  · exact readDigits?_append ends read
  · next noPoint =>
      cases read
      rw [readFraction?]
      intro others equal
      cases input with
      | nil => exact (ends '.' (by rw [← List.nil_append rest, equal]; rfl)).2.1 rfl
      | cons first input => exact noPoint _ (by rw [(List.cons.inj equal).1])

theorem readExponent?_append {exponent : Option (Bool × List Char)} (ends : Ends rest)
    (read : readExponent? input = some (exponent, after)) :
    readExponent? (input ++ rest) = some (exponent, after ++ rest) := by
  cases input with
  | nil =>
      cases read
      cases rest with
      | nil => rfl
      | cons character rest =>
          obtain ⟨-, -, noLetter⟩ := ends character rfl
          simp [readExponent?, noLetter]
  | cons letter input =>
      simp only [readExponent?, List.cons_append] at read ⊢
      split at read
      · next isLetter =>
          obtain ⟨⟨digits, afterDigits⟩, readDigits, equal⟩ := Option.map_eq_some_iff.mp read
          cases equal
          have nonempty : input ≠ [] := by
            rintro rfl
            cases readDigits
          rw [if_pos isLetter, readSign_append nonempty, readDigits?_append ends readDigits]
          rfl
      · next noLetter =>
          cases read
          rw [if_neg noLetter]
          rfl

theorem readWhole?_ne_nil {digits : List Char}
    (read : readWhole? (readMinus input).2 = some (digits, after)) : input ≠ [] := by
  rintro rfl
  cases read

theorem read?_append {numeral : Numeral} (ends : Ends rest)
    (read : read? input = some (numeral, after)) :
    read? (input ++ rest) = some (numeral, after ++ rest) := by
  simp only [read?, Option.bind_eq_bind, Option.bind_eq_some_iff, Prod.exists, Option.pure_def,
    Option.some.injEq, Prod.mk.injEq] at read
  obtain ⟨whole, afterWhole, readWhole, fraction, afterFraction, readFraction, exponent,
    afterExponent, readExponent, rfl, rfl⟩ := read
  simp only [read?, readMinus_append (readWhole?_ne_nil readWhole),
    readWhole?_append ends readWhole, readFraction?_append ends readFraction,
    readExponent?_append ends readExponent, Option.bind_eq_bind, Option.bind_some, Option.pure_def]

theorem exists_cons_of_readWhole? {digits : List Char}
    (read : readWhole? input = some (digits, after)) :
    ∃ first others, input = first :: others ∧ first.isDigit := by
  unfold readWhole? at read
  split at read
  · next others => exact ⟨'0', others, rfl, by decide⟩
  · obtain ⟨rfl, nonempty, digital, -⟩ := readDigits?_eq_some_iff.mp read
    obtain ⟨first, others, rfl⟩ := List.exists_cons_of_ne_nil nonempty
    exact ⟨first, others ++ after, rfl, digital first (List.mem_cons_self ..)⟩

theorem exists_cons_of_read? {numeral : Numeral} (read : read? input = some (numeral, after)) :
    ∃ first others, input = first :: others ∧ (first = '-' ∨ first.isDigit) := by
  simp only [read?, Option.bind_eq_bind, Option.bind_eq_some_iff, Prod.exists] at read
  obtain ⟨whole, afterWhole, readWhole, -⟩ := read
  unfold readMinus at readWhole
  split at readWhole
  · next others => exact ⟨'-', others, rfl, Or.inl rfl⟩
  · obtain ⟨first, others, rfl, digit⟩ := exists_cons_of_readWhole? readWhole
    exact ⟨first, others, rfl, Or.inr digit⟩

theorem le_foldl_digits (digits : List Char) (significand : Nat) :
    significand ≤
      digits.foldl (fun number digit => number * 10 + Digits.value digit) significand := by
  induction digits generalizing significand with
  | nil => exact Nat.le_refl _
  | cons digit digits ih =>
      have := ih (significand * 10 + Digits.value digit)
      rw [List.foldl_cons]
      omega

theorem appendDigits_of_lt {digits : List Char} {significand : Nat}
    (within : digits.foldl (fun number digit => number * 10 + Digits.value digit) significand <
      significandBound) :
    appendDigits significand digits =
      (digits.foldl (fun number digit => number * 10 + Digits.value digit) significand, 0) := by
  induction digits generalizing significand with
  | nil => rfl
  | cons digit digits ih =>
      rw [List.foldl_cons] at within ⊢
      have small := Nat.lt_of_le_of_lt (le_foldl_digits digits _) within
      rw [appendDigits, if_pos small]
      exact ih within

theorem readWhole?_ofNat (number : Nat) :
    readWhole? (Digits.ofNat number) = some (Digits.ofNat number, []) := by
  rcases Nat.eq_zero_or_pos number with rfl | positive
  · rfl
  · rw [readWhole?]
    · exact readDigits?_eq_some_iff.mpr ⟨(List.append_nil _).symm, Digits.ofNat_ne_nil number,
        fun digit => Digits.isDigit_of_mem_ofNat, by simp⟩
    · intro others equal
      exact Digits.head_ofNat_ne_zero positive (by rw [equal]; rfl)

theorem readMinus_ofNat (number : Nat) :
    readMinus (Digits.ofNat number) = (false, Digits.ofNat number) := by
  rw [readMinus]
  intro others equal
  have digit : ('-' : Char).isDigit := Digits.isDigit_of_mem_ofNat (by rw [equal]; simp)
  cases digit

theorem read?_writtenInteger (value : Int) :
    read? (writtenInteger value) =
      some (⟨decide (value < 0), Digits.ofNat value.natAbs, [], none⟩, []) := by
  by_cases negative : value < 0
  · simp [read?, writtenInteger, negative, readMinus, readWhole?_ofNat, readFraction?,
      readExponent?]
  · simp [read?, writtenInteger, negative, readMinus_ofNat, readWhole?_ofNat, readFraction?,
      readExponent?]

/-- The decimal form of every integer of 64 bits, with sign or without, is read as the integer. -/
theorem readsBack_integer {value : Int} (fits : -2 ^ 63 ≤ value ∧ value < 2 ^ 64) :
    (Number.integer value).ReadsBack := by
  refine ⟨_, read?_writtenInteger value, ?_⟩
  have whole : appendDigits 0 (Digits.ofNat value.natAbs) = (value.natAbs, 0) := by
    have exactly := Digits.toNat_ofNat value.natAbs
    rw [Digits.toNat] at exactly
    rw [appendDigits_of_lt] <;> rw [exactly]
    rw [significandBound, UInt64.size]
    omega
  have exactly : integer? ⟨decide (value < 0), Digits.ofNat value.natAbs, [], none⟩ =
      some value := by
    simp only [integer?, whole, List.isEmpty_nil, Option.isNone_none, Bool.and_self, if_true,
      ne_eq, not_true_eq_false, if_false]
    by_cases negative : value < 0
    · have inRange : 0 < value.natAbs ∧ value.natAbs ≤ 1 <<< 63 := by omega
      have signed : -(value.natAbs : Int) = value := by omega
      rw [decide_eq_true negative, if_neg (by decide), if_pos inRange, signed]
    · have unsigned : (value.natAbs : Int) = value := by omega
      rw [decide_eq_false negative, if_pos (by decide), unsigned]
  rw [value?, exactly]

end Numeral

end Json

end JsonSieve
