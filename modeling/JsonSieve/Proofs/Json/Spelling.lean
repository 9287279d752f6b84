import JsonSieve.Proofs.Json.Numeral

/-!
# Numerals and their spellings

A well-formed numeral is read from its spelling.  Its magnitude is that of all its digits, taken as
one number, times a power of ten, as long as the digits fit into a significand.
-/

namespace JsonSieve.Json.Numeral

/-- The spelling of an exponent, which always has a sign. -/
def spelledExponent : Option (Bool × List Char) → List Char
  | none => []
  | some (negative, digits) => 'e' :: (if negative then '-' else '+') :: digits

/-- All parts of a numeral are digits, without a leading zero unless it is the only digit before the
point. -/
structure WellFormed (numeral : Numeral) : Prop where
  nonempty : numeral.whole ≠ []
  leading : numeral.whole = ['0'] ∨ numeral.whole.head? ≠ some '0'
  whole : ∀ digit ∈ numeral.whole, digit.isDigit
  fraction : ∀ digit ∈ numeral.fraction, digit.isDigit
  exponent : ∀ part ∈ numeral.exponent, part.2 ≠ [] ∧ ∀ digit ∈ part.2, digit.isDigit

def NoDigit (rest : List Char) : Prop :=
  ∀ character ∈ rest.head?, ¬character.isDigit

variable {numeral : Numeral} {digits rest : List Char}

theorem readWhole?_digits (nonempty : digits ≠ []) (digital : ∀ digit ∈ digits, digit.isDigit)
    (leading : digits = ['0'] ∨ digits.head? ≠ some '0') (noDigit : NoDigit rest) :
    readWhole? (digits ++ rest) = some (digits, rest) := by
  rcases leading with rfl | leading
  · rfl
  · rw [readWhole?]
    · exact readDigits?_eq_some_iff.mpr ⟨rfl, nonempty, digital, noDigit⟩
    · intro others equal
      obtain ⟨first, digits, rfl⟩ := List.exists_cons_of_ne_nil nonempty
      exact leading (by rw [List.head?_cons, (List.cons.inj equal).1])

theorem noDigit_spelledExponent (exponent : Option (Bool × List Char)) :
    NoDigit (spelledExponent exponent) := by
  intro character isHead
  cases exponent with
  | none => cases isHead
  | some part =>
      cases isHead
      decide

theorem readExponent?_spelled {exponent : Option (Bool × List Char)}
    (digital : ∀ part ∈ exponent, part.2 ≠ [] ∧ ∀ digit ∈ part.2, digit.isDigit) :
    readExponent? (spelledExponent exponent) = some (exponent, []) := by
  cases exponent with
  | none => rfl
  | some part =>
      obtain ⟨negative, digits⟩ := part
      obtain ⟨nonempty, digital⟩ := digital _ rfl
      have read : readDigits? digits = some (digits, []) :=
        readDigits?_eq_some_iff.mpr ⟨(List.append_nil _).symm, nonempty, digital, by simp⟩
      cases negative with
      | false => simp [spelledExponent, readExponent?, readSign, read]
      | true => simp [spelledExponent, readExponent?, readSign, readMinus, read]

def spelledTail (fraction : List Char) (exponent : Option (Bool × List Char)) : List Char :=
  (if fraction = [] then [] else '.' :: fraction) ++ spelledExponent exponent

theorem readFraction?_spelled {fraction : List Char} (exponent : Option (Bool × List Char))
    (digital : ∀ digit ∈ fraction, digit.isDigit) :
    readFraction? (spelledTail fraction exponent) = some (fraction, spelledExponent exponent) := by
  rw [spelledTail]
  split
  · next empty =>
      rw [empty, List.nil_append]
      cases exponent <;> rfl
  · next nonempty =>
      exact readDigits?_eq_some_iff.mpr ⟨rfl, nonempty, digital, noDigit_spelledExponent exponent⟩

theorem noDigit_spelledTail (fraction : List Char) (exponent : Option (Bool × List Char)) :
    NoDigit (spelledTail fraction exponent) := by
  rw [spelledTail]
  split
  · exact noDigit_spelledExponent exponent
  · intro character isHead
    cases isHead
    decide

def spelled (numeral : Numeral) : List Char :=
  (if numeral.negative then ['-'] else []) ++
    (numeral.whole ++ spelledTail numeral.fraction numeral.exponent)

theorem readMinus_spelled (wellFormed : numeral.WellFormed) :
    readMinus numeral.spelled =
      (numeral.negative, numeral.whole ++ spelledTail numeral.fraction numeral.exponent) := by
  rw [spelled]
  cases numeral.negative with
  | true => rfl
  | false =>
      obtain ⟨first, others, isWhole⟩ := List.exists_cons_of_ne_nil wellFormed.nonempty
      have digit := wellFormed.whole first (by simp [isWhole])
      rw [isWhole, readMinus]
      · rfl
      · intro rest equal
        have isMinus : first = '-' := (List.cons.inj equal).1
        rw [isMinus] at digit
        cases digit

theorem read?_spelled (wellFormed : numeral.WellFormed) :
    read? numeral.spelled = some (numeral, []) := by
  have whole := readWhole?_digits wellFormed.nonempty wellFormed.whole wellFormed.leading
    (noDigit_spelledTail numeral.fraction numeral.exponent)
  simp only [read?, readMinus_spelled wellFormed, whole,
    readFraction?_spelled numeral.exponent wellFormed.fraction,
    readExponent?_spelled wellFormed.exponent, Option.bind_eq_bind, Option.bind_some,
    Option.pure_def]

/-- The digits of a numeral before its exponent, taken as one number. -/
def significand (numeral : Numeral) : Nat :=
  Digits.toNat (numeral.whole ++ numeral.fraction)

/-- The power of ten by which the significand is multiplied. -/
def shift (numeral : Numeral) : Int :=
  (match numeral.exponent with
    | none => 0
    | some (negative, digits) =>
        if negative then -(Digits.toNat digits : Int) else Digits.toNat digits) -
    numeral.fraction.length

theorem magnitude?_eq (within : numeral.significand < significandBound)
    (moderate : ∀ part ∈ numeral.exponent, Digits.toNat part.2 ≤ greatestExponent) :
    numeral.magnitude? = scaled? numeral.significand numeral.shift := by
  have split : numeral.significand =
      numeral.fraction.foldl (fun number digit => number * 10 + Digits.value digit)
        (Digits.toNat numeral.whole) := by
    rw [significand, Digits.toNat, List.foldl_append]
    rfl
  have whole : appendDigits 0 numeral.whole = (Digits.toNat numeral.whole, 0) :=
    appendDigits_of_lt ((le_foldl_digits numeral.fraction _).trans_lt (split ▸ within))
  have fraction : appendDigits (Digits.toNat numeral.whole) numeral.fraction =
      (numeral.significand, 0) := by
    rw [split]
    exact appendDigits_of_lt (split ▸ within)
  rw [magnitude?, whole]
  dsimp only
  rw [fraction, shift]
  cases exponent : numeral.exponent with
  | none => simp
  | some part =>
      obtain ⟨negative, digits⟩ := part
      have written := moderate _ exponent
      dsimp only at written ⊢
      rw [if_pos written]
      refine congrArg (scaled? numeral.significand) ?_
      split <;> omega

end JsonSieve.Json.Numeral
