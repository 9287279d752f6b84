import JsonSieve.Proofs.Token.Progress

/-!
# The octets of tokens

A token that is not unknown starts and ends with an octet of ASCII.  Only strings hold other octets,
and only strings that have to be decoded hold line feeds.
-/

namespace JsonSieve

namespace Lexer

variable {word : Bytes} {kind : Token.Kind}

/-- Octets of which numerals consist: digits, signs, a point and a letter. -/
def InNumerals (octet : UInt8) : Prop :=
  isDigit octet ∨ octet ∈ [(0x2b : UInt8), 0x2d, 0x2e, 0x45, 0x65]

theorem inNumerals_of_allDigits (digital : AllDigits word) : ∀ octet ∈ word, InNumerals octet :=
  fun octet member => Or.inl (digital octet member)

theorem inNumerals_of_whole (whole : Whole word) : ∀ octet ∈ word, InNumerals octet := by
  cases whole with
  | zero => exact List.forall_mem_singleton.mpr (Or.inl rfl)
  | positive first others isDigit _ digital =>
      exact List.forall_mem_cons.mpr ⟨Or.inl isDigit, inNumerals_of_allDigits digital⟩

theorem inNumerals_of_fraction (fraction : Fraction word) : ∀ octet ∈ word, InNumerals octet := by
  cases fraction with
  | absent => exact fun _ member => absurd member List.not_mem_nil
  | present digits digital =>
      exact List.forall_mem_cons.mpr ⟨Or.inr (by decide), inNumerals_of_allDigits digital.2⟩

theorem inNumerals_of_signedDigits (signed : SignedDigits word) :
    ∀ octet ∈ word, InNumerals octet := by
  cases signed with
  | unsigned digits digital => exact inNumerals_of_allDigits digital.2
  | signed sign digits isSign digital =>
      refine List.forall_mem_cons.mpr ⟨Or.inr ?_, inNumerals_of_allDigits digital.2⟩
      rcases isSign with rfl | rfl <;> decide

theorem inNumerals_of_exponent (exponent : Exponent word) : ∀ octet ∈ word, InNumerals octet := by
  cases exponent with
  | absent => exact fun _ member => absurd member List.not_mem_nil
  | present letter digits isLetter signed =>
      refine List.forall_mem_cons.mpr ⟨Or.inr ?_, inNumerals_of_signedDigits signed⟩
      rcases isLetter with rfl | rfl <;> decide

theorem inNumerals_of_magnitude (magnitude : Magnitude word) :
    ∀ octet ∈ word, InNumerals octet := by
  obtain ⟨whole, fraction, exponent, isWhole, isFraction, isExponent⟩ := magnitude
  rw [List.forall_mem_append, List.forall_mem_append]
  exact ⟨⟨inNumerals_of_whole isWhole, inNumerals_of_fraction isFraction⟩,
    inNumerals_of_exponent isExponent⟩

theorem inNumerals_of_numeral (sound : Numeral word) : ∀ octet ∈ word, InNumerals octet := by
  cases sound with
  | unsigned word magnitude => exact inNumerals_of_magnitude magnitude
  | negative word magnitude =>
      exact List.forall_mem_cons.mpr ⟨Or.inr (by decide), inNumerals_of_magnitude magnitude⟩

theorem printable_of_inNumerals {octet : UInt8} (inNumeral : InNumerals octet) :
    0x20 ≤ octet ∧ octet < 0x80 := by
  rcases inNumeral with isDigit | special
  · simp only [Lexer.isDigit, Bool.and_eq_true, decide_eq_true_eq] at isDigit
    exact ⟨UInt8.le_trans (by decide) isDigit.1, UInt8.lt_of_le_of_lt isDigit.2 (by decide)⟩
  · simp only [List.mem_cons, List.not_mem_nil, or_false] at special
    rcases special with rfl | rfl | rfl | rfl | rfl <;> decide

/-- A token consists of printable characters of ASCII, or stands between quotes. -/
theorem printable_or_quoted (spelled : Spells kind word) :
    (∀ octet ∈ word, 0x20 ≤ octet ∧ octet < 0x80) ∨
      ∃ body, StringBody body ∧ kind = stringKind body ∧ word = 0x22 :: (body ++ [0x22]) := by
  cases spelled with
  | numeral word sound =>
      refine Or.inl fun octet member => ?_
      exact printable_of_inNumerals (inNumerals_of_numeral sound octet member)
  | string body isBody => exact Or.inr ⟨body, isBody, rfl, rfl⟩
  | _ => exact Or.inl (by simp)

theorem ascii_at_ends (spelled : Spells kind word) :
    (∀ octet ∈ word.head?, octet < 0x80) ∧ ∀ octet ∈ word.getLast?, octet < 0x80 := by
  rcases printable_or_quoted spelled with printable | ⟨body, -, -, rfl⟩
  · exact ⟨fun octet isHead => (printable octet (List.mem_of_mem_head? isHead)).2,
      fun octet isLast => (printable octet (List.mem_of_mem_getLast? isLast)).2⟩
  · constructor
    · rintro octet ⟨⟩
      decide
    · rw [← List.cons_append, List.getLast?_concat]
      rintro octet ⟨⟩
      decide

theorem escapedString_of_lineFeed (spelled : Spells kind word) (member : 0x0a ∈ word) :
    kind = .escapedString := by
  rcases printable_or_quoted spelled with printable | ⟨body, -, rfl, rfl⟩
  · exact absurd (printable 0x0a member).1 (by decide)
  · have inside : 0x0a ∈ body := by simpa using member
    exact if_pos ⟨0x0a, inside, by decide⟩

theorem spells_of_known {input : Bytes} (nonempty : input ≠ [])
    (known : (firstToken input).kind ≠ .unknown) :
    Spells (firstToken input).kind (firstToken input).raw := by
  rw [firstToken_of_ne_nil nonempty] at known ⊢
  obtain ⟨word, -, recognises⟩ := scan_recognises (show State.start.Live from trivial) input
  by_cases complete : ∃ kind, Spells kind word
  · obtain ⟨kind, spelled⟩ := complete
    rw [recognises.complete kind spelled]
    exact spelled
  · rw [recognises.incomplete (not_exists.mp complete)] at known
    exact absurd rfl known

end Lexer

end JsonSieve
