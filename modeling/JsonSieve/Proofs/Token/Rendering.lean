import JsonSieve.Proofs.Token.Progress

/-!
# Reading rendered tokens

Complete tokens that are written one after the other, with blanks between them or not, are read
back.  What follows a token matters only if the token is a numeral: a numeral would go on with a
further digit, a point or the letter of an exponent.  No token but a numeral starts with one of
these, so that blanks are needed only between two numerals.
-/

namespace JsonSieve

def Token.IsNumeral (token : Token) : Prop :=
  token.kind = .integer ∨ token.kind = .number

namespace Lexer

/-- Octets with which no numeral goes on. -/
def EndsNumeral (rest : Bytes) : Prop :=
  ∀ octet ∈ rest.head?, ¬isDigit octet ∧ octet ≠ 0x2e ∧ ¬isExponentLetter octet

section

variable {state : State} {kind : Token.Kind} {octet : UInt8} {word rest : Bytes}

theorem scan_of_completes_nil (completes : Completes state kind [])
    (ends : kind = .integer ∨ kind = .number → EndsNumeral rest) :
    scan state rest = ⟨kind, []⟩ := by
  obtain ⟨rfl, known⟩ := (completes_nil state kind).mp completes
  cases rest with
  | nil => rfl
  | cons octet rest =>
      -- The only states in which an input may end are four inside a numeral.
      cases state with
      | zero | whole =>
          have stops := ends (Or.inl rfl) octet rfl
          simp [scan, State.next, State.kindAtEnd, stops]
      | fraction | exponentDigits =>
          have stops := ends (Or.inr rfl) octet rfl
          simp [scan, State.next, State.kindAtEnd, stops]
      | _ => exact absurd rfl known

/-- The octets that complete a token are read to their end, whatever follows them, unless they are
a numeral that goes on. -/
theorem scan_append (completes : Completes state kind word)
    (ends : kind = .integer ∨ kind = .number → EndsNumeral rest) :
    scan state (word ++ rest) = ⟨kind, word⟩ := by
  induction word generalizing state with
  | nil => exact scan_of_completes_nil completes ends
  | cons octet word ih =>
      rw [completes_cons] at completes
      rw [List.cons_append, scan]
      cases step : state.next octet with
      | more next =>
          rw [step] at completes
          simp only [ih completes]
      | last meant =>
          rw [step] at completes
          obtain ⟨rfl, -, rfl⟩ := completes
          rfl
      | before meant =>
          rw [step] at completes
          exact completes.elim

theorem isNumeral_numeralKind (word : Bytes) :
    numeralKind word = .integer ∨ numeralKind word = .number := by
  unfold numeralKind
  split
  · exact Or.inr rfl
  · exact Or.inl rfl

theorem isBlank_of_spells (spelled : Spells kind (octet :: word)) : isBlank octet = false := by
  apply eq_false_of_ne_true
  intro blank
  have unknown : State.begin octet = .last .unknown := by
    simp only [isBlank_iff, List.mem_cons, List.not_mem_nil, or_false] at blank
    rcases blank with rfl | rfl | rfl | rfl <;> rfl
  have completes := completes_begin_of_spells spelled
  rw [unknown] at completes
  exact completes.2.1 rfl

theorem endsNumeral_of_spells (spelled : Spells kind word)
    (noNumeral : ¬(kind = .integer ∨ kind = .number)) (rest : Bytes) :
    EndsNumeral (word ++ rest) := by
  intro octet isHead
  cases spelled with
  | numeral word sound => exact absurd (isNumeral_numeralKind word) noNumeral
  | _ =>
      obtain rfl := Option.some.inj isHead
      decide

theorem endsNumeral_of_blanks {blanks : Bytes} (blank : Blanks blanks) (nonempty : blanks ≠ [])
    (rest : Bytes) : EndsNumeral (blanks ++ rest) := by
  intro octet isHead
  obtain ⟨first, others, rfl⟩ := List.exists_cons_of_ne_nil nonempty
  obtain rfl := Option.some.inj isHead
  have isBlank := blank first (List.mem_cons_self ..)
  simp only [List.mem_cons, List.not_mem_nil, or_false] at isBlank
  rcases isBlank with rfl | rfl | rfl | rfl <;> decide

end

variable {blanks rest : Bytes} {token : Token}

theorem tokens_offset (offset other : Nat) (input : Bytes) :
    (tokensFrom offset input).map Prod.snd = (tokensFrom other input).map Prod.snd := by
  fun_induction tokensFrom offset input generalizing other with
  | case1 offset input blank =>
      rw [tokensFrom]
      split
      · rfl
      · next octet octets split =>
          rw [blank] at split
          cases split
  | case2 offset input octet octets found token position ih =>
      rw [tokensFrom.eq_def other]
      split
      · next blank =>
          rw [found] at blank
          cases blank
      · next first others split =>
          obtain ⟨rfl, rfl⟩ := List.cons.inj (found.symm.trans split)
          exact congrArg (List.cons token) (ih _)

/-- The tokens of an input are the first token behind its leading blanks and the tokens of what
follows that. -/
theorem tokenize_eq (input : Bytes) :
    tokenize input =
      match input.dropWhile isBlank with
      | [] => [.atEnd]
      | octet :: octets =>
          firstToken (octet :: octets) ::
            tokenize ((octet :: octets).drop (firstToken (octet :: octets)).raw.length) := by
  rw [tokenize, locatedTokens, tokensFrom.eq_def]
  split
  · next blank =>
      rw [blank]
      rfl
  · next octet octets found =>
      simp only [found, List.map_cons, List.cons_append]
      rw [tokens_offset _ 0]
      rfl

theorem dropWhile_blanks_append (blank : Blanks blanks) (rest : Bytes) :
    (blanks ++ rest).dropWhile isBlank = rest.dropWhile isBlank :=
  List.dropWhile_append_of_pos fun octet member => isBlank_iff.mpr (blank octet member)

theorem tokenize_blanks_append (blank : Blanks blanks) (rest : Bytes) :
    tokenize (blanks ++ rest) = tokenize rest := by
  rw [tokenize_eq, tokenize_eq rest, dropWhile_blanks_append blank]

theorem tokenize_blanks (blank : Blanks blanks) : tokenize blanks = [.atEnd] := by
  rw [tokenize_eq, dropWhile_eq_nil_iff.mpr blank]

/-- A complete token at the front of an input is read, and then what follows it, unless it is a
numeral that goes on. -/
theorem tokenize_token_append (spelled : Spells token.kind token.raw)
    (ends : token.IsNumeral → EndsNumeral rest) :
    tokenize (token.raw ++ rest) = token :: tokenize rest := by
  obtain ⟨kind, raw⟩ := token
  cases raw with
  | nil => exact absurd spelled (not_spells_nil kind)
  | cons octet word =>
      have noBlank := isBlank_of_spells spelled
      have read : firstToken (octet :: word ++ rest) = ⟨kind, octet :: word⟩ := by
        rw [firstToken_of_ne_nil (List.append_ne_nil_of_left_ne_nil (List.cons_ne_nil _ _) _)]
        exact scan_append spelled ends
      rw [tokenize_eq, List.cons_append, List.dropWhile_cons_of_neg (by simp [noBlank])]
      simp only [← List.cons_append, read, List.drop_left]

def rendered (first : Bytes) (pieces : List (Token × Bytes)) : Bytes :=
  first ++ pieces.flatMap fun piece => piece.1.raw ++ piece.2

/-- Complete tokens with blanks around them, and with at least one blank between two numerals that
follow each other. -/
structure SetApart (first : Bytes) (pieces : List (Token × Bytes)) : Prop where
  complete : ∀ piece ∈ pieces, Spells piece.1.kind piece.1.raw
  blankFirst : Blanks first
  blank : ∀ piece ∈ pieces, Blanks piece.2
  apart : pieces.IsChain fun piece next =>
    piece.1.IsNumeral → next.1.IsNumeral → piece.2 ≠ []

theorem SetApart.tail {first : Bytes} {piece : Token × Bytes} {pieces : List (Token × Bytes)}
    (setApart : SetApart first (piece :: pieces)) : SetApart piece.2 pieces where
  complete := (List.forall_mem_cons.mp setApart.complete).2
  blankFirst := (List.forall_mem_cons.mp setApart.blank).1
  blank := (List.forall_mem_cons.mp setApart.blank).2
  apart := setApart.apart.tail

theorem SetApart.endsNumeral {first : Bytes} {piece : Token × Bytes}
    {pieces : List (Token × Bytes)} (setApart : SetApart first (piece :: pieces))
    (isNumeral : piece.1.IsNumeral) : EndsNumeral (rendered piece.2 pieces) := by
  by_cases empty : piece.2 = []
  · cases pieces with
    | nil => simp [rendered, empty, EndsNumeral]
    | cons next pieces =>
        have noNumeral : ¬next.1.IsNumeral := fun nextIsNumeral =>
          (List.isChain_cons_cons.mp setApart.apart).1 isNumeral nextIsNumeral empty
        have spelled := setApart.complete next (by simp)
        rw [rendered, empty, List.nil_append, List.flatMap_cons, List.append_assoc]
        exact endsNumeral_of_spells spelled noNumeral _
  · exact endsNumeral_of_blanks setApart.tail.blankFirst empty _

theorem tokenize_rendered {first : Bytes} {pieces : List (Token × Bytes)}
    (setApart : SetApart first pieces) :
    tokenize (rendered first pieces) = pieces.map Prod.fst ++ [.atEnd] := by
  -- Behind the first token stand its blanks and the other pieces, which are rendered tokens too.
  induction pieces generalizing first with
  | nil =>
      rw [rendered, List.flatMap_nil, List.append_nil]
      exact tokenize_blanks setApart.blankFirst
  | cons piece pieces ih =>
      have spelled := setApart.complete piece (List.mem_cons_self ..)
      rw [rendered, tokenize_blanks_append setApart.blankFirst, List.flatMap_cons,
        List.append_assoc]
      calc
        tokenize (piece.1.raw ++ rendered piece.2 pieces) =
            piece.1 :: tokenize (rendered piece.2 pieces) :=
          tokenize_token_append spelled setApart.endsNumeral
        _ = piece.1 :: (pieces.map Prod.fst ++ [.atEnd]) := by rw [ih setApart.tail]

/-- Complete tokens are read back from a text in which they stand with any blanks between them, as
long as two numerals are kept apart. -/
theorem lexing_undoes_rendering {first : Bytes} {pieces : List (Token × Bytes)}
    (setApart : SetApart first pieces) :
    tokenize (rendered first pieces) = pieces.map Prod.fst ++ [.atEnd] ∧
      ∀ otherFirst others, SetApart otherFirst others →
        others.map Prod.fst = pieces.map Prod.fst →
          tokenize (rendered otherFirst others) = tokenize (rendered first pieces) := by
  refine ⟨tokenize_rendered setApart, ?_⟩
  intro otherFirst others otherApart same
  rw [tokenize_rendered otherApart, tokenize_rendered setApart, same]

/-- The text `1 -2[""` with a tab at its end. -/
def numeralsThenString : List (Token × Bytes) :=
  [(⟨.integer, [0x31]⟩, [0x20]), (⟨.integer, [0x2d, 0x32]⟩, []), (⟨.openBracket, [0x5b]⟩, []),
    (⟨.string, [0x22, 0x22]⟩, [0x09])]

theorem setApart_numeralsThenString : SetApart [] numeralsThenString where
  complete := by
    have magnitude : ∀ digit, isDigit digit → digit ≠ 0x30 → Magnitude [digit] :=
      fun digit isDigit nonzero =>
        .mk [digit] [] [] (.positive digit [] isDigit nonzero allDigits_nil) .absent .absent
    have one : Spells .integer [0x31] := .numeral _ (.unsigned _ (magnitude 0x31 rfl (by decide)))
    have minusTwo : Spells .integer [0x2d, 0x32] :=
      .numeral _ (.negative _ (magnitude 0x32 rfl (by decide)))
    have empty : Spells .string [0x22, 0x22] := .string [] .nil
    simp [numeralsThenString, one, minusTwo, empty, Spells.openBracket]
  blankFirst := by simp [Blanks]
  blank := by simp [numeralsThenString, Blanks]
  apart := by simp [numeralsThenString, Token.IsNumeral]

theorem lexing_undoes_rendering_numeralsThenString :
    SetApart [] numeralsThenString ∧
      tokenize [0x31, 0x20, 0x2d, 0x32, 0x5b, 0x22, 0x22, 0x09] =
        [⟨.integer, [0x31]⟩, ⟨.integer, [0x2d, 0x32]⟩, ⟨.openBracket, [0x5b]⟩,
          ⟨.string, [0x22, 0x22]⟩, .atEnd] :=
  ⟨setApart_numeralsThenString, (lexing_undoes_rendering setApart_numeralsThenString).1⟩

end Lexer

end JsonSieve
