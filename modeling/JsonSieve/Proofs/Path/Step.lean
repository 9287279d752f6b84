import JsonSieve.Path
import JsonSieve.Proofs.Json.Numeral
import JsonSieve.Proofs.Text.Spans

/-!
# Steps of paths

A step is read from the front of a path in one of four forms: a key in brackets and quotes, an index
in brackets, a key after a point and a bare key.  Each form ends at a character that the key or the
index in it does not hold.  Text after a path changes the last step of the path at most, and that
only if its key is not in brackets.
-/

namespace JsonSieve

namespace Digits

theorem readWord?_ofNat {number : Nat} (small : number < wordBound) :
    readWord? (ofNat number) = some number := by
  have noPlus : (ofNat number).head? ≠ some '+' := by
    intro isPlus
    have digit := isDigit_of_mem_ofNat (List.mem_of_head? isPlus)
    contradiction
  have digital : (ofNat number).all Char.isDigit = true :=
    List.all_eq_true.mpr fun digit member => isDigit_of_mem_ofNat member
  have nonempty : (ofNat number).isEmpty = false := by
    simpa using ofNat_ne_nil number
  simp only [readWord?, if_neg noPlus, nonempty, digital, toNat_ofNat, small, Bool.not_false,
    Bool.and_self, decide_true, if_true]

theorem exists_cons_of_readWord? {text : List Char} {number : Nat}
    (read : readWord? text = some number) :
    ∃ first others, text = first :: others ∧ (first = '+' ∨ first.isDigit = true) := by
  cases text with
  | nil => cases read
  | cons first others =>
      refine ⟨first, others, rfl, ?_⟩
      by_cases plus : first = '+'
      · exact Or.inl plus
      · simp only [readWord?, List.head?_cons, Option.some.injEq, if_neg plus,
          List.all_cons] at read
        split at read
        · next digital =>
            simp only [Bool.and_eq_true] at digital
            exact Or.inr digital.1.2.1
        · cases read

end Digits

namespace Path

/-- A key that can stand without brackets and quotes. -/
structure IsBare (key : String) : Prop where
  nonempty : key ≠ ""
  noPoint : '.' ∉ key.toList
  noBracket : '[' ∉ key.toList

def EndsBareKey (after : List Char) : Prop :=
  ∀ character ∈ after.head?, isDelimiter character = true

variable {input rest after : List Char} {step : Step}

theorem readBareKey?_eq_some_iff :
    readBareKey? input = some (step, rest) ↔
      ∃ key, step = .key key ∧ input = key.toList ++ rest ∧ IsBare key ∧ EndsBareKey rest := by
  constructor
  · intro read
    unfold readBareKey? at read
    dsimp only at read
    split at read
    · cases read
    · next nonempty =>
        cases read
        obtain ⟨whole, inKey, stopped⟩ := Spans.span_eq_iff.mp
          (⟨rfl, rfl⟩ : input.takeWhile (fun character => !isDelimiter character) = _ ∧ _)
        refine ⟨_, rfl, by rwa [String.toList_ofList], ⟨?_, ?_, ?_⟩, ?_⟩
        · simpa using nonempty
        · rw [String.toList_ofList]
          exact fun member => absurd (inKey _ member) (by decide)
        · rw [String.toList_ofList]
          exact fun member => absurd (inKey _ member) (by decide)
        · intro character first
          simpa using stopped character first
  · rintro ⟨key, rfl, rfl, isBare, ends⟩
    have inKey : ∀ character ∈ key.toList, (!isDelimiter character) = true := by
      intro character member
      have notPoint : character ≠ '.' := fun same => isBare.noPoint (same ▸ member)
      have notBracket : character ≠ '[' := fun same => isBare.noBracket (same ▸ member)
      simp [isDelimiter, notPoint, notBracket]
    have stopped : ∀ character ∈ rest.head?, (!isDelimiter character) = false := by
      intro character first
      rw [ends character first, Bool.not_true]
    obtain ⟨name, others⟩ := Spans.span_eq_iff.mpr ⟨rfl, inKey, stopped⟩
    have nonempty : ¬key.toList.isEmpty = true := by simpa using isBare.nonempty
    rw [readBareKey?, name, others, String.ofList_toList]
    exact if_neg nonempty

theorem readQuotedKey?_eq_some_iff {quote : Char} :
    readQuotedKey? quote input = some (step, rest) ↔
      ∃ key, step = .key key ∧ input = key.toList ++ quote :: ']' :: rest ∧
        quote ∉ key.toList := by
  constructor
  · intro read
    unfold readQuotedKey? at read
    split at read
    · next closed =>
        cases read
        obtain ⟨whole, inKey, stopped⟩ := Spans.span_eq_iff.mp ⟨rfl, closed⟩
        obtain rfl : _ = quote := by simpa using stopped _ rfl
        refine ⟨_, rfl, by rwa [String.toList_ofList], ?_⟩
        rw [String.toList_ofList]
        exact fun member => by simpa using inKey _ member
    · cases read
  · rintro ⟨key, rfl, rfl, unquoted⟩
    have inKey : ∀ character ∈ key.toList, decide (character ≠ quote) = true :=
      fun character member => decide_eq_true fun same => unquoted (same ▸ member)
    have stopped : ∀ character ∈ (quote :: ']' :: rest).head?,
        decide (character ≠ quote) = false := by
      rintro character ⟨⟩
      simp
    obtain ⟨name, others⟩ := Spans.span_eq_iff.mpr ⟨rfl, inKey, stopped⟩
    rw [readQuotedKey?, others, name, String.ofList_toList]
    rfl

theorem readIndexStep?_eq_some_iff :
    readIndexStep? input = some (step, rest) ↔
      ∃ digits index, step = .index index ∧ input = digits ++ ']' :: rest ∧ ']' ∉ digits ∧
        Digits.readWord? digits = some index := by
  constructor
  · intro read
    unfold readIndexStep? at read
    split at read
    · next closed =>
        obtain ⟨index, isIndex, same⟩ := Option.map_eq_some_iff.mp read
        cases same
        obtain ⟨whole, inDigits, stopped⟩ := Spans.span_eq_iff.mp ⟨rfl, closed⟩
        obtain rfl : _ = ']' := by simpa using stopped _ rfl
        exact ⟨_, index, rfl, whole, fun member => by simpa using inDigits _ member, isIndex⟩
    · cases read
  · rintro ⟨digits, index, rfl, rfl, unclosed, isIndex⟩
    have inDigits : ∀ character ∈ digits, decide (character ≠ ']') = true :=
      fun character member => decide_eq_true fun same => unclosed (same ▸ member)
    have stopped : ∀ character ∈ (']' :: rest).head?, decide (character ≠ ']') = false := by
      rintro character ⟨⟩
      rfl
    obtain ⟨word, others⟩ := Spans.span_eq_iff.mpr ⟨rfl, inDigits, stopped⟩
    rw [readIndexStep?, others, word]
    dsimp only
    rw [isIndex]
    rfl

/-- A path that starts with a step, and what follows the step. -/
inductive StartsWith : List Char → Step → List Char → Prop
  | quoted {quote : Char} {key : String} {rest : List Char} :
      quote = '\x27' ∨ quote = '"' → quote ∉ key.toList →
        StartsWith ('[' :: quote :: (key.toList ++ quote :: ']' :: rest)) (.key key) rest
  | index {digits rest : List Char} {index : Nat} :
      ']' ∉ digits → Digits.readWord? digits = some index →
        StartsWith ('[' :: (digits ++ ']' :: rest)) (.index index) rest
  | pointed {key : String} {rest : List Char} :
      IsBare key → EndsBareKey rest → StartsWith ('.' :: (key.toList ++ rest)) (.key key) rest
  | bare {key : String} {rest : List Char} :
      IsBare key → EndsBareKey rest → StartsWith (key.toList ++ rest) (.key key) rest

theorem IsBare.exists_cons {key : String} (isBare : IsBare key) :
    ∃ first others, key.toList = first :: others ∧ first ≠ '.' ∧ first ≠ '[' := by
  obtain ⟨first, others, spelled⟩ :=
    List.exists_cons_of_ne_nil (show key.toList ≠ [] by simpa using isBare.nonempty)
  refine ⟨first, others, spelled, ?_, ?_⟩
  · exact fun same => isBare.noPoint (by simp [spelled, same])
  · exact fun same => isBare.noBracket (by simp [spelled, same])

theorem readBracket?_index {digits : List Char} {index : Nat}
    (isIndex : Digits.readWord? digits = some index) (rest : List Char) :
    readBracket? (digits ++ rest) = readIndexStep? (digits ++ rest) := by
  obtain ⟨first, others, rfl, plusOrDigit⟩ := Digits.exists_cons_of_readWord? isIndex
  rw [List.cons_append, readBracket?]
  · rintro others ⟨⟩
    contradiction
  · rintro others ⟨⟩
    contradiction

theorem readStep?_of_startsWith (starts : StartsWith input step rest) :
    readStep? input = some (step, rest) := by
  cases starts with
  | quoted isQuote unquoted =>
      rcases isQuote with rfl | rfl
      · exact readQuotedKey?_eq_some_iff.mpr ⟨_, rfl, rfl, unquoted⟩
      · exact readQuotedKey?_eq_some_iff.mpr ⟨_, rfl, rfl, unquoted⟩
  | index unclosed isIndex =>
      rw [readStep?, readBracket?_index isIndex]
      exact readIndexStep?_eq_some_iff.mpr ⟨_, _, rfl, rfl, unclosed, isIndex⟩
  | pointed isBare ends => exact readBareKey?_eq_some_iff.mpr ⟨_, rfl, rfl, isBare, ends⟩
  | bare isBare ends =>
      have read := readBareKey?_eq_some_iff.mpr ⟨_, rfl, rfl, isBare, ends⟩
      obtain ⟨first, others, spelled, notPoint, notBracket⟩ := isBare.exists_cons
      rw [← read, spelled, List.cons_append, readStep?]
      · exact fun others same => notBracket (List.cons.inj same).1
      · exact fun others same => notPoint (List.cons.inj same).1

theorem startsWith_of_readStep? (read : readStep? input = some (step, rest)) :
    StartsWith input step rest := by
  unfold readStep? at read
  split at read
  · unfold readBracket? at read
    split at read
    · obtain ⟨key, rfl, rfl, unquoted⟩ := readQuotedKey?_eq_some_iff.mp read
      exact .quoted (Or.inl rfl) unquoted
    · obtain ⟨key, rfl, rfl, unquoted⟩ := readQuotedKey?_eq_some_iff.mp read
      exact .quoted (Or.inr rfl) unquoted
    · obtain ⟨digits, index, rfl, rfl, unclosed, isIndex⟩ := readIndexStep?_eq_some_iff.mp read
      exact .index unclosed isIndex
  · obtain ⟨key, rfl, rfl, isBare, ends⟩ := readBareKey?_eq_some_iff.mp read
    exact .pointed isBare ends
  · obtain ⟨key, rfl, rfl, isBare, ends⟩ := readBareKey?_eq_some_iff.mp read
    exact .bare isBare ends

theorem readStep?_eq_some_iff :
    readStep? input = some (step, rest) ↔ StartsWith input step rest :=
  ⟨startsWith_of_readStep?, readStep?_of_startsWith⟩

theorem EndsBareKey.append (ends : EndsBareKey rest) (endsAfter : rest = [] → EndsBareKey after) :
    EndsBareKey (rest ++ after) := by
  cases rest with
  | nil => exact endsAfter rfl
  | cons character rest => exact ends

/-- Text after a path can only change the last step of the path, and that only if it is not in
brackets. -/
theorem readStep?_append (read : readStep? input = some (step, rest))
    (ends : rest = [] → EndsBareKey after ∨ input.head? = some '[') :
    readStep? (input ++ after) = some (step, rest ++ after) := by
  rw [readStep?_eq_some_iff] at read ⊢
  cases read with
  | quoted isQuote unquoted => simpa using StartsWith.quoted isQuote unquoted
  | index unclosed isIndex => simpa using StartsWith.index unclosed isIndex
  | pointed isBare restEnds =>
      have endsAfter : rest = [] → EndsBareKey after :=
        fun nothing => (ends nothing).resolve_right (by simp)
      simpa using StartsWith.pointed isBare (restEnds.append endsAfter)
  | bare isBare restEnds =>
      obtain ⟨first, others, spelled, -, notBracket⟩ := isBare.exists_cons
      have endsAfter : rest = [] → EndsBareKey after :=
        fun nothing => (ends nothing).resolve_right (by simp [spelled, notBracket])
      simpa using StartsWith.bare isBare (restEnds.append endsAfter)

end Path

end JsonSieve
