import JsonSieve.Proofs.Json.Assembly
import JsonSieve.Proofs.Json.Octets
import JsonSieve.Proofs.Json.Spelling

/-!
# How far a value extends

A value is read from a word at the front of the input, and from the same word whatever follows it,
as long as no numeral goes on there.  So a text is read in the same way with other blanks around it.
The word of an array ends with its closing bracket, and what is left of a text without the blanks
around it is just this word.
-/

namespace JsonSieve.Json

namespace Numeral

variable {input after digits : List Char}

theorem word_of_readWhole? (read : readWhole? input = some (digits, after)) :
    (input = digits ++ after ∧ ∃ first others, digits = first :: others ∧ first.isDigit) ∧
      ∀ rest, NoDigit rest → readWhole? (digits ++ rest) = some (digits, rest) := by
  unfold readWhole? at read
  split at read
  · cases read
    exact ⟨⟨rfl, '0', [], rfl, rfl⟩, fun rest _ => rfl⟩
  · next noZero =>
      obtain ⟨rfl, nonempty, digital, -⟩ := readDigits?_eq_some_iff.mp read
      obtain ⟨first, others, rfl⟩ := List.exists_cons_of_ne_nil nonempty
      refine ⟨⟨rfl, first, others, rfl, digital first (List.mem_cons_self ..)⟩, fun rest => ?_⟩
      refine readWhole?_digits nonempty digital (Or.inr ?_)
      rw [List.head?_cons]
      rintro zero
      exact noZero (others ++ after) (by rw [List.cons_append, Option.some.inj zero])

def EndsFraction (rest : List Char) : Prop :=
  NoDigit rest ∧ rest.head? ≠ some '.'

theorem word_of_readFraction? (read : readFraction? input = some (digits, after)) :
    ∃ word, input = word ++ after ∧ ∀ rest, EndsFraction rest →
      NoDigit (word ++ rest) ∧ readFraction? (word ++ rest) = some (digits, rest) := by
  unfold readFraction? at read
  split at read
  · obtain ⟨rfl, nonempty, digital, -⟩ := readDigits?_eq_some_iff.mp read
    refine ⟨'.' :: digits, rfl, fun rest ends => ⟨?_, ?_⟩⟩
    · rintro character isHead
      cases isHead
      decide
    · exact readDigits?_eq_some_iff.mpr ⟨rfl, nonempty, digital, ends.1⟩
  · cases read
    refine ⟨[], rfl, fun rest ends => ⟨ends.1, ?_⟩⟩
    rw [List.nil_append, readFraction?]
    rintro others rfl
    exact ends.2 rfl

theorem endsFraction_of_ends {rest : List Char} (ends : Ends rest) : EndsFraction rest :=
  ⟨fun character isHead => (ends character isHead).1,
    fun isPoint => (ends '.' (Option.mem_def.mpr isPoint)).2.1 rfl⟩

theorem readMinus_digit {first : Char} (digit : first.isDigit) (rest : List Char) :
    readMinus (first :: rest) = (false, first :: rest) := by
  rw [readMinus]
  intro others equal
  rw [(List.cons.inj equal).1] at digit
  cases digit

theorem word_of_readMinus (input : List Char) :
    ∃ sign, input = sign ++ (readMinus input).2 ∧ ∀ first rest, first.isDigit →
      readMinus (sign ++ first :: rest) = ((readMinus input).1, first :: rest) := by
  unfold readMinus
  split
  · exact ⟨['-'], rfl, fun first rest _ => rfl⟩
  · exact ⟨[], rfl, fun first rest digit => readMinus_digit digit rest⟩

theorem word_of_readSign (input : List Char) :
    ∃ sign, input = sign ++ (readSign input).2 ∧ ∀ first rest, first.isDigit →
      readSign (sign ++ first :: rest) = ((readSign input).1, first :: rest) := by
  by_cases plus : input.head? = some '+'
  · obtain ⟨others, rfl⟩ := List.head?_eq_some_iff.mp plus
    exact ⟨['+'], rfl, fun first rest _ => rfl⟩
  · have noPlus : ∀ input, input.head? ≠ some '+' → readSign input = readMinus input := by
      intro input noPlus
      rw [readSign]
      rintro others rfl
      exact noPlus rfl
    obtain ⟨sign, split, own⟩ := word_of_readMinus input
    rw [noPlus input plus]
    refine ⟨sign, split, fun first rest digit => ?_⟩
    rw [noPlus, own first rest digit]
    cases sign with
    | nil =>
        rintro isPlus
        rw [List.nil_append, List.head?_cons] at isPlus
        rw [Option.some.inj isPlus] at digit
        cases digit
    | cons symbol sign =>
        rw [split] at plus
        exact plus

theorem word_of_readExponent? {exponent : Option (Bool × List Char)}
    (read : readExponent? input = some (exponent, after)) :
    ∃ word, input = word ++ after ∧ ∀ rest, Ends rest →
      EndsFraction (word ++ rest) ∧ readExponent? (word ++ rest) = some (exponent, rest) := by
  have absent : ∀ rest, Ends rest → readExponent? rest = some (none, rest) := by
    intro rest ends
    cases rest with
    | nil => rfl
    | cons letter rest =>
        obtain ⟨-, -, noLetter⟩ := ends letter rfl
        simp [readExponent?, noLetter]
  cases input with
  | nil =>
      cases read
      exact ⟨[], rfl, fun rest ends => ⟨endsFraction_of_ends ends, absent rest ends⟩⟩
  | cons letter input =>
      simp only [readExponent?] at read
      split at read
      · next isLetter =>
          obtain ⟨⟨digits, afterDigits⟩, readDigits, equal⟩ := Option.map_eq_some_iff.mp read
          cases equal
          obtain ⟨split, nonempty, digital, -⟩ := readDigits?_eq_some_iff.mp readDigits
          obtain ⟨first, others, rfl⟩ := List.exists_cons_of_ne_nil nonempty
          obtain ⟨sign, whole, own⟩ := word_of_readSign input
          refine ⟨letter :: (sign ++ first :: others), ?_, fun rest ends => ⟨⟨?_, ?_⟩, ?_⟩⟩
          · rw [List.cons_append, List.append_assoc, ← split, ← whole]
          · rintro character isHead
            cases isHead
            simp only [Bool.or_eq_true, decide_eq_true_eq] at isLetter
            rcases isLetter with rfl | rfl <;> decide
          · intro isPoint
            cases isPoint
            revert isLetter
            decide
          · have readRest : readDigits? (first :: others ++ rest) = some (first :: others, rest) :=
              readDigits?_eq_some_iff.mpr
                ⟨rfl, nonempty, digital, (endsFraction_of_ends ends).1⟩
            have readSigned := own first (others ++ rest) (digital first (List.mem_cons_self ..))
            rw [← List.cons_append] at readSigned
            simp only [List.cons_append, List.append_assoc, readExponent?, if_pos isLetter]
            rw [← List.cons_append, readSigned, readRest]
            rfl
      · cases read
        exact ⟨[], rfl, fun rest ends => ⟨endsFraction_of_ends ends, absent rest ends⟩⟩

/-- A numeral is read from a word, whatever follows it that does not continue it. -/
theorem word_of_read? {numeral : Numeral} (read : read? input = some (numeral, after)) :
    ∃ word, input = word ++ after ∧ word ≠ [] ∧
      ∀ rest, Ends rest → read? (word ++ rest) = some (numeral, rest) := by
  simp only [read?, Option.bind_eq_bind, Option.bind_eq_some_iff, Prod.exists, Option.pure_def,
    Option.some.injEq, Prod.mk.injEq] at read
  obtain ⟨whole, afterWhole, readWhole, fraction, afterFraction, readFraction, exponent,
    afterExponent, readExponent, rfl, rfl⟩ := read
  obtain ⟨sign, splitSign, ownSign⟩ := word_of_readMinus input
  obtain ⟨⟨splitWhole, first, others, rfl, digit⟩, ownWhole⟩ := word_of_readWhole? readWhole
  obtain ⟨fractional, rfl, ownFraction⟩ := word_of_readFraction? readFraction
  obtain ⟨exponential, rfl, ownExponent⟩ := word_of_readExponent? readExponent
  refine ⟨sign ++ (first :: others ++ (fractional ++ exponential)), ?_, by simp,
    fun rest ends => ?_⟩
  · rw [splitWhole] at splitSign
    simpa using splitSign
  · obtain ⟨endsExponent, readExponent⟩ := ownExponent rest ends
    obtain ⟨endsWhole, readFraction⟩ := ownFraction _ endsExponent
    have readWhole := ownWhole _ endsWhole
    have readSign := ownSign first (others ++ (fractional ++ (exponential ++ rest))) digit
    rw [List.cons_append] at readWhole
    simp only [read?, List.append_assoc, List.cons_append, readSign, readWhole, readFraction,
      readExponent, Option.bind_eq_bind, Option.bind_some, Option.pure_def]

end Numeral

namespace Reader

/-- A word is read as a value whatever follows it that does not continue a numeral.  Every nested
call takes one unit of fuel, and every two of them consume a character. -/
def IsRead (levels : Nat) (word : List Char) (value : Value) : Prop :=
  ∀ fuel rest, 2 * word.length ≤ fuel → Numeral.Ends rest →
    readValue? fuel levels (word ++ rest) = some (value, rest)

def AreItems (levels : Nat) (word : List Char) (items : List Value) : Prop :=
  ∀ fuel rest, 2 * word.length ≤ fuel + 1 →
    readItems? fuel levels (word ++ rest) = some (items, rest)

def AreMembers (levels : Nat) (word : List Char) (members : List (String × Value)) : Prop :=
  ∀ fuel rest, 2 * word.length ≤ fuel + 1 →
    readMembers? fuel levels (word ++ rest) = some (members, rest)

/-- Every value that is read within so much fuel is read from a word. -/
def ValuesHaveWords (fuel : Nat) : Prop :=
  ∀ {levels input value after}, readValue? fuel levels input = some (value, after) →
    ∃ word, input = word ++ after ∧ word ≠ [] ∧ IsRead levels word value

def ItemsHaveWords (fuel : Nat) : Prop :=
  ∀ {levels input items after}, readItems? fuel levels input = some (items, after) →
    ∃ word, input = word ++ after ∧ word.getLast? = some ']' ∧ AreItems levels word items

def MembersHaveWords (fuel : Nat) : Prop :=
  ∀ {levels input members after}, readMembers? fuel levels input = some (members, after) →
    ∃ word, input = word ++ after ∧ word ≠ [] ∧ AreMembers levels word members

variable {fuel levels : Nat} {input after word rest : List Char}

theorem skipBlanks_append {blanks : List Char} (blank : ∀ character ∈ blanks, isBlank character)
    (rest : List Char) : skipBlanks (blanks ++ rest) = skipBlanks rest :=
  List.dropWhile_append_of_pos blank

theorem exists_front (nonempty : word ≠ []) (goesOn : skipBlanks input = word ++ after) :
    ∃ front, input = front ++ after ∧ front.getLast? = word.getLast? ∧
      word.length ≤ front.length ∧ ∀ rest, skipBlanks (front ++ rest) = word ++ rest := by
  refine ⟨input.takeWhile isBlank ++ word, ?_, List.getLast?_append_of_ne_nil _ nonempty,
    by simp, fun rest => ?_⟩
  · rw [List.append_assoc, ← goesOn]
    exact List.takeWhile_append_dropWhile.symm
  · obtain ⟨first, others, rfl⟩ := List.exists_cons_of_ne_nil nonempty
    have stopped := List.head?_dropWhile_not isBlank input
    rw [← skipBlanks, goesOn] at stopped
    rw [List.append_assoc, skipBlanks_append fun _ => List.mem_takeWhile_imp]
    exact skipBlanks_cons (by simpa using stopped)

theorem exists_front_mark {mark : Char} (marked : skipBlanks input = mark :: after) :
    ∃ front, input = front ++ after ∧ front.getLast? = some mark ∧ 1 ≤ front.length ∧
      ∀ rest, skipBlanks (front ++ rest) = mark :: rest :=
  exists_front (List.cons_ne_nil mark []) marked

theorem ends_of_skipBlanks {mark : Char} (isMark : mark = ',' ∨ mark = ']' ∨ mark = '\x7d')
    (marked : skipBlanks input = mark :: rest) : Numeral.Ends input := by
  cases input with
  | nil => cases marked
  | cons first others =>
      by_cases blank : isBlank first
      · exact ends_cons_of_isBlank blank
      · rw [skipBlanks, List.dropWhile_cons_of_neg blank] at marked
        rw [marked]
        exact ends_cons isMark

/-- A value is read from its word up to a mark behind it. -/
theorem IsRead.marked {value : Value} {mark : Char} (own : IsRead levels word value)
    (isMark : mark = ',' ∨ mark = ']' ∨ mark = '\x7d') (enough : 2 * word.length ≤ fuel)
    (marked : skipBlanks after = mark :: rest) :
    readValue? fuel levels (word ++ after) = some (value, after) :=
  own fuel after enough (ends_of_skipBlanks isMark marked)

theorem itemsHaveWords_succ (values : ValuesHaveWords fuel) (others : ItemsHaveWords fuel) :
    ItemsHaveWords (fuel + 1) := by
  intro levels input items after read
  simp only [readItems?, Option.bind_eq_bind, Option.bind_eq_some_iff, Prod.exists] at read
  obtain ⟨item, behind, readItem, read⟩ := read
  obtain ⟨word, rfl, nonempty, own⟩ := values readItem
  have positive := List.length_pos_iff.mpr nonempty
  split at read
  · next closes =>
      cases read
      obtain ⟨closing, rfl, last, long, closesOn⟩ := exists_front_mark closes
      refine ⟨word ++ closing, (List.append_assoc ..).symm, by simp [last],
        fun fuel rest enough => ?_⟩
      rw [List.length_append] at enough
      obtain ⟨fuel, rfl⟩ := Nat.exists_eq_add_one_of_ne_zero (show fuel ≠ 0 by omega)
      rw [List.append_assoc]
      exact readItems?_item (own.marked (by simp) (by omega) (closesOn rest))
        (Or.inl ⟨closesOn rest, rfl⟩)
  · next comma =>
      simp only [Option.bind_eq_some_iff, Prod.exists] at read
      obtain ⟨more, afterItems, readItems, equal⟩ := read
      cases equal
      obtain ⟨moreWord, goesOn, last, moreOwn⟩ := others readItems
      obtain ⟨further, rfl, sameLast, longer, moreOn⟩ :=
        exists_front (by rintro rfl; cases last) goesOn
      obtain ⟨separator, rfl, -, long, commaOn⟩ := exists_front_mark comma
      refine ⟨word ++ (separator ++ further), by simp, by simp [sameLast, last],
        fun fuel rest enough => ?_⟩
      simp only [List.length_append] at enough
      obtain ⟨fuel, rfl⟩ := Nat.exists_eq_add_one_of_ne_zero (show fuel ≠ 0 by omega)
      have readMore := moreOwn fuel rest (by omega)
      rw [← moreOn] at readMore
      rw [List.append_assoc, List.append_assoc]
      exact readItems?_item (own.marked (by simp) (by omega) (commaOn _))
        (Or.inr ⟨_, commaOn _, readMore⟩)
  · cases read

theorem membersHaveWords_succ (values : ValuesHaveWords fuel) (others : MembersHaveWords fuel) :
    MembersHaveWords (fuel + 1) := by
  intro levels input members after read
  unfold readMembers? at read
  split at read
  · next same =>
      obtain rfl := Nat.succ.inj same
      simp only [Option.bind_eq_bind, Option.bind_eq_some_iff, Prod.exists] at read
      obtain ⟨characters, afterKey, readKey, read⟩ := read
      obtain ⟨key, rfl, keyOwn⟩ := word_of_readString? readKey
      split at read
      · next colon =>
          simp only [Option.bind_eq_some_iff, Prod.exists] at read
          obtain ⟨value, afterValue, readValue, read⟩ := read
          obtain ⟨word, goesOn, nonempty, own⟩ := values readValue
          have positive := List.length_pos_iff.mpr nonempty
          obtain ⟨front, rfl, -, longer, valueOn⟩ := exists_front nonempty goesOn
          obtain ⟨middle, rfl, -, -, colonOn⟩ := exists_front_mark colon
          split at read
          · next closes =>
              cases read
              obtain ⟨closing, rfl, -, long, closesOn⟩ := exists_front_mark closes
              refine ⟨'"' :: (key ++ (middle ++ (front ++ closing))), by simp, by simp,
                fun fuel rest enough => ?_⟩
              simp only [List.length_append, List.length_cons] at enough
              obtain ⟨fuel, rfl⟩ := Nat.exists_eq_add_one_of_ne_zero (show fuel ≠ 0 by omega)
              have readOn := own.marked (by simp) (show 2 * word.length ≤ fuel by omega)
                (closesOn rest)
              rw [← valueOn] at readOn
              simp only [List.cons_append, List.append_assoc]
              exact readMembers?_entry (keyOwn _) (colonOn _) readOn (Or.inl ⟨closesOn rest, rfl⟩)
          · next comma =>
              simp only [Option.bind_eq_some_iff, Prod.exists] at read
              obtain ⟨more, afterMembers, readMembers, equal⟩ := read
              cases equal
              obtain ⟨moreWord, goesOn, moreNonempty, moreOwn⟩ := others readMembers
              obtain ⟨further, rfl, -, moreLonger, moreOn⟩ := exists_front moreNonempty goesOn
              obtain ⟨separator, rfl, -, long, commaOn⟩ := exists_front_mark comma
              refine ⟨'"' :: (key ++ (middle ++ (front ++ (separator ++ further)))), by simp,
                by simp, fun fuel rest enough => ?_⟩
              simp only [List.length_append, List.length_cons] at enough
              obtain ⟨fuel, rfl⟩ := Nat.exists_eq_add_one_of_ne_zero (show fuel ≠ 0 by omega)
              have readOn := own.marked (by simp) (show 2 * word.length ≤ fuel by omega)
                (commaOn (further ++ rest))
              have readMore := moreOwn fuel rest (by omega)
              rw [← valueOn] at readOn
              rw [← moreOn] at readMore
              simp only [List.cons_append, List.append_assoc]
              exact readMembers?_entry (keyOwn _) (colonOn _) readOn
                (Or.inr ⟨_, commaOn _, readMore⟩)
          · cases read
      · cases read
  · cases read

theorem readValue?_nothing_in_array {input : List Char} (closes : skipBlanks input = ']' :: rest) :
    readValue? (fuel + 1) (levels + 1) ('[' :: input) = some (.array [], rest) := by
  simp only [readValue?, closes]

theorem readValue?_nothing_in_object {input : List Char}
    (closes : skipBlanks input = '\x7d' :: rest) :
    readValue? (fuel + 1) (levels + 1) ('\x7b' :: input) = some (.object [], rest) := by
  simp only [readValue?, closes]

theorem word_of_array {value : Value} (items : ItemsHaveWords fuel)
    (read : readValue? (fuel + 1) levels ('[' :: input) = some (value, after)) :
    ∃ word, input = word ++ after ∧ word.getLast? = some ']' ∧
      IsRead levels ('[' :: word) value := by
  simp only [readValue?] at read
  split at read
  · cases read
  · next closes =>
      cases read
      obtain ⟨closing, rfl, last, -, closesOn⟩ := exists_front_mark closes
      refine ⟨closing, rfl, last, fun fuel rest enough _ => ?_⟩
      rw [List.length_cons] at enough
      obtain ⟨fuel, rfl⟩ := Nat.exists_eq_add_one_of_ne_zero (show fuel ≠ 0 by omega)
      exact readValue?_nothing_in_array (closesOn rest)
  · obtain ⟨⟨others, behind⟩, readItems, equal⟩ := Option.map_eq_some_iff.mp read
    cases equal
    obtain ⟨itemsWord, goesOn, last, own⟩ := items readItems
    obtain ⟨word, rfl, sameLast, longer, itemsOn⟩ :=
      exists_front (by rintro rfl; cases last) goesOn
    refine ⟨word, rfl, sameLast.trans last, fun fuel rest enough _ => ?_⟩
    rw [List.length_cons] at enough
    obtain ⟨fuel, rfl⟩ := Nat.exists_eq_add_one_of_ne_zero (show fuel ≠ 0 by omega)
    have readOn := own fuel rest (by omega)
    rw [← itemsOn] at readOn
    exact readValue?_items readOn

theorem word_of_object {value : Value} (members : MembersHaveWords fuel)
    (read : readValue? (fuel + 1) levels ('\x7b' :: input) = some (value, after)) :
    ∃ word, input = word ++ after ∧ IsRead levels ('\x7b' :: word) value := by
  simp only [readValue?] at read
  split at read
  · cases read
  · next closes =>
      cases read
      obtain ⟨closing, rfl, -, -, closesOn⟩ := exists_front_mark closes
      refine ⟨closing, rfl, fun fuel rest enough _ => ?_⟩
      rw [List.length_cons] at enough
      obtain ⟨fuel, rfl⟩ := Nat.exists_eq_add_one_of_ne_zero (show fuel ≠ 0 by omega)
      exact readValue?_nothing_in_object (closesOn rest)
  · obtain ⟨⟨others, behind⟩, readMembers, equal⟩ := Option.map_eq_some_iff.mp read
    cases equal
    obtain ⟨membersWord, goesOn, nonempty, own⟩ := members readMembers
    obtain ⟨word, rfl, -, longer, membersOn⟩ := exists_front nonempty goesOn
    refine ⟨word, rfl, fun fuel rest enough _ => ?_⟩
    rw [List.length_cons] at enough
    obtain ⟨fuel, rfl⟩ := Nat.exists_eq_add_one_of_ne_zero (show fuel ≠ 0 by omega)
    have readOn := own fuel rest (by omega)
    rw [← membersOn] at readOn
    exact readValue?_members readOn

theorem valuesHaveWords_succ (items : ItemsHaveWords fuel) (members : MembersHaveWords fuel) :
    ValuesHaveWords (fuel + 1) := by
  intro levels input value after read
  have whole := read
  -- The words of literals and strings leave some fuel for the reader itself.
  have spared : ∀ {fuel length : Nat}, 2 * (length + 1) ≤ fuel → ∃ less, fuel = less + 1 :=
    fun enough => Nat.exists_eq_add_one_of_ne_zero (by omega)
  unfold readValue? at read
  split at read
  · cases read
    refine ⟨['n', 'u', 'l', 'l'], rfl, List.cons_ne_nil _ _, fun fuel rest enough _ => ?_⟩
    obtain ⟨fuel, rfl⟩ := spared enough
    rfl
  · cases read
    refine ⟨['t', 'r', 'u', 'e'], rfl, List.cons_ne_nil _ _, fun fuel rest enough _ => ?_⟩
    obtain ⟨fuel, rfl⟩ := spared enough
    rfl
  · cases read
    refine ⟨['f', 'a', 'l', 's', 'e'], rfl, List.cons_ne_nil _ _, fun fuel rest enough _ => ?_⟩
    obtain ⟨fuel, rfl⟩ := spared enough
    rfl
  · obtain ⟨⟨characters, behind⟩, readString, equal⟩ := Option.map_eq_some_iff.mp read
    cases equal
    obtain ⟨word, rfl, own⟩ := word_of_readString? readString
    refine ⟨'"' :: word, rfl, List.cons_ne_nil _ _, fun fuel rest enough _ => ?_⟩
    obtain ⟨fuel, rfl⟩ := spared enough
    rw [List.cons_append, readValue?, own]
    rfl
  · obtain ⟨word, rfl, -, own⟩ := word_of_array items whole
    exact ⟨'[' :: word, rfl, List.cons_ne_nil _ _, own⟩
  · obtain ⟨word, rfl, own⟩ := word_of_object members whole
    exact ⟨'\x7b' :: word, rfl, List.cons_ne_nil _ _, own⟩
  · simp only [Option.bind_eq_bind, Option.bind_eq_some_iff, Prod.exists] at read
    obtain ⟨numeral, behind, readNumeral, number, isValue, equal⟩ := read
    cases equal
    obtain ⟨word, rfl, nonempty, own⟩ := Numeral.word_of_read? readNumeral
    refine ⟨word, rfl, nonempty, fun fuel rest enough ends => ?_⟩
    obtain ⟨first, others, rfl⟩ := List.exists_cons_of_ne_nil nonempty
    obtain ⟨fuel, rfl⟩ := spared enough
    have readOn := own [] (by simp [Numeral.Ends])
    rw [List.append_nil] at readOn
    exact readValue?_numeral readOn isValue ends

/-- Every value is read from a word. -/
theorem haveWords (fuel : Nat) :
    ValuesHaveWords fuel ∧ ItemsHaveWords fuel ∧ MembersHaveWords fuel := by
  induction fuel with
  | zero =>
      refine ⟨?_, ?_, ?_⟩
      · intro levels input value after read
        cases read
      · intro levels input items after read
        cases read
      · intro levels input members after read
        cases read
  | succ fuel ih =>
      obtain ⟨values, items, members⟩ := ih
      exact ⟨valuesHaveWords_succ items members, itemsHaveWords_succ values items,
        membersHaveWords_succ values members⟩

end Reader

open Reader

theorem read?_of_isRead {value : Value} {before others after : List Char} {first : Char}
    (own : IsRead deepestNesting (first :: others) value) (noBlank : isBlank first = false)
    (blankBefore : ∀ character ∈ before, isBlank character)
    (blankAfter : ∀ character ∈ after, isBlank character) :
    read? (String.ofList (before ++ first :: others ++ after)) = some value := by
  have skipped : skipBlanks (before ++ first :: others ++ after) = first :: others ++ after := by
    rw [List.append_assoc, skipBlanks_append blankBefore]
    exact skipBlanks_cons noBlank
  have ends : Numeral.Ends after := by
    cases after with
    | nil => exact nofun
    | cons first after => exact ends_cons_of_isBlank (blankAfter first (List.mem_cons_self ..))
  have readValue := own (enoughFuel (first :: others ++ after)) after
    (by rw [enoughFuel, List.length_append]; omega) ends
  have nothing : skipBlanks after = [] :=
    List.dropWhile_eq_nil_iff.mpr blankAfter
  simp only [read?, String.toList_ofList, skipped, readValue, Option.bind_eq_bind,
    Option.bind_some, nothing, List.isEmpty_nil, if_true, Option.pure_def]

/-- A text that is read as an array is, up to the blanks around it, the word of the array. -/
theorem exists_word_of_array {text : String} {items : List Value}
    (read : read? text = some (.array items)) :
    ∃ before word after, text.toList = before ++ '[' :: word ++ after ∧
      (∀ character ∈ before, isBlank character) ∧ (∀ character ∈ after, isBlank character) ∧
      word.getLast? = some ']' ∧ IsRead deepestNesting ('[' :: word) (.array items) := by
  simp only [read?, Option.bind_eq_bind, Option.bind_eq_some_iff, Prod.exists] at read
  obtain ⟨value, after, readValue, read⟩ := read
  split at read
  · next nothing =>
      cases read
      have whole := readValue
      rw [enoughFuel] at readValue whole
      unfold readValue? at readValue
      split at readValue
      · cases readValue
      · cases readValue
      · cases readValue
      · obtain ⟨_, -, equal⟩ := Option.map_eq_some_iff.mp readValue
        cases equal
      · next input starts =>
          rw [starts] at whole
          obtain ⟨word, rfl, last, own⟩ := word_of_array (haveWords _).2.1 whole
          refine ⟨text.toList.takeWhile isBlank, word, after, ?_,
            fun _ => List.mem_takeWhile_imp,
            List.dropWhile_eq_nil_iff.mp (List.isEmpty_iff.mp nothing), last, own⟩
          rw [List.append_assoc, List.cons_append, ← starts]
          exact List.takeWhile_append_dropWhile.symm
      · split at readValue
        · cases readValue
        · cases readValue
        · obtain ⟨_, -, equal⟩ := Option.map_eq_some_iff.mp readValue
          cases equal
      · simp only [Option.bind_eq_bind, Option.bind_eq_some_iff, Prod.exists] at readValue
        obtain ⟨_, _, -, _, -, equal⟩ := readValue
        cases equal
  · cases read

end JsonSieve.Json
