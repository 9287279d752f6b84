import JsonSieve.Proofs.Json.RoundTrip
import JsonSieve.Scalar

/-!
# Texts put together from texts

A scalar is read in the same way by itself and inside an array or an object, with whatever blanks
stand around it and however it is spelled.  So an array whose items are given by their texts is read
as the array of the values of these texts, and an object likewise.
-/

namespace JsonSieve.Json

def arrayText (items : List String) : String :=
  "[" ++ ",".intercalate items ++ "]"

def memberText (member : String × String) : String :=
  (Value.string member.1).text ++ ":" ++ member.2

def objectText (members : List (String × String)) : String :=
  "\x7b" ++ ",".intercalate (members.map memberText) ++ "\x7d"

theorem commaSeparated_eq_intercalate (pieces : List (List Char)) :
    commaSeparated pieces = [','].intercalate pieces := by
  induction pieces with
  | nil => rfl
  | cons piece pieces ih =>
      cases pieces with
      | nil => exact List.intercalate_singleton.symm
      | cons next pieces =>
          rw [commaSeparated, ih, List.intercalate_cons_cons]
          simp

theorem toList_arrayText (items : List String) :
    (arrayText items).toList = '[' :: (commaSeparated (items.map String.toList) ++ [']']) := by
  simp [arrayText, commaSeparated_eq_intercalate]

theorem toList_objectText (members : List (String × String)) :
    (objectText members).toList =
      '\x7b' :: (commaSeparated ((members.map memberText).map String.toList) ++ ['\x7d']) := by
  simp [objectText, commaSeparated_eq_intercalate]

theorem toList_memberText (key text : String) :
    (memberText (key, text)).toList = quoted key ++ ':' :: text.toList := by
  simp [memberText, Value.text, Value.written]

namespace Reader

variable {input after rest : List Char}

/-! ## Words in front of a text

Each reader of a string takes a word off its input, and takes the same word whatever follows it. -/

theorem word_of_readFourHex? {code : Nat} (read : readFourHex? input = some (code, after)) :
    ∃ word, input = word ++ after ∧ ∀ rest, readFourHex? (word ++ rest) = some (code, rest) := by
  unfold readFourHex? at read
  split at read
  · next first second third fourth others =>
      simp only [Option.bind_eq_bind, Option.bind_eq_some_iff, Option.pure_def, Option.some.injEq,
        Prod.mk.injEq] at read
      obtain ⟨_, isFirst, _, isSecond, _, isThird, _, isFourth, rfl, rfl⟩ := read
      refine ⟨[first, second, third, fourth], rfl, fun rest => ?_⟩
      simp [readFourHex?, isFirst, isSecond, isThird, isFourth]
  · cases read

theorem word_of_readUnicodeEscape? {character : Char}
    (read : readUnicodeEscape? input = some (character, after)) :
    ∃ word, input = word ++ after ∧
      ∀ rest, readUnicodeEscape? (word ++ rest) = some (character, rest) := by
  simp only [readUnicodeEscape?, Option.bind_eq_bind, Option.bind_eq_some_iff] at read
  obtain ⟨⟨code, between⟩, readCode, read⟩ := read
  obtain ⟨digits, rfl, own⟩ := word_of_readFourHex? readCode
  dsimp only at read
  split at read
  · next high =>
      split at read
      · simp only [Option.bind_eq_some_iff] at read
        obtain ⟨⟨low, afterLow⟩, readLow, read⟩ := read
        obtain ⟨lowDigits, rfl, lowOwn⟩ := word_of_readFourHex? readLow
        split at read
        · next isLow =>
            simp only [Option.pure_def, Option.some.injEq, Prod.mk.injEq] at read
            obtain ⟨rfl, rfl⟩ := read
            refine ⟨digits ++ '\\' :: 'u' :: lowDigits, by simp, fun rest => ?_⟩
            simp [readUnicodeEscape?, own, lowOwn, high, isLow]
        · cases read
      · cases read
  · next noHigh =>
      split at read
      · cases read
      · next noLow =>
          cases read
          exact ⟨digits, rfl, fun rest => by simp [readUnicodeEscape?, own, noHigh, noLow]⟩

theorem word_of_readCharacter? {character : Char}
    (read : readCharacter? input = some (character, after)) :
    ∃ word, input = word ++ after ∧
      ∀ rest, readCharacter? (word ++ rest) = some (character, rest) := by
  unfold readCharacter? at read
  split at read
  · cases read
  · obtain ⟨word, rfl, own⟩ := word_of_readUnicodeEscape? read
    exact ⟨'\\' :: 'u' :: word, rfl, own⟩
  · next letter others noUnicode =>
      obtain ⟨found, escapes, equal⟩ := Option.map_eq_some_iff.mp read
      cases equal
      refine ⟨['\\', letter], rfl, fun rest => ?_⟩
      rw [List.cons_append, List.cons_append, readCharacter?, escapes]
      · rfl
      · exact noUnicode
  · split at read
    · cases read
    · next plain =>
        cases read
        simp only [Bool.or_eq_true, decide_eq_true_eq, not_or] at plain
        refine ⟨[character], rfl, fun rest => ?_⟩
        rw [List.cons_append, readCharacter?, if_neg (by simp [plain])]
        all_goals simp [plain]

theorem word_of_readString? {characters : List Char}
    (read : readString? input = some (characters, after)) :
    ∃ word, input = word ++ after ∧
      ∀ rest, readString? (word ++ rest) = some (characters, rest) := by
  induction input using readString?.induct generalizing characters with
  | case1 others =>
      rw [readString?] at read
      cases read
      exact ⟨['"'], rfl, fun rest => by rw [List.cons_append, readString?, List.nil_append]⟩
  | case2 input noQuote unreadable =>
      rw [readString?] at read
      · split at read
        · cases read
        · next found => cases unreadable.symm.trans found
      · exact noQuote
  | case3 input noQuote character others readCharacter ih =>
      rw [readString?_of_readCharacter? readCharacter] at read
      obtain ⟨⟨further, afterString⟩, readOthers, equal⟩ := Option.map_eq_some_iff.mp read
      cases equal
      obtain ⟨first, rfl, firstOwn⟩ := word_of_readCharacter? readCharacter
      obtain ⟨word, rfl, own⟩ := ih readOthers
      refine ⟨first ++ word, (List.append_assoc ..).symm, fun rest => ?_⟩
      rw [List.append_assoc, readString?_of_readCharacter? (firstOwn _), own]
      rfl

theorem readString?_append {characters : List Char}
    (read : readString? input = some (characters, after)) :
    readString? (input ++ rest) = some (characters, after ++ rest) := by
  obtain ⟨word, rfl, own⟩ := word_of_readString? read
  rw [List.append_assoc, own]

/-- What may follow a value inside a text. -/
def Closes (rest : List Char) : Prop :=
  ∀ character ∈ rest.head?, character = ',' ∨ character = ']' ∨ character = '\x7d'

theorem closes_cons {first : Char} (closes : first = ',' ∨ first = ']' ∨ first = '\x7d') :
    Closes (first :: rest) := by
  rintro character isHead
  cases isHead
  exact closes

theorem Closes.ends (closes : Closes rest) : Numeral.Ends rest := by
  cases rest with
  | nil => exact nofun
  | cons first rest => exact ends_cons (closes first rfl)

theorem Closes.skipBlanks (closes : Closes rest) : skipBlanks rest = rest := by
  cases rest with
  | nil => rfl
  | cons first rest =>
      rcases closes first rfl with rfl | rfl | rfl <;> exact skipBlanks_cons (by decide)

/-- Within so much fuel and so many levels, a text is read as a value, up to something that may
follow it. -/
def Reads (bound : Nat) (text : String) (value : Value) : Prop :=
  ∀ ⦃fuel levels rest⦄, bound ≤ fuel → bound ≤ levels → Closes rest →
    ∃ after, readValue? fuel levels (Reader.skipBlanks (text.toList ++ rest)) =
        some (value, after) ∧ Reader.skipBlanks after = rest

theorem reads_string (text : String) : Reads 1 (Value.string text).text (.string text) := by
  intro fuel levels rest enough _ closes
  obtain ⟨fuel, rfl⟩ := Nat.exists_eq_add_one_of_ne_zero (Nat.ne_of_gt enough)
  rw [Value.text, String.toList_ofList, Value.written]
  exact ⟨rest, readValue?_string text, closes.skipBlanks⟩

/-- What is read as a scalar is read so whatever follows, as long as that does not continue it. -/
theorem readValue?_append {fuel otherFuel levels otherLevels : Nat} {value : Value}
    {scalar : Scalar} (read : readValue? fuel levels input = some (value, after))
    (isScalar : Scalar.ofJson? value = some scalar) (ends : Numeral.Ends rest) :
    readValue? (otherFuel + 1) otherLevels (input ++ rest) = some (value, after ++ rest) := by
  unfold readValue? at read
  split at read
  · cases read
  · split at read
    · cases read
      rfl
    · cases read
      rfl
    · cases read
      rfl
    · obtain ⟨⟨characters, others⟩, readString, equal⟩ := Option.map_eq_some_iff.mp read
      cases equal
      rw [List.cons_append, readValue?, readString?_append readString]
      rfl
    · split at read
      · cases read
      · cases read
        cases isScalar
      · obtain ⟨⟨items, others⟩, -, equal⟩ := Option.map_eq_some_iff.mp read
        cases equal
        cases isScalar
    · split at read
      · cases read
      · cases read
        cases isScalar
      · obtain ⟨⟨members, others⟩, -, equal⟩ := Option.map_eq_some_iff.mp read
        cases equal
        cases isScalar
    · simp only [Option.bind_eq_bind, Option.bind_eq_some_iff, Prod.exists] at read
      obtain ⟨numeral, others, readNumeral, number, isValue, equal⟩ := read
      cases equal
      exact readValue?_numeral readNumeral isValue ends

theorem skipBlanks_append_of_ne_nil (nonempty : skipBlanks input ≠ []) (rest : List Char) :
    skipBlanks (input ++ rest) = skipBlanks input ++ rest := by
  rw [skipBlanks, List.dropWhile_append, if_neg (by simpa [skipBlanks] using nonempty)]
  rfl

theorem skipBlanks_append_of_eq_nil (blank : skipBlanks input = []) (rest : List Char) :
    skipBlanks (input ++ rest) = skipBlanks rest := by
  rw [skipBlanks, List.dropWhile_append, if_pos (by simpa [skipBlanks] using blank)]
  rfl

theorem reads_scalar {text : String} {value : Value} {scalar : Scalar}
    (read : read? text = some value) (isScalar : Scalar.ofJson? value = some scalar) :
    Reads 1 text value := by
  intro fuel levels rest enough _ closes
  obtain ⟨fuel, rfl⟩ := Nat.exists_eq_add_one_of_ne_zero (Nat.ne_of_gt enough)
  simp only [read?, Option.bind_eq_bind, Option.bind_eq_some_iff, Prod.exists] at read
  obtain ⟨found, after, readValue, read⟩ := read
  split at read
  · next blank =>
      cases read
      have nonempty : skipBlanks text.toList ≠ [] := by
        intro nothing
        rw [nothing] at readValue
        cases readValue
      refine ⟨after ++ rest, ?_, ?_⟩
      · rw [skipBlanks_append_of_ne_nil nonempty]
        exact readValue?_append readValue isScalar closes.ends
      · rw [skipBlanks_append_of_eq_nil (List.isEmpty_iff.mp blank), closes.skipBlanks]
  · cases read

variable {bound fuel levels : Nat}

theorem Reads.mono {more : Nat} {text : String} {value : Value} (reads : Reads bound text value)
    (le : bound ≤ more) : Reads more text value :=
  fun _ _ _ enough deep => reads (le.trans enough) (le.trans deep)

theorem readItems?_of_reads {item : String × Value} {items : List (String × Value)}
    (each : ∀ other ∈ item :: items, Reads bound other.1 other.2)
    (enough : bound + items.length + 1 ≤ fuel) (deep : bound ≤ levels) :
    readItems? fuel levels (skipBlanks
        (commaSeparated (((item :: items).map Prod.fst).map String.toList) ++ ']' :: rest)) =
      some ((item :: items).map Prod.snd, rest) := by
  obtain ⟨fuel, rfl⟩ := Nat.exists_eq_add_one_of_ne_zero (show fuel ≠ 0 by omega)
  rw [List.forall_mem_cons] at each
  induction items generalizing item fuel with
  | nil =>
      obtain ⟨after, readValue, closed⟩ := @each.1 fuel levels (']' :: rest)
        (Nat.le_of_succ_le_succ enough) deep (closes_cons (by simp))
      exact readItems?_item readValue (Or.inl ⟨closed, rfl⟩)
  | cons next items ih =>
      rw [List.length_cons] at enough
      obtain ⟨fuel, rfl⟩ := Nat.exists_eq_add_one_of_ne_zero (show fuel ≠ 0 by omega)
      have readNext := ih (List.forall_mem_cons.mp each.2) fuel (by omega)
      obtain ⟨after, readValue, comma⟩ := each.1 (show bound ≤ fuel + 1 by omega) deep
        (closes_cons (Or.inl rfl))
      rw [List.map_cons, List.map_cons, List.map_cons, List.map_cons, commaSeparated,
        List.append_assoc, List.cons_append]
      exact readItems?_item readValue (Or.inr ⟨_, comma, readNext⟩)

theorem skipBlanks_memberText (key text : String) (rest : List Char) :
    skipBlanks ((memberText (key, text)).toList ++ rest) =
      quoted key ++ ':' :: (text.toList ++ rest) := by
  rw [toList_memberText, List.append_assoc, List.cons_append]
  exact skipBlanks_cons (by decide)

theorem readMembers?_of_reads {member : String × String × Value}
    {members : List (String × String × Value)}
    (each : ∀ other ∈ member :: members, Reads bound other.2.1 other.2.2)
    (enough : bound + members.length + 1 ≤ fuel) (deep : bound ≤ levels) :
    readMembers? fuel levels (skipBlanks
        (commaSeparated ((((member :: members).map fun other => (other.1, other.2.1)).map
          memberText).map String.toList) ++ '\x7d' :: rest)) =
      some ((member :: members).map fun other => (other.1, other.2.2), rest) := by
  obtain ⟨fuel, rfl⟩ := Nat.exists_eq_add_one_of_ne_zero (show fuel ≠ 0 by omega)
  rw [List.forall_mem_cons] at each
  induction members generalizing member fuel with
  | nil =>
      obtain ⟨after, readValue, closed⟩ := @each.1 fuel levels ('\x7d' :: rest)
        (Nat.le_of_succ_le_succ enough) deep (closes_cons (by simp))
      rw [List.map_cons, List.map_cons, List.map_cons, List.map_nil, List.map_nil, List.map_nil,
        commaSeparated, skipBlanks_memberText]
      exact readMembers?_member readValue (Or.inl ⟨closed, rfl⟩)
  | cons next members ih =>
      rw [List.length_cons] at enough
      obtain ⟨fuel, rfl⟩ := Nat.exists_eq_add_one_of_ne_zero (show fuel ≠ 0 by omega)
      have readNext := ih (List.forall_mem_cons.mp each.2) fuel (by omega)
      obtain ⟨after, readValue, comma⟩ := each.1 (show bound ≤ fuel + 1 by omega) deep
        (closes_cons (Or.inl rfl))
      rw [List.map_cons, List.map_cons, List.map_cons, List.map_cons, List.map_cons, List.map_cons,
        commaSeparated, List.append_assoc, List.cons_append, skipBlanks_memberText]
      exact readMembers?_member readValue (Or.inr ⟨_, comma, readNext⟩)

/-- The text of an array whose items are given by their texts is read as the array of their
values. -/
theorem reads_arrayText (bound : Nat) (items : List (String × Value))
    (each : ∀ item ∈ items, Reads bound item.1 item.2) :
    Reads (bound + items.length + 1) (arrayText (items.map Prod.fst))
      (.array (items.map Prod.snd)) := by
  intro fuel levels rest enough deep closes
  obtain ⟨fuel, rfl⟩ := Nat.exists_eq_add_one_of_ne_zero (show fuel ≠ 0 by omega)
  obtain ⟨levels, rfl⟩ := Nat.exists_eq_add_one_of_ne_zero (show levels ≠ 0 by omega)
  refine ⟨rest, ?_, closes.skipBlanks⟩
  rw [toList_arrayText, List.cons_append, List.append_assoc, skipBlanks_cons (by decide)]
  cases items with
  | nil => rfl
  | cons item items =>
      rw [List.length_cons] at enough deep
      exact readValue?_items (readItems?_of_reads each (by omega) (by omega))

theorem reads_objectText (bound : Nat) (members : List (String × String × Value))
    (each : ∀ member ∈ members, Reads bound member.2.1 member.2.2) :
    Reads (bound + members.length + 1)
      (objectText (members.map fun member => (member.1, member.2.1)))
      (.object (members.map fun member => (member.1, member.2.2))) := by
  intro fuel levels rest enough deep closes
  obtain ⟨fuel, rfl⟩ := Nat.exists_eq_add_one_of_ne_zero (show fuel ≠ 0 by omega)
  obtain ⟨levels, rfl⟩ := Nat.exists_eq_add_one_of_ne_zero (show levels ≠ 0 by omega)
  refine ⟨rest, ?_, closes.skipBlanks⟩
  rw [toList_objectText, List.cons_append, List.append_assoc, skipBlanks_cons (by decide)]
  cases members with
  | nil => rfl
  | cons member members =>
      rw [List.length_cons] at enough deep
      exact readValue?_members (readMembers?_of_reads each (by omega) (by omega))

end Reader

/-- A text that starts with a bracket or a brace is read by itself as what it is read as inside a
text, if it is long enough for the levels of the value. -/
theorem read?_of_reads {bound : Nat} {text : String} {value : Value} {first : Char}
    {others : List Char} (reads : Reader.Reads bound text value)
    (starts : text.toList = first :: others) (noBlank : Reader.isBlank first = false)
    (long : bound ≤ 2 * others.length + 3) (flat : bound ≤ Reader.deepestNesting) :
    read? text = some value := by
  have same : Reader.skipBlanks text.toList = text.toList := by
    rw [starts, Reader.skipBlanks_cons noBlank]
  obtain ⟨after, readValue, nothing⟩ := @reads (Reader.enoughFuel text.toList)
    Reader.deepestNesting [] (by rw [Reader.enoughFuel, starts, List.length_cons]; omega) flat
    (by simp [Reader.Closes])
  rw [List.append_nil, same] at readValue
  simp [read?, same, readValue, nothing]

end JsonSieve.Json
