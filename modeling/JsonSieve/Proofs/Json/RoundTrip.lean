import JsonSieve.Json.Reader
import JsonSieve.Proofs.Json.Numeral
import JsonSieve.Proofs.Text.Utf8
import Mathlib.Tactic.SplitIfs

/-!
# Reading written values

The compact text of a value is read, provided that it does not nest too deeply and that its numbers
are read.  The value that is read differs from the one that was written only in the numbers that are
not read as themselves; so it is the same value if all numbers are read back.  Strings need no
proviso: every text is read from its quoted form, however many of its characters are escaped.
-/

namespace JsonSieve.Json

/-- A value has at most so many levels of arrays and objects, and its numbers are read back. -/
inductive Value.Fits : (levels : Nat) → Value → Prop
  | null (levels : Nat) : Fits levels .null
  | boolean (levels : Nat) (value : Bool) : Fits levels (.boolean value)
  | number (levels : Nat) {value : Number} (readsBack : value.ReadsBack) :
      Fits levels (.number value)
  | string (levels : Nat) (text : String) : Fits levels (.string text)
  | array {levels : Nat} {items : List Value} (each : ∀ item ∈ items, Fits levels item) :
      Fits (levels + 1) (.array items)
  | object {levels : Nat} {members : List (String × Value)}
      (each : ∀ member ∈ members, Fits levels member.2) : Fits (levels + 1) (.object members)

namespace Value

mutual

def mapNumbers (change : Number → Number) : Value → Value
  | .number value => .number (change value)
  | .array items => .array (mapNumbersOfItems change items)
  | .object members => .object (mapNumbersOfMembers change members)
  | value => value

def mapNumbersOfItems (change : Number → Number) : List Value → List Value
  | [] => []
  | item :: items => item.mapNumbers change :: mapNumbersOfItems change items

def mapNumbersOfMembers (change : Number → Number) : List (String × Value) → List (String × Value)
  | [] => []
  | (key, value) :: members => (key, value.mapNumbers change) :: mapNumbersOfMembers change members

end

theorem mapNumbersOfItems_eq_map (change : Number → Number) (items : List Value) :
    mapNumbersOfItems change items = items.map (mapNumbers change) := by
  induction items with
  | nil => rfl
  | cons item items ih => rw [mapNumbersOfItems, ih, List.map_cons]

theorem mapNumbersOfMembers_eq_map (change : Number → Number) (members : List (String × Value)) :
    mapNumbersOfMembers change members =
      members.map fun member => (member.1, member.2.mapNumbers change) := by
  induction members with
  | nil => rfl
  | cons member members ih => rw [mapNumbersOfMembers, ih, List.map_cons]

theorem settledItems_eq_map (items : List Value) : settledItems items = items.map settled := by
  induction items with
  | nil => rfl
  | cons item items ih => rw [settledItems, ih, List.map_cons]

theorem settledMembers_eq_map (members : List (String × Value)) :
    settledMembers members = members.map fun member => (member.1, member.2.settled) := by
  induction members with
  | nil => rfl
  | cons member members ih => rw [settledMembers, ih, List.map_cons]

/-- A value has at most so many levels of arrays and objects, and each of its numbers is read as the
one to which it is changed. -/
inductive FitsAs (change : Number → Number) : (levels : Nat) → Value → Prop
  | null (levels : Nat) : FitsAs change levels .null
  | boolean (levels : Nat) (value : Bool) : FitsAs change levels (.boolean value)
  | number (levels : Nat) {value : Number} (readAs : value.ReadAs (change value)) :
      FitsAs change levels (.number value)
  | string (levels : Nat) (text : String) : FitsAs change levels (.string text)
  | array {levels : Nat} {items : List Value} (each : ∀ item ∈ items, FitsAs change levels item) :
      FitsAs change (levels + 1) (.array items)
  | object {levels : Nat} {members : List (String × Value)}
      (each : ∀ member ∈ members, FitsAs change levels member.2) :
      FitsAs change (levels + 1) (.object members)

theorem Fits.fitsAs_id {levels : Nat} {value : Value} (fits : value.Fits levels) :
    value.FitsAs id levels ∧ value.mapNumbers id = value := by
  induction fits with
  | null levels => exact ⟨.null levels, rfl⟩
  | boolean levels value => exact ⟨.boolean levels value, rfl⟩
  | number levels readsBack => exact ⟨.number levels readsBack, rfl⟩
  | string levels text => exact ⟨.string levels text, rfl⟩
  | @array levels items each ih =>
      refine ⟨.array fun item member => (ih item member).1, ?_⟩
      have same : ∀ item ∈ items, item.mapNumbers id = id item := fun item member =>
        (ih item member).2
      rw [mapNumbers, mapNumbersOfItems_eq_map, List.map_congr_left same, List.map_id]
  | @object levels members each ih =>
      refine ⟨.object fun member isMember => (ih member isMember).1, ?_⟩
      have same : ∀ member ∈ members, (member.1, member.2.mapNumbers id) = id member :=
        fun member isMember => Prod.ext rfl (ih member isMember).2
      rw [mapNumbers, mapNumbersOfMembers_eq_map, List.map_congr_left same, List.map_id]

end Value

namespace Reader

variable {rest : List Char}

theorem hexValue?_digitChar : ∀ digit < 16, hexValue? (Nat.digitChar digit) = some digit := by
  decide

theorem readFourHex?_control {code : Nat} (control : code < 0x20) :
    readFourHex? (['0', '0'] ++ twoHexDigits code ++ rest) = some (code, rest) := by
  have zero : hexValue? '0' = some 0 := by decide
  have high := hexValue?_digitChar (code / 16) (by omega)
  have low := hexValue?_digitChar (code % 16) (by omega)
  have digits : code / 16 * 16 + code % 16 = code := by omega
  simp [readFourHex?, twoHexDigits, zero, high, low, digits]

theorem readUnicodeEscape?_control {code : Nat} (control : code < 0x20) :
    readUnicodeEscape? (['0', '0'] ++ twoHexDigits code ++ rest) =
      some (Char.ofNat code, rest) := by
  have noHigh : isHighSurrogate code = false := by
    simp only [isHighSurrogate]
    grind
  have noLow : isLowSurrogate code = false := by
    simp only [isLowSurrogate]
    grind
  rw [readUnicodeEscape?, readFourHex?_control control]
  simp [noHigh, noLow]

theorem readCharacter?_escaped (character : Char) :
    readCharacter? (escaped character ++ rest) = some (character, rest) := by
  have named : ∀ code, character.toNat = code → character = Char.ofNat code := by
    rintro code rfl
    exact character.ofNat_toNat.symm
  unfold escaped
  split_ifs with quote backslash printable backspace tab lineFeed formFeed carriageReturn
  · subst quote
    rfl
  · subst backslash
    rfl
  · rw [List.cons_append, List.nil_append, readCharacter?, if_neg]
    · simp [quote, backslash]
      omega
    · intro others equal
      exact absurd equal backslash
    · intro letter others equal
      exact absurd equal backslash
  · rw [named _ backspace]
    rfl
  · rw [named _ tab]
    rfl
  · rw [named _ lineFeed]
    rfl
  · rw [named _ formFeed]
    rfl
  · rw [named _ carriageReturn]
    rfl
  · have control : character.toNat < 0x20 := by omega
    simpa [readCharacter?] using readUnicodeEscape?_control control

theorem readString?_of_readCharacter? {input : List Char} {character : Char}
    (read : readCharacter? input = some (character, rest)) :
    readString? input =
      (readString? rest).map (fun (characters, rest) => (character :: characters, rest)) := by
  have noQuote : ∀ others, input ≠ '"' :: others := by
    rintro others rfl
    cases read
  rw [readString?]
  · split
    · next nothing =>
        rw [read] at nothing
        cases nothing
    · next other others found =>
        rw [read] at found
        cases found
        rfl
  · exact noQuote

theorem readString?_escaped (characters : List Char) :
    readString? (characters.flatMap escaped ++ '"' :: rest) = some (characters, rest) := by
  induction characters with
  | nil => rw [List.flatMap_nil, List.nil_append, readString?]
  | cons character characters ih =>
      rw [List.flatMap_cons, List.append_assoc,
        readString?_of_readCharacter? (readCharacter?_escaped character), ih]
      rfl

theorem skipBlanks_cons {first : Char} (noBlank : isBlank first = false) :
    skipBlanks (first :: rest) = first :: rest :=
  List.dropWhile_cons_of_neg (by simp [noBlank])

theorem cases_of_isBlank {character : Char} (blank : isBlank character) :
    character = ' ' ∨ character = '\t' ∨ character = '\n' ∨ character = '\r' := by
  simpa [isBlank, or_assoc] using blank

theorem ends_cons {first : Char} (closes : first = ',' ∨ first = ']' ∨ first = '\x7d') :
    Numeral.Ends (first :: rest) := by
  intro character isHead
  cases isHead
  rcases closes with rfl | rfl | rfl <;> decide

theorem ends_cons_of_isBlank {first : Char} (blank : isBlank first) :
    Numeral.Ends (first :: rest) := by
  intro character isHead
  cases isHead
  rcases cases_of_isBlank blank with rfl | rfl | rfl | rfl <;> decide

theorem ne_of_startsNumeral {first other : Char} (start : first = '-' ∨ first.isDigit)
    (noNumeral : ¬(other = '-' ∨ other.isDigit)) : first ≠ other := by
  rintro rfl
  exact noNumeral start

theorem not_blank_of_startsNumeral {first : Char} (start : first = '-' ∨ first.isDigit) :
    isBlank first = false := by
  apply eq_false_of_ne_true
  intro blank
  rcases cases_of_isBlank blank with rfl | rfl | rfl | rfl <;> exact absurd start (by decide)

variable {change : Number → Number}

/-- Written values do not start with a blank. -/
theorem exists_cons_of_fits {levels : Nat} {value : Value} (fits : value.FitsAs change levels) :
    ∃ first others, value.written = first :: others ∧ isBlank first = false := by
  cases fits with
  | null => exact ⟨_, _, rfl, by decide⟩
  | boolean levels value => cases value <;> exact ⟨_, _, rfl, by decide⟩
  | number levels readAs =>
      obtain ⟨numeral, read, -⟩ := readAs
      obtain ⟨first, others, written, start⟩ := Numeral.exists_cons_of_read? read
      exact ⟨first, others, written, not_blank_of_startsNumeral start⟩
  | string levels text => exact ⟨_, _, rfl, by decide⟩
  | array each => exact ⟨_, _, rfl, by decide⟩
  | object each => exact ⟨_, _, rfl, by decide⟩

theorem skipBlanks_written {levels : Nat} {value : Value} (fits : value.FitsAs change levels)
    (after : List Char) : skipBlanks (value.written ++ after) = value.written ++ after := by
  obtain ⟨first, others, written, noBlank⟩ := exists_cons_of_fits fits
  rw [written, List.cons_append, skipBlanks_cons noBlank]

theorem readValue?_numeral {fuel levels : Nat} {input after : List Char} {numeral : Numeral}
    {number : Number} (read : Numeral.read? input = some (numeral, after))
    (isValue : numeral.value? = some number) (ends : Numeral.Ends rest) :
    readValue? (fuel + 1) levels (input ++ rest) = some (.number number, after ++ rest) := by
  obtain ⟨first, others, rfl, start⟩ := Numeral.exists_cons_of_read? read
  have readOn := Numeral.read?_append ends read
  rw [List.cons_append] at readOn
  rw [List.cons_append, readValue?]
  · rw [readOn]
    simp [isValue]
  all_goals
    intro others equal
    exact ne_of_startsNumeral start (by decide) (List.cons.inj equal).1

/-- The written form of a value is read within so many levels as the value with its numbers changed.
Every nested call takes one unit of fuel, and every two of them consume a character. -/
def ReadsWritten (change : Number → Number) (levels : Nat) (value : Value) : Prop :=
  ∀ fuel rest, 2 * value.written.length ≤ fuel → Numeral.Ends rest →
    readValue? fuel levels (value.written ++ rest) = some (value.mapNumbers change, rest)

theorem exists_cons_of_items {levels : Nat} {item : Value} (items : List Value)
    (fits : item.FitsAs change levels) :
    ∃ first others, commaSeparated (Value.writtenItems (item :: items)) = first :: others ∧
      isBlank first = false := by
  obtain ⟨first, others, written, start⟩ := exists_cons_of_fits fits
  cases items with
  | nil => exact ⟨first, others, written, start⟩
  | cons next items =>
      refine ⟨first, others ++ ',' :: commaSeparated (Value.writtenItems (next :: items)), ?_,
        start⟩
      rw [← List.cons_append, ← written]
      rfl

/-- An item of an array is read together with a closing bracket or with further items. -/
theorem readItems?_item {levels fuel : Nat} {input after : List Char} {item : Value}
    {items : List Value} (readValue : readValue? fuel levels input = some (item, after))
    (further : skipBlanks after = ']' :: rest ∧ items = [] ∨
      ∃ others, skipBlanks after = ',' :: others ∧
        readItems? fuel levels (skipBlanks others) = some (items, rest)) :
    readItems? (fuel + 1) levels input = some (item :: items, rest) := by
  rw [readItems?, readValue]
  simp only [Option.bind_eq_bind, Option.bind_some, Option.pure_def]
  rcases further with ⟨closes, rfl⟩ | ⟨others, comma, readItems⟩
  · simp only [closes]
  · simp only [comma, readItems, Option.bind_some]

theorem readItems?_written {levels fuel : Nat} {item : Value} {items : List Value}
    (fits : ∀ other ∈ item :: items, other.FitsAs change levels)
    (reads : ∀ other ∈ item :: items, ReadsWritten change levels other)
    (enough : 2 * (commaSeparated (Value.writtenItems (item :: items))).length + 1 ≤ fuel) :
    readItems? fuel levels (commaSeparated (Value.writtenItems (item :: items)) ++ ']' :: rest) =
      some (Value.mapNumbersOfItems change (item :: items), rest) := by
  obtain ⟨fuel, rfl⟩ := Nat.exists_eq_succ_of_ne_zero (show fuel ≠ 0 by omega)
  rw [List.forall_mem_cons] at fits reads
  induction items generalizing item fuel with
  | nil =>
      rw [Value.writtenItems, Value.writtenItems, commaSeparated] at enough ⊢
      have readValue := reads.1 fuel (']' :: rest) (by omega) (ends_cons (Or.inr (Or.inl rfl)))
      exact readItems?_item readValue (Or.inl ⟨skipBlanks_cons (by decide), rfl⟩)
  | cons next items ih =>
      have split : commaSeparated (Value.writtenItems (item :: next :: items)) =
          item.written ++ ',' :: commaSeparated (Value.writtenItems (next :: items)) := rfl
      rw [split] at enough ⊢
      simp only [List.length_append, List.length_cons] at enough
      have readValue := reads.1 fuel
        (',' :: (commaSeparated (Value.writtenItems (next :: items)) ++ ']' :: rest))
        (by omega) (ends_cons (Or.inl rfl))
      have fitsNext := List.forall_mem_cons.mp fits.2
      obtain ⟨start, others, written, noBlank⟩ := exists_cons_of_items items fitsNext.1
      obtain ⟨fuel, rfl⟩ := Nat.exists_eq_succ_of_ne_zero (show fuel ≠ 0 by omega)
      have readNext := ih fitsNext (List.forall_mem_cons.mp reads.2) fuel (by omega)
      rw [List.append_assoc, List.cons_append]
      refine readItems?_item readValue (Or.inr ⟨_, skipBlanks_cons (by decide), ?_⟩)
      rw [written, List.cons_append] at readNext ⊢
      rw [skipBlanks_cons noBlank, readNext]

theorem readMembers?_entry {levels fuel : Nat} {input afterKey behind after : List Char}
    {characters : List Char} {value : Value} {members : List (String × Value)}
    (readKey : readString? input = some (characters, afterKey))
    (colon : skipBlanks afterKey = ':' :: behind)
    (readValue : readValue? fuel levels (skipBlanks behind) = some (value, after))
    (further : skipBlanks after = '\x7d' :: rest ∧ members = [] ∨
      ∃ others, skipBlanks after = ',' :: others ∧
        readMembers? fuel levels (skipBlanks others) = some (members, rest)) :
    readMembers? (fuel + 1) levels ('"' :: input) =
      some ((String.ofList characters, value) :: members, rest) := by
  rw [readMembers?, readKey]
  simp only [Option.bind_eq_bind, Option.bind_some, Option.pure_def, colon, readValue]
  rcases further with ⟨closes, rfl⟩ | ⟨others, comma, readMembers⟩
  · simp only [closes]
  · simp only [comma, readMembers, Option.bind_some]

theorem readMembers?_member {levels fuel : Nat} {key : String} {input after : List Char}
    {value : Value} {members : List (String × Value)}
    (readValue : readValue? fuel levels (skipBlanks input) = some (value, after))
    (further : skipBlanks after = '\x7d' :: rest ∧ members = [] ∨
      ∃ others, skipBlanks after = ',' :: others ∧
        readMembers? fuel levels (skipBlanks others) = some (members, rest)) :
    readMembers? (fuel + 1) levels (quoted key ++ ':' :: input) =
      some ((key, value) :: members, rest) := by
  rw [quoted, List.cons_append, List.cons_append, List.append_assoc, List.cons_append,
    List.nil_append, readMembers?_entry (readString?_escaped _) (skipBlanks_cons (by decide))
      readValue further, String.ofList_toList]

theorem exists_cons_of_members (key : String) (value : Value) (members : List (String × Value)) :
    ∃ others, commaSeparated (Value.writtenMembers ((key, value) :: members)) = '"' :: others := by
  cases members <;> exact ⟨_, rfl⟩

theorem readMembers?_written {levels fuel : Nat} {key : String} {value : Value}
    {members : List (String × Value)} (fits : value.FitsAs change levels)
    (fitEach : ∀ member ∈ members, member.2.FitsAs change levels)
    (reads : ReadsWritten change levels value)
    (readEach : ∀ member ∈ members, ReadsWritten change levels member.2)
    (enough :
      2 * (commaSeparated (Value.writtenMembers ((key, value) :: members))).length + 1 ≤ fuel) :
    readMembers? fuel levels
        (commaSeparated (Value.writtenMembers ((key, value) :: members)) ++ '\x7d' :: rest) =
      some (Value.mapNumbersOfMembers change ((key, value) :: members), rest) := by
  obtain ⟨fuel, rfl⟩ := Nat.exists_eq_succ_of_ne_zero (show fuel ≠ 0 by omega)
  induction members generalizing key value fuel with
  | nil =>
      have readValue := reads fuel ('\x7d' :: rest)
        (by simp [Value.writtenMembers, commaSeparated] at enough; omega)
        (ends_cons (Or.inr (Or.inr rfl)))
      rw [← skipBlanks_written fits] at readValue
      rw [Value.writtenMembers, Value.writtenMembers, commaSeparated, List.append_assoc,
        List.cons_append]
      exact readMembers?_member readValue (Or.inl ⟨skipBlanks_cons (by decide), rfl⟩)
  | cons next members ih =>
      obtain ⟨nextKey, nextValue⟩ := next
      rw [List.forall_mem_cons] at fitEach readEach
      have split : commaSeparated (Value.writtenMembers ((key, value) :: (nextKey, nextValue) ::
          members)) = quoted key ++ ':' :: (value.written ++
            ',' :: commaSeparated (Value.writtenMembers ((nextKey, nextValue) :: members))) := by
        simp [Value.writtenMembers, commaSeparated]
      rw [split] at enough ⊢
      simp only [List.length_append, List.length_cons] at enough
      have readValue := reads fuel
        (',' :: (commaSeparated (Value.writtenMembers ((nextKey, nextValue) :: members)) ++
          '\x7d' :: rest)) (by omega) (ends_cons (Or.inl rfl))
      rw [← skipBlanks_written fits] at readValue
      obtain ⟨others, written⟩ := exists_cons_of_members nextKey nextValue members
      obtain ⟨fuel, rfl⟩ := Nat.exists_eq_succ_of_ne_zero (show fuel ≠ 0 by omega)
      have readNext := @ih nextKey nextValue fitEach.1 fitEach.2 readEach.1 readEach.2 fuel
        (by omega)
      rw [List.append_assoc, List.cons_append, List.append_assoc, List.cons_append]
      refine readMembers?_member readValue (Or.inr ⟨_, skipBlanks_cons (by decide), ?_⟩)
      rw [written, List.cons_append] at readNext ⊢
      rw [skipBlanks_cons (by decide), readNext]

theorem readValue?_string {fuel levels : Nat} (text : String) :
    readValue? (fuel + 1) levels (quoted text ++ rest) = some (.string text, rest) := by
  rw [quoted, List.cons_append, List.cons_append, List.append_assoc, readValue?,
    List.cons_append, List.nil_append, readString?_escaped]
  simp only [Option.map_some, String.ofList_toList]

/-- No items start with a closing bracket, so what is read as items stands in an array. -/
theorem readValue?_items {fuel levels : Nat} {input : List Char} {items : List Value}
    (readItems : readItems? fuel levels (skipBlanks input) = some (items, rest)) :
    readValue? (fuel + 1) (levels + 1) ('[' :: input) = some (.array items, rest) := by
  simp only [readValue?]
  split
  · next impossible => exact absurd impossible (Nat.succ_ne_zero levels)
  · next closes =>
      rw [closes] at readItems
      cases fuel with
      | zero => cases readItems
      | succ fuel => cases fuel <;> cases readItems
  · next same _ =>
      obtain rfl := Nat.succ.inj same
      rw [readItems]
      rfl

theorem readValue?_members {fuel levels : Nat} {input : List Char}
    {members : List (String × Value)}
    (readMembers : readMembers? fuel levels (skipBlanks input) = some (members, rest)) :
    readValue? (fuel + 1) (levels + 1) ('\x7b' :: input) = some (.object members, rest) := by
  simp only [readValue?]
  split
  · next impossible => exact absurd impossible (Nat.succ_ne_zero levels)
  · next closes =>
      rw [closes] at readMembers
      cases fuel <;> cases readMembers
  · next same _ =>
      obtain rfl := Nat.succ.inj same
      rw [readMembers]
      rfl

theorem readValue?_array {fuel levels : Nat} {items : List Value}
    (fits : ∀ item ∈ items, item.FitsAs change levels)
    (reads : ∀ item ∈ items, ReadsWritten change levels item)
    (enough : 2 * (commaSeparated (Value.writtenItems items)).length + 1 ≤ fuel) :
    readValue? (fuel + 1) (levels + 1)
        ('[' :: (commaSeparated (Value.writtenItems items) ++ ']' :: rest)) =
      some ((Value.array items).mapNumbers change, rest) := by
  cases items with
  | nil => rfl
  | cons item items =>
      have readItems := @readItems?_written rest change levels fuel item items fits reads enough
      obtain ⟨first, others, written, noBlank⟩ :=
        exists_cons_of_items items (fits item (List.mem_cons_self ..))
      rw [written, List.cons_append] at readItems ⊢
      rw [← skipBlanks_cons noBlank] at readItems
      exact readValue?_items readItems

theorem readValue?_object {fuel levels : Nat} {members : List (String × Value)}
    (fits : ∀ member ∈ members, member.2.FitsAs change levels)
    (reads : ∀ member ∈ members, ReadsWritten change levels member.2)
    (enough : 2 * (commaSeparated (Value.writtenMembers members)).length + 1 ≤ fuel) :
    readValue? (fuel + 1) (levels + 1)
        ('\x7b' :: (commaSeparated (Value.writtenMembers members) ++ '\x7d' :: rest)) =
      some ((Value.object members).mapNumbers change, rest) := by
  cases members with
  | nil => rfl
  | cons member members =>
      obtain ⟨key, value⟩ := member
      rw [List.forall_mem_cons] at fits reads
      have readMembers := @readMembers?_written rest change levels fuel key value members fits.1
        fits.2 reads.1 reads.2 enough
      obtain ⟨others, written⟩ := exists_cons_of_members key value members
      rw [written, List.cons_append] at readMembers ⊢
      rw [← skipBlanks_cons (show isBlank '"' = false by decide)] at readMembers
      exact readValue?_members readMembers

theorem readsWritten_of_succ {levels : Nat} {value : Value} (fits : value.FitsAs change levels)
    (read : ∀ fuel rest, 2 * value.written.length ≤ fuel + 1 → Numeral.Ends rest →
      readValue? (fuel + 1) levels (value.written ++ rest) =
        some (value.mapNumbers change, rest)) :
    ReadsWritten change levels value := by
  intro fuel rest enough ends
  obtain ⟨first, others, written, -⟩ := exists_cons_of_fits fits
  have nonempty : value.written.length ≠ 0 := by simp [written]
  obtain ⟨fuel, rfl⟩ := Nat.exists_eq_succ_of_ne_zero (show fuel ≠ 0 by omega)
  exact read fuel rest enough ends

theorem readsWritten_of_fits {levels : Nat} {value : Value} (fits : value.FitsAs change levels) :
    ReadsWritten change levels value := by
  have whole := fits
  induction fits with
  | null levels => exact readsWritten_of_succ whole fun fuel rest enough ends => rfl
  | boolean levels value =>
      cases value <;> exact readsWritten_of_succ whole fun fuel rest enough ends => rfl
  | number levels readAs =>
      obtain ⟨numeral, read, isValue⟩ := readAs
      exact readsWritten_of_succ whole fun fuel rest enough ends =>
        readValue?_numeral read isValue ends
  | string levels text =>
      exact readsWritten_of_succ whole fun fuel rest enough ends => readValue?_string text
  | array each ih =>
      have reads := fun item member => ih item member (each item member)
      refine readsWritten_of_succ whole fun fuel rest enough ends => ?_
      simp only [Value.written, List.length_append, List.length_cons] at enough
      rw [Value.written, List.cons_append, List.cons_append, List.append_assoc]
      exact readValue?_array each reads (by omega)
  | object each ih =>
      have reads := fun member isMember => ih member isMember (each member isMember)
      refine readsWritten_of_succ whole fun fuel rest enough ends => ?_
      simp only [Value.written, List.length_append, List.length_cons] at enough
      rw [Value.written, List.cons_append, List.cons_append, List.append_assoc]
      exact readValue?_object each reads (by omega)

end Reader

theorem read?_text {change : Number → Number} {value : Value}
    (fits : value.FitsAs change Reader.deepestNesting) :
    read? value.text = some (value.mapNumbers change) := by
  obtain ⟨first, others, written, noBlank⟩ := Reader.exists_cons_of_fits fits
  have read := Reader.readsWritten_of_fits fits (Reader.enoughFuel value.written) []
    (by rw [Reader.enoughFuel]; omega) (by simp [Numeral.Ends])
  rw [List.append_nil, written] at read
  rw [read?, Value.text, String.toList_ofList, written, Reader.skipBlanks_cons noBlank, read]
  rfl

theorem ofBytes?_encode (text : String) : ofBytes? (Utf8.encode text) = Json.read? text := by
  rw [ofBytes?, Utf8.decode?_eq_some_iff.mpr rfl]
  rfl

theorem ofBytes?_encode_text_fitsAs {change : Number → Number} {value : Value}
    (fits : value.FitsAs change Reader.deepestNesting) :
    ofBytes? (Utf8.encode value.text) = some (value.mapNumbers change) := by
  rw [ofBytes?_encode, read?_text fits]

/-- The compact text of a value whose numbers are read back is read as this value. -/
theorem ofBytes?_encode_text {value : Value} (fits : value.Fits Reader.deepestNesting) :
    ofBytes? (Utf8.encode value.text) = some value := by
  obtain ⟨fitsAs, same⟩ := fits.fitsAs_id
  rw [ofBytes?_encode_text_fitsAs fitsAs, same]

end JsonSieve.Json
