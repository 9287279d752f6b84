import JsonSieve.Proofs.Json.Octets
import JsonSieve.Proofs.Token.Rendering

/-!
# The tokens of a JSON text

The lexer and the reader go over the same text independently of each other.  Where the reader finds
a value, the lexer finds the tokens of the value in order: those of its items and members with the
punctuation around them, one token for each key and for each scalar.  A plain string token holds
the text that was read between its quotes.

Everything follows from what the reader consumes.  A relation says that from one place of the text
to another the tokens show certain parts; consecutive stretches add up, and blanks show nothing.
-/

namespace JsonSieve

open Utf8

namespace Json

/-- What one token shows of a value. -/
inductive Part
  /-- Punctuation, a truth value or null. -/
  | mark (kind : Token.Kind)
  | number
  /-- A key or a string. -/
  | text (text : String)

/-- The entries of an array or an object with commas between them, and what closes it. -/
def Part.enclosed (entries : List (List Part)) (closing : Token.Kind) : List Part :=
  [.mark .comma].intercalate entries ++ [.mark closing]

namespace Value

mutual

def parts : Value → List Part
  | .null => [.mark .nullWord]
  | .boolean true => [.mark .trueWord]
  | .boolean false => [.mark .falseWord]
  | .number _ => [.number]
  | .string text => [.text text]
  | .array items => .mark .openBracket :: Part.enclosed (partsOfItems items) .closeBracket
  | .object members => .mark .openBrace :: Part.enclosed (partsOfMembers members) .closeBrace

def partsOfItems : List Value → List (List Part)
  | [] => []
  | item :: items => item.parts :: partsOfItems items

def partsOfMembers : List (String × Value) → List (List Part)
  | [] => []
  | (key, value) :: members => (.text key :: .mark .colon :: value.parts) :: partsOfMembers members

end

end Value

end Json

/-- A token that shows a part of a value.  The notation of a number or a string is up to the token,
but a string without escapes is the text between quotes. -/
inductive Token.Shows : Token → Json.Part → Prop
  | mark (kind : Token.Kind) (raw : Bytes) :
      Lexer.Spells kind raw → Shows ⟨kind, raw⟩ (.mark kind)
  | number (kind : Token.Kind) (raw : Bytes) :
      Lexer.Spells kind raw → kind = .integer ∨ kind = .number → Shows ⟨kind, raw⟩ .number
  | plainText (text : String) (raw : Bytes) :
      Lexer.Spells .string raw → raw = 0x22 :: (encode text ++ [0x22]) →
        Shows ⟨.string, raw⟩ (.text text)
  | escapedText (text : String) (raw : Bytes) :
      Lexer.Spells .escapedString raw → Shows ⟨.escapedString, raw⟩ (.text text)

theorem Token.Shows.spells {token : Token} {part : Json.Part} (shows : token.Shows part) :
    Lexer.Spells token.kind token.raw := by
  cases shows with
  | mark kind raw spelled => exact spelled
  | number kind raw spelled isNumeral => exact spelled
  | plainText text raw spelled isText => exact spelled
  | escapedText text raw spelled => exact spelled

namespace Json.Reader

open Lexer

variable {input middle rest : List Char} {parts others : List Part}

/-- The tokens of an input down to the rest show these parts. -/
def Shown (parts : List Part) (input rest : List Char) : Prop :=
  ∃ tokens, List.Forall₂ Token.Shows tokens parts ∧
    tokenize (octetsOf input) = tokens ++ tokenize (octetsOf rest)

theorem Shown.append (first : Shown parts input middle) (second : Shown others middle rest) :
    Shown (parts ++ others) input rest := by
  obtain ⟨tokens, shows, split⟩ := first
  obtain ⟨further, alsoShows, splitFurther⟩ := second
  refine ⟨tokens ++ further, List.rel_append shows alsoShows, ?_⟩
  rw [split, splitFurther, List.append_assoc]

theorem exists_blank_octet {character : Char} (blank : Reader.isBlank character) :
    ∃ octet, String.utf8EncodeChar character = [octet] ∧ Lexer.isBlank octet := by
  simp only [Reader.isBlank, Bool.or_eq_true, decide_eq_true_eq] at blank
  rcases blank with ((rfl | rfl) | rfl) | rfl <;> exact ⟨_, rfl, rfl⟩

theorem blanks_octetsOf {characters : List Char}
    (blank : ∀ character ∈ characters, Reader.isBlank character) :
    Blanks (octetsOf characters) :=
  forall_mem_octetsOf fun character member =>
    (exists_blank_octet (blank character member)).imp
      fun _ own => ⟨own.1, isBlank_iff.mp own.2⟩

theorem shown_skipBlanks (input : List Char) : Shown [] input (skipBlanks input) := by
  have blank : Blanks (octetsOf (input.takeWhile Reader.isBlank)) :=
    blanks_octetsOf fun _ member => List.mem_takeWhile_imp member
  refine ⟨[], .nil, ?_⟩
  calc
    tokenize (octetsOf input) =
        tokenize (octetsOf (input.takeWhile Reader.isBlank) ++ octetsOf (skipBlanks input)) := by
      rw [← octetsOf_append, skipBlanks, List.takeWhile_append_dropWhile]
    _ = tokenize (octetsOf (skipBlanks input)) := tokenize_blanks_append blank _

theorem Shown.skipBlanks (shown : Shown parts input rest) :
    Shown parts input (Reader.skipBlanks rest) := by
  have further := shown.append (shown_skipBlanks rest)
  rwa [List.append_nil] at further

theorem shown_token {word : List Char} {kind : Token.Kind} {part : Part}
    (shows : Token.Shows ⟨kind, octetsOf word⟩ part)
    (ends : kind = .integer ∨ kind = .number → EndsNumeral (octetsOf rest)) :
    Shown [part] (word ++ rest) rest := by
  refine ⟨[⟨kind, octetsOf word⟩], .cons shows .nil, ?_⟩
  rw [octetsOf_append]
  exact tokenize_token_append shows.spells ends

theorem shown_mark (word : List Char) {kind : Token.Kind} (spelled : Spells kind (octetsOf word))
    (noNumeral : ¬(kind = .integer ∨ kind = .number)) :
    Shown [.mark kind] (word ++ rest) rest :=
  shown_token (.mark kind _ spelled) fun isNumeral => absurd isNumeral noNumeral

theorem shown_number {numeral : Numeral} (read : Numeral.read? input = some (numeral, rest))
    (ends : EndsNumeral (octetsOf rest)) : Shown [.number] input rest := by
  obtain ⟨word, rfl, isNumeral⟩ := Numeral.numeral_of_read? read
  exact shown_token (.number _ _ (.numeral _ isNumeral) (isNumeral_numeralKind _)) fun _ => ends

theorem shown_string {characters : List Char}
    (read : readString? input = some (characters, rest)) :
    Shown [.text (String.ofList characters)] ('"' :: input) rest := by
  obtain ⟨word, rfl, isBody, own⟩ := stringBody_of_readString? read
  have split : '"' :: (word ++ '"' :: rest) = '"' :: (word ++ ['"']) ++ rest := by simp
  have raw : octetsOf ('"' :: (word ++ ['"'])) = 0x22 :: (octetsOf word ++ [0x22]) := by
    rw [octetsOf_cons, octetsOf_append]
    rfl
  have spelled := Spells.string (octetsOf word) isBody
  rw [← raw, stringKind] at spelled
  rw [split]
  split at spelled
  · exact shown_token (.escapedText _ _ spelled) (by simp)
  · next plain =>
      refine shown_token (.plainText _ _ spelled ?_) (by simp)
      have noBackslash : 0x5c ∉ octetsOf word := fun member => plain ⟨0x5c, member, by decide⟩
      rw [raw, own.resolve_right noBackslash, encode, String.toList_ofList]
      rfl

/-- No numeral goes on with blanks and then punctuation or nothing. -/
theorem endsNumeral_of_skipBlanks
    (closes : ∀ character ∈ (skipBlanks rest).head?, character ∈ [',', ']', '\x7d']) :
    EndsNumeral (octetsOf rest) := by
  cases rest with
  | nil => simp [EndsNumeral, octetsOf]
  | cons first rest =>
      by_cases blank : Reader.isBlank first
      · obtain ⟨octet, isOctet, blank⟩ := exists_blank_octet blank
        rw [octetsOf_cons, isOctet]
        exact endsNumeral_of_blanks (List.forall_mem_singleton.mpr (isBlank_iff.mp blank))
          (List.cons_ne_nil _ _) _
      · rw [skipBlanks, List.dropWhile_cons_of_neg blank] at closes
        have closes := closes first rfl
        simp only [List.mem_cons, List.not_mem_nil, or_false] at closes
        intro octet isHead
        rcases closes with rfl | rfl | rfl <;> cases isHead <;> decide

section Entries

variable {entry : List Part} {entries : List (List Part)} {closing : Token.Kind} {after : List Char}

theorem Shown.last {character : Char} (shown : Shown entry input after)
    (closes : Reader.skipBlanks after = character :: rest)
    (spelled : Spells closing (octetsOf [character]))
    (noNumeral : ¬(closing = .integer ∨ closing = .number)) :
    Shown (Part.enclosed [entry] closing) input rest := by
  have shown := shown.skipBlanks
  rw [closes] at shown
  rw [Part.enclosed, List.intercalate_singleton]
  exact shown.append (shown_mark [character] spelled noNumeral)

theorem Shown.further {behind : List Char} (shown : Shown entry input after)
    (comma : Reader.skipBlanks after = ',' :: behind) (nonempty : entries ≠ [])
    (shownEntries : Shown (Part.enclosed entries closing) (Reader.skipBlanks behind) rest) :
    Shown (Part.enclosed (entry :: entries) closing) input rest := by
  have shown := shown.skipBlanks
  rw [comma] at shown
  have shown := (shown.append (shown_mark [','] .comma (by decide))).skipBlanks
  have shown := shown.append shownEntries
  rwa [Part.enclosed, List.intercalate_cons_of_ne_nil nonempty, List.append_assoc]

end Entries

/-- The tokens of every value that is read within so much fuel show its parts. -/
def ShowsValues (fuel : Nat) : Prop :=
  ∀ {levels input value rest}, readValue? fuel levels input = some (value, rest) →
    EndsNumeral (octetsOf rest) → Shown value.parts input rest

def ShowsItems (fuel : Nat) : Prop :=
  ∀ {levels input items rest}, readItems? fuel levels input = some (items, rest) →
    Value.partsOfItems items ≠ [] ∧
      Shown (Part.enclosed (Value.partsOfItems items) .closeBracket) input rest

def ShowsMembers (fuel : Nat) : Prop :=
  ∀ {levels input members rest}, readMembers? fuel levels input = some (members, rest) →
    Value.partsOfMembers members ≠ [] ∧
      Shown (Part.enclosed (Value.partsOfMembers members) .closeBrace) input rest

variable {fuel : Nat}

theorem showsItems_succ (values : ShowsValues fuel) (others : ShowsItems fuel) :
    ShowsItems (fuel + 1) := by
  intro levels input items rest read
  simp only [readItems?, Option.bind_eq_bind, Option.bind_eq_some_iff, Prod.exists] at read
  obtain ⟨item, after, readItem, read⟩ := read
  split at read
  · next closes =>
      cases read
      have shown := values readItem (endsNumeral_of_skipBlanks (by simp [closes]))
      exact ⟨List.cons_ne_nil _ _, shown.last closes .closeBracket (by decide)⟩
  · next behind comma =>
      simp only [Option.bind_eq_some_iff, Prod.exists] at read
      obtain ⟨more, afterItems, readItems, equal⟩ := read
      cases equal
      obtain ⟨nonempty, shownItems⟩ := others readItems
      have shown := values readItem (endsNumeral_of_skipBlanks (by simp [comma]))
      exact ⟨List.cons_ne_nil _ _, shown.further comma nonempty shownItems⟩
  · cases read

theorem shown_member {characters : List Char} {levels : Nat} {value : Value}
    {afterKey behind : List Char} (values : ShowsValues fuel)
    (readKey : readString? input = some (characters, afterKey))
    (colon : skipBlanks afterKey = ':' :: behind)
    (readValue : readValue? fuel levels (skipBlanks behind) = some (value, rest))
    (ends : EndsNumeral (octetsOf rest)) :
    Shown (.text (String.ofList characters) :: .mark .colon :: value.parts) ('"' :: input)
      rest := by
  have shown := (shown_string readKey).skipBlanks
  rw [colon] at shown
  have shown := (shown.append (shown_mark [':'] .colon (by decide))).skipBlanks
  exact shown.append (values readValue ends)

theorem showsMembers_succ (values : ShowsValues fuel) (others : ShowsMembers fuel) :
    ShowsMembers (fuel + 1) := by
  intro levels input members rest read
  unfold readMembers? at read
  split at read
  · next same =>
      obtain rfl := Nat.succ.inj same
      simp only [Option.bind_eq_bind, Option.bind_eq_some_iff, Prod.exists] at read
      obtain ⟨characters, afterKey, readKey, read⟩ := read
      split at read
      · next colon =>
          simp only [Option.bind_eq_some_iff, Prod.exists] at read
          obtain ⟨value, afterValue, readValue, read⟩ := read
          split at read
          · next closes =>
              cases read
              have shown := shown_member values readKey colon readValue
                (endsNumeral_of_skipBlanks (by simp [closes]))
              exact ⟨List.cons_ne_nil _ _, shown.last closes .closeBrace (by decide)⟩
          · next comma =>
              simp only [Option.bind_eq_some_iff, Prod.exists] at read
              obtain ⟨further, afterMembers, readMembers, equal⟩ := read
              cases equal
              obtain ⟨nonempty, shownMembers⟩ := others readMembers
              have shown := shown_member values readKey colon readValue
                (endsNumeral_of_skipBlanks (by simp [comma]))
              exact ⟨List.cons_ne_nil _ _, shown.further comma nonempty shownMembers⟩
          · cases read
      · cases read
  · cases read

theorem showsValues_succ (items : ShowsItems fuel) (members : ShowsMembers fuel) :
    ShowsValues (fuel + 1) := by
  intro levels input value rest read ends
  unfold readValue? at read
  split at read
  · cases read
    exact shown_mark ['n', 'u', 'l', 'l'] .nullWord (by decide)
  · cases read
    exact shown_mark ['t', 'r', 'u', 'e'] .trueWord (by decide)
  · cases read
    exact shown_mark ['f', 'a', 'l', 's', 'e'] .falseWord (by decide)
  · obtain ⟨⟨characters, after⟩, readString, equal⟩ := Option.map_eq_some_iff.mp read
    cases equal
    exact shown_string readString
  · next behind =>
      have opened : Shown [.mark .openBracket] ('[' :: behind) (skipBlanks behind) :=
        (shown_mark ['['] .openBracket (by decide)).skipBlanks
      split at read
      · cases read
      · next closes =>
          cases read
          rw [closes] at opened
          exact opened.append (shown_mark [']'] .closeBracket (by decide))
      · obtain ⟨⟨others, after⟩, readItems, equal⟩ := Option.map_eq_some_iff.mp read
        cases equal
        exact opened.append (items readItems).2
  · next behind =>
      have opened : Shown [.mark .openBrace] ('\x7b' :: behind) (skipBlanks behind) :=
        (shown_mark ['\x7b'] .openBrace (by decide)).skipBlanks
      split at read
      · cases read
      · next closes =>
          cases read
          rw [closes] at opened
          exact opened.append (shown_mark ['\x7d'] .closeBrace (by decide))
      · obtain ⟨⟨others, after⟩, readMembers, equal⟩ := Option.map_eq_some_iff.mp read
        cases equal
        exact opened.append (members readMembers).2
  · simp only [Option.bind_eq_bind, Option.bind_eq_some_iff, Prod.exists] at read
    obtain ⟨numeral, after, readNumeral, number, -, equal⟩ := read
    cases equal
    exact shown_number readNumeral ends

theorem shown_of_read (fuel : Nat) :
    ShowsValues fuel ∧ ShowsItems fuel ∧ ShowsMembers fuel := by
  -- Each of the three readers passes on less fuel than it has, be it to another one.
  induction fuel with
  | zero =>
      refine ⟨?_, ?_, ?_⟩
      · intro levels input value rest read
        cases read
      · intro levels input items rest read
        cases read
      · intro levels input members rest read
        cases read
  | succ fuel ih =>
      obtain ⟨values, items, members⟩ := ih
      exact ⟨showsValues_succ items members, showsItems_succ values items,
        showsMembers_succ values members⟩

end Json.Reader

namespace Json

open Lexer Reader

theorem shown_of_read? {text : String} {value : Value} (read : read? text = some value) :
    Shown value.parts text.toList [] := by
  simp only [read?, Option.bind_eq_bind, Option.bind_eq_some_iff, Prod.exists] at read
  obtain ⟨found, rest, readValue, read⟩ := read
  split at read
  · next empty =>
      cases read
      have nothing : skipBlanks rest = [] := List.isEmpty_iff.mp empty
      have ends : EndsNumeral (octetsOf rest) := endsNumeral_of_skipBlanks (by simp [nothing])
      have shown := (shown_skipBlanks text.toList).append ((shown_of_read _).1 readValue ends)
      rw [← nothing]
      exact shown.skipBlanks
  · cases read

theorem known_of_shows {tokens : List Token} {parts : List Part}
    (shows : List.Forall₂ Token.Shows tokens parts) : ∀ token ∈ tokens, token.kind ≠ .unknown := by
  induction shows with
  | nil => exact fun token member => absurd member List.not_mem_nil
  | cons first others ih =>
      exact List.forall_mem_cons.mpr ⟨(spelled_kind_ne first.spells).2, ih⟩

/-- The tokens of a text that is read as a value are those of its parts in the order in which they
are written, and a plain string token holds the text read there. -/
theorem tokens_follow_value {document : Bytes} {value : Value}
    (read : ofBytes? document = some value) :
    ∃ tokens, tokenize document = tokens ++ [.atEnd] ∧
      (∀ token ∈ tokens, token.kind ≠ .unknown) ∧
        List.Forall₂ Token.Shows tokens value.parts := by
  obtain ⟨text, decoded, readText⟩ := Option.bind_eq_some_iff.mp read
  obtain rfl := decode?_eq_some_iff.mp decoded
  obtain ⟨tokens, shows, split⟩ := shown_of_read? readText
  have ended : tokenize (octetsOf []) = [.atEnd] := tokenize_blanks (by simp [Blanks, octetsOf])
  rw [ended] at split
  exact ⟨tokens, split, known_of_shows shows, shows⟩

/-- An object with one key written twice, in whose text the strings are written in both ways. -/
def repeatedKeyText : String := "\x7b\"k\": [-1, \"\\u00e9\"], \"k\": \"é\"\x7d\n"

def repeatedKeyValue : Value :=
  .object [("k", .array [.number (.integer (-1)), .string "é"]), ("k", .string "é")]

theorem tokens_follow_repeatedKeyValue :
    ofBytes? (encode repeatedKeyText) = some repeatedKeyValue ∧
      ∃ tokens, tokenize (encode repeatedKeyText) = tokens ++ [.atEnd] ∧
        (∀ token ∈ tokens, token.kind ≠ .unknown) ∧
          List.Forall₂ Token.Shows tokens repeatedKeyValue.parts := by
  have read : ofBytes? (encode repeatedKeyText) = some repeatedKeyValue := by cbv
  exact ⟨read, tokens_follow_value read⟩

end Json

end JsonSieve
