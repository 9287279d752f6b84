import JsonSieve.Proofs.Json.Extent
import JsonSieve.Proofs.Json.SingleLine
import JsonSieve.Proofs.Token.Placement
import JsonSieve.Token.Listing

/-!
# Records of tokens

The listing of an input as records is one line of JSON, from which the tokens of the input are read
again: for each of them, in their order, its offset, its class and its text.  The texts at their
offsets, with blanks between them, make up an input that is a text of JSON tokens only.
-/

namespace JsonSieve.Token

open Lexer Utf8

theorem Kind.recordName_injective : Function.Injective Kind.recordName := by
  intro kind other same
  cases kind <;> cases other <;> first | rfl | exact absurd same (by decide)

def recordsOf (located : List (Nat × Token)) : Json.Value :=
  .array (located.map fun (offset, token) => toRecord offset token)

theorem fits_toRecord {offset : Nat} (small : offset < 2 ^ 64) (levels : Nat) (token : Token) :
    (toRecord offset token).Fits (levels + 1) := by
  have readsBack : (Json.Number.integer offset).ReadsBack :=
    Json.Numeral.readsBack_integer (by omega)
  refine .object (List.forall_mem_cons.mpr ⟨.number levels readsBack, ?_⟩)
  exact List.forall_mem_cons.mpr ⟨.string _ _, List.forall_mem_singleton.mpr (.string _ _)⟩

theorem offset_lt {input : Bytes} {offset : Nat} {token : Token}
    (member : (offset, token) ∈ locatedTokens input) : offset < input.length := by
  obtain ⟨before, after, split, place⟩ := occurs_of_mem member
  have positive := length_raw_pos_of_mem member
  have long := congrArg List.length split
  simp only [List.length_append] at long place positive
  omega

theorem records_eq (input : Bytes) :
    Listing.records.of input =
      String.ofList ((recordsOf (locatedTokens input)).written ++ ['\n']) :=
  String.ofList_append.symm

/-- The records are read from their line if the length of the input is a word of the machine. -/
theorem read_records {input : Bytes} (short : input.length ≤ Digits.wordBound) :
    Json.ofBytes? (encode (Listing.records.of input)) = some (recordsOf (locatedTokens input)) := by
  have fits : (recordsOf (locatedTokens input)).Fits Json.Reader.deepestNesting := by
    refine .array (List.forall_mem_map.mpr fun (offset, token) member => ?_)
    exact fits_toRecord (Nat.lt_of_lt_of_le (offset_lt member) short) _ token
  obtain ⟨fitsAs, same⟩ := fits.fitsAs_id
  obtain ⟨first, others, written, noBlank⟩ := Json.Reader.exists_cons_of_fits fitsAs
  have own : Json.Reader.IsRead _ _ _ := Json.Reader.readsWritten_of_fits fitsAs
  rw [same, written] at own
  rw [Json.ofBytes?_encode, records_eq, written]
  exact @Json.read?_of_isRead _ [] others ['\n'] first own noBlank (by simp)
    (by simp [Json.Reader.isBlank])

theorem exists_line (input : Bytes) :
    ∃ line, encode (Listing.records.of input) = line ++ [0x0a] ∧ 0x0a ∉ line := by
  refine ⟨octetsOf (recordsOf (locatedTokens input)).written, ?_, fun member => ?_⟩
  · rw [records_eq, encode, String.toList_ofList]
    exact octetsOf_append _ _
  · have count := List.count_pos_iff.mpr member
    rw [count_octetsOf (by decide)] at count
    exact (Json.Value.noControls_written _).notMem (by decide) (List.count_pos_iff.mp count)

theorem map_snd_locatedTokens (input : Bytes) :
    (locatedTokens input).map Prod.snd =
      (tokenize input).filter fun token => token.kind ≠ .endOfInput := by
  have known : ∀ token ∈ (locatedTokens input).map Prod.snd, token.kind ≠ .endOfInput :=
    fun token member => ((Cursor.start input).mem_tokensAhead token member).2
  rw [tokenize, List.filter_append, List.filter_eq_self.mpr (by simpa using known)]
  exact (List.append_nil _).symm

theorem pairwise_offsets (input : Bytes) :
    ((locatedTokens input).map Prod.fst).Pairwise (· < ·) := by
  have apart := List.pairwise_map.mp (placed_locatedTokens input).apart
  refine List.pairwise_map.mpr (apart.imp_of_mem fun {entry other} member _ ends => ?_)
  have positive := length_raw_pos_of_mem member
  have ends : entry.1 + entry.2.raw.length ≤ other.1 := ends
  omega

/-- The records are one line of JSON with the offset, the class and the text of each token.  If the
input is UTF-8 and no token is unknown, it consists of these texts and blanks. -/
theorem records_describe_tokens (input : Bytes) :
    let located := locatedTokens input
    let output := encode (Listing.records.of input)
    (∃ line, output = line ++ [0x0a] ∧ 0x0a ∉ line) ∧
    (input.length ≤ Digits.wordBound →
      Json.ofBytes? output = some (.array (located.map fun (offset, token) => .object [
        ("offset", .number (.integer offset)),
        ("kind", .string token.kind.recordName),
        ("text", .string (lossy token.raw))]))) ∧
    Function.Injective Kind.recordName ∧
    located.map Prod.snd = (tokenize input).filter (fun token => token.kind ≠ .endOfInput) ∧
    (located.map Prod.fst).Pairwise (· < ·) ∧
    (∀ entry ∈ located, ∃ before after,
      input = before ++ entry.2.raw ++ after ∧ entry.1 = before.length) ∧
    (Cursor.start input).locateAll? (input.length + 1) = some located ∧
    ∀ text, input = encode text → (∀ entry ∈ located, entry.2.kind ≠ .unknown) →
      (∀ entry ∈ located, encode (lossy entry.2.raw) = entry.2.raw) ∧
      Placed 0 (located.map fun entry => (entry.1, encode (lossy entry.2.raw))) input := by
  intro located output
  refine ⟨exists_line input, read_records, Kind.recordName_injective, map_snd_locatedTokens input,
    pairwise_offsets input, fun entry => occurs_of_mem, ?_, ?_⟩
  · exact (Cursor.start input).locateAll?_eq (Nat.lt_succ_self _)
  · rintro text isText known
    have own : ∀ entry ∈ located, encode (lossy entry.2.raw) = entry.2.raw := by
      intro entry member
      have inText : entry ∈ locatedTokens (encode text) := by rwa [← isText]
      exact encode_text inText (known entry member)
    refine ⟨own, ?_⟩
    have same : ∀ entry ∈ located, (entry.1, encode (lossy entry.2.raw)) = (entry.1, entry.2.raw) :=
      fun entry member => by rw [own entry member]
    rw [List.map_congr_left same]
    exact placed_locatedTokens input

/-- An array of a number and of a string that is not ASCII, with a blank between them. -/
def numberAndLetter : String := "[1.5, \"é\"]"

theorem records_describe_numberAndLetter :
    (encode numberAndLetter).length ≤ Digits.wordBound ∧
      Json.ofBytes? (encode (Listing.records.of (encode numberAndLetter))) =
        some (.array ([(0, "ArrayStart", "["), (1, "Number", "1.5"), (4, "ListDelim", ","),
          (6, "EscapeString", "\"é\""), (10, "ArrayEnd", "]")].map fun (offset, kind, text) =>
            .object [("offset", .number (.integer offset)), ("kind", .string kind),
              ("text", .string text)])) ∧
      Placed 0 [(0, encode "["), (1, encode "1.5"), (4, encode ","), (6, encode "\"é\""),
        (10, encode "]")] (encode numberAndLetter) := by
  have short : (encode numberAndLetter).length ≤ Digits.wordBound := by decide
  have located : locatedTokens (encode numberAndLetter) =
      [(0, ⟨.openBracket, encode "["⟩), (1, ⟨.number, encode "1.5"⟩), (4, ⟨.comma, encode ","⟩),
        (6, ⟨.escapedString, encode "\"é\""⟩), (10, ⟨.closeBracket, encode "]"⟩)] := by cbv
  obtain ⟨-, read, -, -, -, -, -, recovered⟩ := records_describe_tokens (encode numberAndLetter)
  rw [located] at read recovered
  refine ⟨short, (read short).trans (by cbv), ?_⟩
  have placed := (recovered numberAndLetter rfl (by decide)).2
  simpa [lossy_encode] using placed

end JsonSieve.Token
