import JsonSieve.Proofs.Json.SingleLine
import JsonSieve.Proofs.Text.Lines
import JsonSieve.Proofs.Token.Placement
import JsonSieve.Token.Listing

/-!
# Lines of plain listings

A plain listing shows the text of a token as it is, line feeds included.  So it has a line for each
token just if no token holds a line feed.  Only unknown tokens and strings that have to be decoded
can hold one.
-/

namespace JsonSieve.Token

open Lexer Utf8

variable {offset : Nat} {token : Token}

theorem noControls_offsetColumn (offset : Nat) : Json.NoControls (offsetColumn offset) := by
  refine Json.noControls_append.mpr ⟨fun character member => ?_, ?_⟩
  · rw [List.eq_of_mem_replicate member]
    decide
  · exact Json.noControls_digits fun _ => Digits.isDigit_of_mem_ofNat

theorem noControls_label (kind : Kind) : Json.NoControls kind.label.toList := by
  cases kind <;> exact Json.noControls_of_all (by decide)

def lineFront (offset : Nat) (token : Token) : List Char :=
  offsetColumn offset ++ ' ' :: token.kind.label.toList ++ [' ']

theorem noControls_lineFront (offset : Nat) (token : Token) :
    Json.NoControls (lineFront offset token) :=
  Json.noControls_append.mpr ⟨Json.noControls_append.mpr ⟨noControls_offsetColumn offset,
    Json.noControls_cons.mpr ⟨by decide, noControls_label token.kind⟩⟩,
      Json.noControls_of_all (by decide)⟩

theorem plainLine_eq (offset : Nat) (token : Token) :
    plainLine offset token = (lineFront offset token ++ token.text.toList) ++ ['\n'] := by
  simp [plainLine, lineFront]

theorem count_text (token : Token) : token.text.toList.count '\n' = token.raw.count 0x0a :=
  count_lossy (show (0x0a : UInt8) < 0x80 by decide) token.raw

theorem count_plainLine (offset : Nat) (token : Token) :
    (plainLine offset token).count '\n' = token.raw.count 0x0a + 1 := by
  have front : (lineFront offset token).count '\n' = 0 :=
    List.count_eq_zero.mpr ((noControls_lineFront offset token).notMem (by decide))
  rw [plainLine_eq, List.count_append, List.count_append, front, count_text, Nat.zero_add]
  rfl

theorem count_plainLines (located : List (Nat × Token)) :
    (located.flatMap fun (offset, token) => plainLine offset token).count '\n' =
      located.length + (located.map fun entry => entry.2.raw.count 0x0a).sum := by
  induction located with
  | nil => rfl
  | cons entry located ih =>
      rw [List.flatMap_cons, List.count_append, ih, count_plainLine, List.length_cons,
        List.map_cons, List.sum_cons]
      omega

theorem unknown_or_escapedString {input : Bytes} {entry : Nat × Token}
    (member : entry ∈ locatedTokens input) (lineFeed : 0x0a ∈ entry.2.raw) :
    entry.2.kind = .unknown ∨ entry.2.kind = .escapedString := by
  by_cases known : entry.2.kind = .unknown
  · exact Or.inl known
  · exact Or.inr (escapedString_of_lineFeed (spells_of_mem member known) lineFeed)

theorem splitAt_plainLines {located : List (Nat × Token)}
    (unbroken : ∀ entry ∈ located, 0x0a ∉ entry.2.raw) :
    Lines.splitAt '\n' (located.flatMap fun (offset, token) => plainLine offset token) =
      (located.map fun (offset, token) => lineFront offset token ++ token.text.toList) ++ [[]] := by
  have lines : (located.flatMap fun (offset, token) => plainLine offset token) =
      (located.map fun (offset, token) => lineFront offset token ++ token.text.toList).flatMap
        (· ++ ['\n']) := by
    rw [List.flatMap_map]
    exact List.flatMap_congr fun (offset, token) _ => plainLine_eq offset token
  rw [lines]
  refine Lines.splitAt_flatMap (List.forall_mem_map.mpr fun (offset, token) member => ?_)
  rw [List.mem_append, not_or]
  refine ⟨(noControls_lineFront offset token).notMem (by decide), ?_⟩
  rw [← List.count_eq_zero, count_text, List.count_eq_zero]
  exact unbroken (offset, token) member

/-- A plain listing has a line feed for each token but the end, and those in the tokens.  A token
with a line feed is unknown or a string that has to be decoded. -/
theorem lineFeeds_of_plain_listing (input : Bytes) :
    let located := locatedTokens input
    let output := (Listing.plain.of input).toList
    output.count '\n' =
      located.length + (located.map fun entry => entry.2.raw.count 0x0a).sum ∧
    (output.count '\n' = located.length ↔ ∀ entry ∈ located, 0x0a ∉ entry.2.raw) ∧
    ((∀ entry ∈ located, 0x0a ∉ entry.2.raw) →
      Lines.splitAt '\n' output = (located.map fun (offset, token) =>
        offsetColumn offset ++ ' ' :: token.kind.label.toList ++ ' ' :: token.text.toList) ++
          [[]]) ∧
    ∀ entry ∈ located, 0x0a ∈ entry.2.raw →
      entry.2.kind = .unknown ∨ entry.2.kind = .escapedString := by
  intro located output
  have isOutput : output = located.flatMap fun (offset, token) => plainLine offset token :=
    String.toList_ofList
  have count := count_plainLines located
  rw [← isOutput] at count
  refine ⟨count, ?_, fun unbroken => ?_, fun entry => unknown_or_escapedString⟩
  · rw [count, Nat.add_eq_left, List.sum_eq_zero_iff, List.forall_mem_map]
    exact forall₂_congr fun entry _ => List.count_eq_zero
  · rw [isOutput, splitAt_plainLines unbroken]
    simp [lineFront]

/-- A string with a line feed in it, which is one token. -/
def brokenString : Bytes := [0x22, 0x0a, 0x22]

theorem lineFeed_in_token_breaks_line :
    ¬∀ input : Bytes, (Listing.plain.of input).toList.count '\n' =
      ((tokenize input).filter fun token => token.kind ≠ .endOfInput).length := by
  intro always
  have counted : (Listing.plain.of brokenString).toList.count '\n' = 2 := by decide +kernel
  have tokens :
      ((tokenize brokenString).filter fun token => token.kind ≠ .endOfInput).length = 1 := by
    decide +kernel
  have same := always brokenString
  rw [counted, tokens] at same
  cases same

end JsonSieve.Token
