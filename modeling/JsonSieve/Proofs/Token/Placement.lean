import JsonSieve.Proofs.Text.Lossy
import JsonSieve.Proofs.Token.Octets

/-!
# The places of tokens

Every token of an input is found where the lexer says, and what lies between the tokens is blank.
The place of a token is what a cursor has moved, less the octets of the token, of which it has moved
over all.

In the UTF-8 form of a text, a token that is not unknown does not cut a character in two, so that
its octets are the UTF-8 form of the text of the token.
-/

namespace JsonSieve

namespace Lexer

/-- An input from some place on that consists of these pieces, each at its place, and of blanks
before and behind them. -/
inductive Placed : (start : Nat) → List (Nat × Bytes) → Bytes → Prop
  | nil (start : Nat) (blanks : Bytes) : Blanks blanks → Placed start [] blanks
  | cons (start : Nat) (blanks piece : Bytes) (pieces : List (Nat × Bytes)) (rest : Bytes) :
      Blanks blanks → Placed (start + blanks.length + piece.length) pieces rest →
        Placed start ((start + blanks.length, piece) :: pieces) (blanks ++ piece ++ rest)

variable {start : Nat} {pieces : List (Nat × Bytes)} {input : Bytes}

theorem Placed.occurs (placed : Placed start pieces input) :
    ∀ piece ∈ pieces, ∃ before after, input = before ++ piece.2 ++ after ∧
      piece.1 = start + before.length := by
  induction placed with
  | nil start blanks blank => exact fun _ member => absurd member List.not_mem_nil
  | cons start blanks piece pieces rest blank placed ih =>
      refine List.forall_mem_cons.mpr ⟨⟨blanks, rest, rfl, rfl⟩, fun other member => ?_⟩
      obtain ⟨before, after, rfl, place⟩ := ih other member
      refine ⟨blanks ++ piece ++ before, after, by simp, ?_⟩
      simp only [List.length_append]
      omega

theorem Placed.apart (placed : Placed start pieces input) :
    pieces.Pairwise fun piece other => piece.1 + piece.2.length ≤ other.1 := by
  induction placed with
  | nil start blanks blank => exact .nil
  | cons start blanks piece pieces rest blank placed ih =>
      refine .cons (fun other member => ?_) ih
      obtain ⟨before, -, -, place⟩ := placed.occurs other member
      exact place ▸ Nat.le_add_right _ _

end Lexer

namespace Cursor

open Lexer

variable {cursor : Cursor} {blanks rest : Bytes} {token : Token}

theorem placed_locatedAhead (cursor : Cursor) :
    Placed cursor.position (cursor.locatedAhead.map fun (place, token) => (place, token.raw))
      cursor.ahead := by
  induction cursor using reading_induction with
  | atEnd cursor blank =>
      rw [locatedAhead_of_blanks blank]
      exact .nil cursor.position cursor.ahead blank
  | token cursor blanks token rest reads ih =>
      have behind :
          cursor.step.2.position = cursor.position + blanks.length + token.raw.length := by
        rw [reads.step]
        rfl
      rw [behind, reads.ahead_step] at ih
      rw [locatedAhead_of_reads reads, reads.ahead]
      exact .cons cursor.position blanks token.raw _ rest reads.blank ih

/-- Reads the tokens one after the other, if so many steps reach the end.  The place of each is
where the cursor stands behind it, less its length. -/
def locateAll? : (steps : Nat) → Cursor → Option (List (Nat × Token))
  | 0, _ => none
  | steps + 1, cursor =>
      (cursor.step.2.position.psub cursor.step.1.raw.length).bind fun place =>
        if cursor.step.1.kind = .endOfInput then some []
        else (cursor.step.2.locateAll? steps).map ((place, cursor.step.1) :: ·)

/-- The length of a token can always be taken from where the cursor stands behind it, and the
differences are the places of the tokens. -/
theorem locateAll?_eq (cursor : Cursor) {steps : Nat} (enough : cursor.ahead.length < steps) :
    cursor.locateAll? steps = some cursor.locatedAhead := by
  induction cursor using reading_induction generalizing steps with
  | atEnd cursor blank =>
      obtain ⟨steps, rfl⟩ := Nat.exists_eq_add_of_lt enough
      rw [locateAll?, step_of_blanks blank, locatedAhead_of_blanks blank]
      rfl
  | token cursor blanks token rest reads ih =>
      obtain ⟨steps, rfl⟩ : ∃ fewer, steps = fewer + 1 := ⟨steps - 1, by omega⟩
      have shorter := reads.length_ahead_lt
      have place : cursor.step.2.position.psub cursor.step.1.raw.length =
          some (cursor.position + blanks.length) := by
        rw [reads.step]
        exact Nat.psub_eq_some.mpr rfl
      rw [locateAll?, place, Option.bind_some, ih (by omega), locatedAhead_of_reads reads,
        reads.step, if_neg reads.known]
      rfl

theorem Reads.spells (reads : cursor.Reads blanks token rest) (known : token.kind ≠ .unknown) :
    Spells token.kind token.raw := by
  have nonempty : cursor.ahead.dropWhile isBlank ≠ [] :=
    fun empty => reads.not_blanks (dropWhile_eq_nil_iff.mp empty)
  have found : firstToken (cursor.ahead.dropWhile isBlank) = token :=
    congrArg Prod.fst reads.step
  rw [← found] at known ⊢
  exact spells_of_known nonempty known

theorem spells_of_mem_tokensAhead (cursor : Cursor) :
    ∀ token ∈ cursor.tokensAhead, token.kind ≠ .unknown → Spells token.kind token.raw := by
  induction cursor using reading_induction with
  | atEnd cursor blank =>
      rw [tokensAhead_of_blanks blank]
      exact fun token member => absurd member List.not_mem_nil
  | token cursor blanks token rest reads ih =>
      rw [tokensAhead_of_reads reads]
      exact List.forall_mem_cons.mpr ⟨reads.spells, ih⟩

end Cursor

namespace Lexer

open Utf8

variable {input : Bytes} {entry : Nat × Token}

theorem placed_locatedTokens (input : Bytes) :
    Placed 0 ((locatedTokens input).map fun entry => (entry.1, entry.2.raw)) input :=
  (Cursor.start input).placed_locatedAhead

theorem occurs_of_mem (member : entry ∈ locatedTokens input) :
    ∃ before after, input = before ++ entry.2.raw ++ after ∧ entry.1 = before.length := by
  obtain ⟨before, after, split, place⟩ := (placed_locatedTokens input).occurs
    (entry.1, entry.2.raw) (List.mem_map.mpr ⟨entry, member, rfl⟩)
  exact ⟨before, after, split, place.trans (Nat.zero_add _)⟩

theorem length_raw_pos_of_mem (member : entry ∈ locatedTokens input) : 0 < entry.2.raw.length :=
  List.length_pos_iff.mpr ((Cursor.start input).mem_tokensAhead entry.2
    (List.mem_map.mpr ⟨entry, member, rfl⟩)).1

theorem spells_of_mem (member : entry ∈ locatedTokens input) (known : entry.2.kind ≠ .unknown) :
    Spells entry.2.kind entry.2.raw :=
  (Cursor.start input).spells_of_mem_tokensAhead entry.2
    (List.mem_map.mpr ⟨entry, member, rfl⟩) known

/-- The text of a token that is not unknown is just its octets, if the input is a text. -/
theorem encode_text {text : String} (member : entry ∈ locatedTokens (encode text))
    (known : entry.2.kind ≠ .unknown) : encode entry.2.text = entry.2.raw := by
  have spelled := spells_of_mem member known
  obtain ⟨before, after, split, -⟩ := occurs_of_mem member
  obtain ⟨own, isOwn⟩ : ∃ own, entry.2.raw = octetsOf own :=
    exists_characters split (ascii_at_ends spelled).1 (ascii_at_ends spelled).2
  rw [Token.text, isOwn, lossy, lossyFrom_octetsOf, encode, String.toList_ofList, octetsOf]

end Lexer

end JsonSieve
