import JsonSieve.Proofs.Text.Spans
import JsonSieve.Proofs.Token.Progress

/-!
# Tokens in longer inputs

A token does not depend on what stands before it, and on what stands behind it only through the one
octet that ends a number.  So a token that ends before the input does is read in the same way
wherever the input stands in a longer one.  At the end of the input a number may go on and an
unknown token may have been cut off, but all other tokens are complete there.
-/

namespace JsonSieve

namespace Lexer

/-- The classes of tokens that further octets may change. -/
def openKinds : List Token.Kind :=
  [.integer, .number, .unknown]

theorem kindAtEnd_mem (state : State) : state.kindAtEnd ∈ openKinds := by
  cases state <;> simp [openKinds, State.kindAtEnd]

/-- Further octets do not change a token that ends before the octets do, or that belongs to no
class of which tokens may be open there. -/
theorem scan_append_of_settled {state : State} {input : Bytes}
    (settled : (scan state input).raw.length < input.length ∨
      (scan state input).kind ∉ openKinds) (after : Bytes) :
    scan state (input ++ after) = scan state input := by
  induction input generalizing state with
  | nil =>
      rcases settled with shorter | complete
      · exact absurd shorter (Nat.not_lt_zero _)
      · exact absurd (kindAtEnd_mem state) complete
  | cons octet input ih =>
      rw [List.cons_append, scan, scan]
      cases step : state.next octet with
      | more next =>
          have later : (scan next input).raw.length < input.length ∨
              (scan next input).kind ∉ openKinds := by
            simpa only [scan, step, List.length_cons, Nat.add_lt_add_iff_right] using settled
          simp only [ih later]
      | last kind => rfl
      | before kind => rfl

end Lexer

namespace Cursor

open Lexer

def behind (count : Nat) (cursor : Cursor) : Cursor :=
  (fun place : Cursor => place.step.2)^[count] cursor

/-- The same place, with further octets before and after the input. -/
def within (before after : Bytes) (cursor : Cursor) : Cursor :=
  ⟨before ++ cursor.input ++ after, before.length + cursor.position⟩

/-- The next token is not the end, and it ends before the input does or is complete at its end. -/
structure Settles (cursor : Cursor) : Prop where
  known : cursor.step.1.kind ≠ .endOfInput
  settled : cursor.step.2.position < cursor.input.length ∨ cursor.step.1.kind ∉ openKinds

variable {cursor : Cursor}

theorem exists_reads (known : cursor.step.1.kind ≠ .endOfInput) :
    ∃ blanks token rest, cursor.Reads blanks token rest := by
  rcases cursor.blanks_or_reads with blank | reads
  · exact absurd ((kind_step_iff cursor).mpr blank) known
  · exact reads

theorem ahead_within (before after : Bytes) (inside : cursor.position ≤ cursor.input.length) :
    (cursor.within before after).ahead = cursor.ahead ++ after := by
  rw [ahead, within, List.append_assoc, ← List.drop_drop, List.drop_left,
    List.drop_append_of_le_length inside]
  rfl

theorem Settles.scan_append (settles : cursor.Settles) (after : Bytes) :
    scan .start (cursor.ahead.dropWhile isBlank ++ after) =
      scan .start (cursor.ahead.dropWhile isBlank) := by
  obtain ⟨blanks, token, rest, reads⟩ := exists_reads settles.known
  have nonempty : cursor.ahead.dropWhile isBlank ≠ [] :=
    fun empty => reads.not_blanks (dropWhile_eq_nil_iff.mp empty)
  apply scan_append_of_settled
  rw [← firstToken_of_ne_nil nonempty]
  apply settles.settled.imp_left
  intro before
  have total := congrArg List.length cursor.takeWhile_append_ahead
  rw [List.length_append, length_ahead] at total
  simp only [step, seek] at before
  omega

theorem Settles.step_within (settles : cursor.Settles) (before after : Bytes) :
    (cursor.within before after).step = (cursor.step.1, cursor.step.2.within before after) := by
  obtain ⟨blanks, token, rest, reads⟩ := exists_reads settles.known
  have inside : cursor.position ≤ cursor.input.length :=
    (Nat.le_of_lt reads.position_lt).trans reads.position_le
  obtain ⟨octet, octets, front⟩ := List.exists_cons_of_ne_nil
    (fun empty => reads.not_blanks (dropWhile_eq_nil_iff.mp empty))
  -- The octet behind the blanks stops them in the longer input too.
  obtain ⟨whole, inBlanks, stopped⟩ := Spans.span_eq_iff.mp ⟨rfl, front⟩
  obtain ⟨sameBlanks, sameFront⟩ : (cursor.ahead ++ after).takeWhile isBlank =
        cursor.ahead.takeWhile isBlank ∧
      (cursor.ahead ++ after).dropWhile isBlank = octet :: octets ++ after := by
    apply Spans.span_eq_iff.mpr
    exact ⟨by rw [← List.append_assoc, ← whole], inBlanks, stopped⟩
  have sameToken : firstToken (octet :: octets ++ after) = firstToken (octet :: octets) := by
    have settled := settles.scan_append after
    rwa [front] at settled
  unfold step
  rw [ahead_within before after inside, sameBlanks, sameFront, sameToken, front]
  simp only [within, seek, Nat.add_assoc]

theorem input_behind (count : Nat) (cursor : Cursor) :
    (cursor.behind count).input = cursor.input := by
  induction count generalizing cursor with
  | zero => rfl
  | succ count ih => exact ih cursor.step.2

theorem behind_succ (count : Nat) (cursor : Cursor) :
    cursor.behind (count + 1) = (cursor.behind count).step.2 :=
  Function.iterate_succ_apply' _ _ _

/-- Before a token that is settled there are only tokens that are settled. -/
theorem Settles.of_step (settles : cursor.step.2.Settles) : cursor.Settles := by
  have known : cursor.step.1.kind ≠ .endOfInput := by
    intro ended
    have nothing := ahead_step_of_blanks ((kind_step_iff cursor).mp ended)
    have endsToo : cursor.step.2.step.1.kind = .endOfInput := by rw [step_of_ahead_nil nothing]; rfl
    exact settles.known endsToo
  obtain ⟨blanks, token, rest, reads⟩ := exists_reads settles.known
  exact ⟨known, Or.inl (reads.position_lt.trans_le reads.position_le)⟩

theorem Settles.of_behind {count earlier : Nat} (settles : (cursor.behind count).Settles)
    (order : earlier ≤ count) : (cursor.behind earlier).Settles := by
  induction count, order using Nat.le_induction with
  | base => exact settles
  | succ count order ih =>
      rw [behind_succ] at settles
      exact ih settles.of_step

theorem Settles.behind_within {count : Nat} (settles : (cursor.behind count).Settles)
    (before after : Bytes) :
    (cursor.within before after).behind count = (cursor.behind count).within before after := by
  induction count with
  | zero => rfl
  | succ count ih =>
      have earlier := settles.of_behind (Nat.le_succ count)
      rw [behind_succ, behind_succ, ih earlier, earlier.step_within]

/-- A token that ends before its input does, or is neither a number nor unknown, is read in the same
way, and after as many steps, wherever the input stands in a longer one. -/
theorem tokens_are_local (before input after : Bytes) {count : Nat}
    (settles : ((start input).behind count).Settles) :
    let place := (start input).behind count
    let longer := start (before ++ input ++ after)
    (longer.seek (before.length + place.position)).step =
        (place.step.1, longer.seek (before.length + place.step.2.position)) ∧
      (longer.seek before.length).behind count = longer.seek (before.length + place.position) ∧
      ∀ earlier ≤ count, ((longer.seek before.length).behind earlier).step.1 =
        ((start input).behind earlier).step.1 := by
  intro place longer
  have inLonger (number : Nat) : ((start input).behind number).within before after =
      longer.seek (before.length + ((start input).behind number).position) := by
    rw [within, input_behind]
    rfl
  refine ⟨?_, ?_, fun earlier order => ?_⟩
  · have next := settles.step_within before after
    rwa [inLonger count, ← behind_succ, inLonger (count + 1), behind_succ] at next
  · rw [← inLonger count]
    exact settles.behind_within before after
  · have settled := settles.of_behind order
    have reached := settled.behind_within before after
    change (((start input).within before after).behind earlier).step.1 = _
    rw [reached, settled.step_within]

/-- The text `-x 0,` between two quotes: an unknown token, an integer and a comma at the end. -/
theorem tokens_are_local_between_quotes :
    let input : Bytes := [0x2d, 0x78, 0x20, 0x30, 0x2c]
    let longer := start ([0x22] ++ input ++ [0x22])
    ((start input).behind 2).Settles ∧
      ((longer.seek 1).behind 0).step.1 = ⟨.unknown, [0x2d, 0x78]⟩ ∧
      ((longer.seek 1).behind 1).step.1 = ⟨.integer, [0x30]⟩ ∧
      (longer.seek 5).step = (⟨.comma, [0x2c]⟩, longer.seek 6) := by
  intro input longer
  have settles : ((start input).behind 2).Settles := ⟨by decide, by decide⟩
  obtain ⟨comma, -, tokens⟩ := tokens_are_local [0x22] input [0x22] settles
  have place : ((start input).behind 2).position = 4 := by decide
  have token : ((start input).behind 2).step.1 = ⟨.comma, [0x2c]⟩ := by decide
  have next : ((start input).behind 2).step.2.position = 5 := by decide
  rw [place, token, next] at comma
  refine ⟨settles, ?_, ?_, comma⟩
  · exact (tokens 0 (by decide)).trans (by decide)
  · exact (tokens 1 (by decide)).trans (by decide)

end Cursor

end JsonSieve
