import JsonSieve.Text.Lines
import JsonSieve.Proofs.Text.Spans

/-!
# Control sequences

A terminal takes an escape character, an opening bracket, digits and semicolons, and the letter `m`
for a control sequence: the codes in it, separated by semicolons, say how the characters that follow
look.  The code zero takes off all codes that are in force, and every other code joins them.

A text can be seen without its control sequences, or as a terminal shows it, where each character
comes with the codes in force.
-/

namespace JsonSieve.Sequences

/-- What the codes of a sequence and the semicolons between them consist of. -/
def inCodes (character : Char) : Bool :=
  character.isDigit || character = ';'

/-- The codes of the control sequence at the front of a text, with the semicolons between them, and
what follows the sequence. -/
def read? : List Char → Option (List Char × List Char)
  | '\x1b' :: '[' :: rest =>
      match rest.dropWhile inCodes with
      | 'm' :: after => some (rest.takeWhile inCodes, after)
      | _ => none
  | _ => none

theorem read?_eq_some_iff {text codes after : List Char} :
    read? text = some (codes, after) ↔
      text = '\x1b' :: '[' :: (codes ++ 'm' :: after) ∧
        ∀ character ∈ codes, inCodes character = true := by
  constructor
  · intro read
    unfold read? at read
    split at read
    · next rest =>
        split at read
        · next ended =>
            cases read
            obtain ⟨whole, each, -⟩ := Spans.span_eq_iff.mp ⟨rfl, ended⟩
            exact ⟨congrArg (fun rest => '\x1b' :: '[' :: rest) whole, each⟩
        · cases read
    · cases read
  · rintro ⟨rfl, each⟩
    obtain ⟨taken, left⟩ := Spans.span_eq_iff.mpr
      ⟨rfl, each, show ∀ character ∈ ('m' :: after).head?, inCodes character = false from
        fun character isHead => by cases isHead; decide⟩
    simp only [read?, taken, left]

theorem length_of_read? {text codes after : List Char} (read : read? text = some (codes, after)) :
    after.length < text.length := by
  obtain ⟨rfl, -⟩ := read?_eq_some_iff.mp read
  simp only [List.length_cons, List.length_append]
  omega

def removed (text : List Char) : List Char :=
  match text with
  | [] => []
  | character :: rest =>
      match _read : read? (character :: rest) with
      | some (_, after) => removed after
      | none => character :: removed rest
termination_by text.length
decreasing_by
  · exact length_of_read? (by assumption)
  · exact Nat.lt_succ_self _

/-- The codes in force after a sequence. -/
def inForceAfter (inForce codes : List (List Char)) : List (List Char) :=
  codes.foldl (fun inForce code => if code = ['0'] then [] else inForce ++ [code]) inForce

/-- The characters of a text as a terminal shows them, each with the codes in force. -/
def shown (inForce : List (List Char)) (text : List Char) : List (Char × List (List Char)) :=
  match text with
  | [] => []
  | character :: rest =>
      match _read : read? (character :: rest) with
      | some (codes, after) => shown (inForceAfter inForce (Lines.splitAt ';' codes)) after
      | none => (character, inForce) :: shown inForce rest
termination_by text.length
decreasing_by
  · exact length_of_read? (by assumption)
  · exact Nat.lt_succ_self _

variable {inForce : List (List Char)} {text rest codes after : List Char}

theorem shown_of_read? (read : read? text = some (codes, after)) :
    shown inForce text = shown (inForceAfter inForce (Lines.splitAt ';' codes)) after := by
  cases text with
  | nil => cases read
  | cons character others =>
      rw [shown]
      split
      · next found =>
          cases read.symm.trans found
          rfl
      · next missing => cases read.symm.trans missing

theorem shown_cons {character : Char} (noEscape : character ≠ '\x1b') :
    shown inForce (character :: rest) = (character, inForce) :: shown inForce rest := by
  rw [shown]
  split
  · next found =>
      obtain ⟨starts, -⟩ := read?_eq_some_iff.mp found
      exact absurd (List.cons.inj starts).1 noEscape
  · rfl

theorem shown_append (noEscape : '\x1b' ∉ text) :
    shown inForce (text ++ rest) = text.map (·, inForce) ++ shown inForce rest := by
  induction text with
  | nil => rfl
  | cons character text ih =>
      rw [List.mem_cons, not_or] at noEscape
      rw [List.cons_append, shown_cons (Ne.symm noEscape.1), ih noEscape.2]
      rfl

/-- A terminal shows the characters that are left when the control sequences are removed. -/
theorem map_fst_shown (inForce : List (List Char)) (text : List Char) :
    (shown inForce text).map Prod.fst = removed text := by
  induction text using removed.induct generalizing inForce with
  | case1 => rw [shown, removed, List.map_nil]
  | case2 character rest codes after read ih =>
      rw [shown_of_read? read, ih, removed]
      split
      · next found =>
          cases read.symm.trans found
          rfl
      · next missing => cases read.symm.trans missing
  | case3 character rest missing ih =>
      rw [shown, removed]
      split
      · next found => cases missing.symm.trans found
      · rw [List.map_cons, ih]

end JsonSieve.Sequences
