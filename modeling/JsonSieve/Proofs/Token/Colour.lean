import JsonSieve.Proofs.Text.Sequences
import JsonSieve.Proofs.Token.ListedLines

/-!
# Listings in colour

A coloured listing shows the characters of the plain one, each column of a line in its look and what
stands between the columns in none.  This is for inputs without an escape character: the text of a
token is not changed, so that an escape in it reaches the terminal.
-/

namespace JsonSieve.Token

open Lexer Sequences

variable {text rest : List Char}

/-- A look is put on by one control sequence, whose codes are those of the look. -/
theorem read?_opening (look : Look) (rest : List Char) :
    read? (look.opening ++ rest) = some (List.intercalate [';'] look.codes, rest) := by
  have each : (List.intercalate [';'] look.codes).all inCodes := by
    obtain ⟨bold, dimmed, colour⟩ := look
    cases bold <;> cases dimmed <;> rcases colour with _ | (_ | _ | _ | _) <;> decide
  refine read?_eq_some_iff.mpr ⟨?_, List.all_eq_true.mp each⟩
  simp [Look.opening]

theorem inForceAfter_codes {look : Look} (some : look.codes ≠ []) :
    inForceAfter [] (Lines.splitAt ';' (List.intercalate [';'] look.codes)) = look.codes := by
  obtain ⟨bold, dimmed, colour⟩ := look
  cases bold <;> cases dimmed <;> rcases colour with _ | (_ | _ | _ | _) <;>
    first | rfl | exact absurd rfl some

theorem shown_closing (inForce : List (List Char)) (rest : List Char) :
    shown inForce (closing ++ rest) = shown [] rest := by
  have read : read? (closing ++ rest) = some (['0'], rest) :=
    read?_eq_some_iff.mpr ⟨rfl, List.forall_mem_singleton.mpr rfl⟩
  exact shown_of_read? read

theorem reopened_eq_self (opening : List Char) (noEscape : '\x1b' ∉ text) :
    reopened opening text = text := by
  induction text with
  | nil => rfl
  | cons character text ih =>
      rw [List.mem_cons, not_or] at noEscape
      rw [reopened, ih noEscape.2]
      rintro others rfl
      exact absurd rfl noEscape.1

theorem apply_eq (look : Look) (noEscape : '\x1b' ∉ text) :
    look.apply text = look.opening ++ text ++ closing := by
  rw [Look.apply, reopened_eq_self _ noEscape]

/-- The characters of a text in some look are shown with its codes, and behind them none is in
force. -/
theorem shown_apply {look : Look} (some : look.codes ≠ []) (noEscape : '\x1b' ∉ text) :
    shown [] (look.apply text ++ rest) = text.map (·, look.codes) ++ shown [] rest := by
  rw [apply_eq look noEscape, List.append_assoc, List.append_assoc,
    shown_of_read? (read?_opening look _), inForceAfter_codes some, shown_append noEscape,
    shown_closing]

theorem escape_notMem_text {token : Token} (noEscape : 0x1b ∉ token.raw) :
    '\x1b' ∉ token.text.toList := by
  have count : token.text.toList.count '\x1b' = token.raw.count 0x1b :=
    Utf8.count_lossy (show (0x1b : UInt8) < 0x80 by decide) token.raw
  rw [← List.count_eq_zero, count, List.count_eq_zero]
  exact noEscape

theorem codes_look_ne_nil (kind : Kind) :
    kind.look.codes ≠ [] ∧ kind.look.inBold.codes ≠ [] := by
  cases kind <;> exact ⟨List.cons_ne_nil _ _, List.cons_ne_nil _ _⟩

/-- A line as a terminal is to show it: each column in its look, and blanks in none between them. -/
def lineInLooks (offset : Nat) (token : Token) : List (Char × List (List Char)) :=
  (offsetColumn offset).map (·, offsetLook.codes) ++
    (' ', []) :: token.kind.label.toList.map (·, token.kind.look.inBold.codes) ++
    (' ', []) :: token.text.toList.map (·, token.kind.look.codes) ++ [('\n', [])]

theorem map_fst_lineInLooks (offset : Nat) (token : Token) :
    (lineInLooks offset token).map Prod.fst = plainLine offset token := by
  simp [lineInLooks, plainLine, List.map_map, Function.comp_def]

theorem shown_colouredLine {token : Token} (noEscape : 0x1b ∉ token.raw) (offset : Nat)
    (rest : List Char) :
    shown [] (colouredLine offset token ++ rest) = lineInLooks offset token ++ shown [] rest := by
  obtain ⟨some, someInBold⟩ := codes_look_ne_nil token.kind
  have column : '\x1b' ∉ _ := (noControls_offsetColumn offset).notMem (by decide)
  have label : '\x1b' ∉ _ := (noControls_label token.kind).notMem (by decide)
  have text := escape_notMem_text noEscape
  simp only [colouredLine, lineInLooks, List.append_assoc, List.cons_append, List.nil_append]
  rw [shown_apply (by decide) column, shown_cons (by decide), shown_apply someInBold label,
    shown_cons (by decide), shown_apply some text, shown_cons (by decide)]

theorem shown_colouredLines {located : List (Nat × Token)}
    (noEscape : ∀ entry ∈ located, 0x1b ∉ entry.2.raw) :
    shown [] (located.flatMap fun (offset, token) => colouredLine offset token) =
      located.flatMap fun (offset, token) => lineInLooks offset token := by
  induction located with
  | nil => rw [List.flatMap_nil, List.flatMap_nil, shown]
  | cons entry located ih =>
      rw [List.forall_mem_cons] at noEscape
      rw [List.flatMap_cons, List.flatMap_cons, shown_colouredLine noEscape.1, ih noEscape.2]

/-- Without its control sequences a coloured listing is the plain one.  A terminal shows each column
in its look and what stands between the columns in none. -/
theorem coloured_listing_shows_plain {input : Bytes} (noEscape : 0x1b ∉ input) :
    let located := locatedTokens input
    let output := (Listing.coloured.of input).toList
    removed output = (Listing.plain.of input).toList ∧
    (shown [] output = located.flatMap fun (offset, token) =>
      (offsetColumn offset).map (·, offsetLook.codes) ++
        (' ', []) :: token.kind.label.toList.map (·, token.kind.look.inBold.codes) ++
        (' ', []) :: token.text.toList.map (·, token.kind.look.codes) ++ [('\n', [])]) ∧
    output = located.flatMap fun (offset, token) =>
      offsetLook.opening ++ offsetColumn offset ++ closing ++
        ' ' :: (token.kind.look.inBold.opening ++ token.kind.label.toList ++ closing) ++
        ' ' :: (token.kind.look.opening ++ token.text.toList ++ closing) ++ ['\n'] := by
  intro located output
  have inToken : ∀ entry ∈ located, 0x1b ∉ entry.2.raw := by
    intro entry member escape
    obtain ⟨before, after, split, -⟩ := occurs_of_mem member
    exact noEscape (by simp [split, escape])
  have isOutput : output = located.flatMap fun (offset, token) => colouredLine offset token :=
    String.toList_ofList
  have inLooks := shown_colouredLines inToken
  rw [← isOutput] at inLooks
  refine ⟨?_, inLooks, ?_⟩
  · rw [← map_fst_shown [], inLooks, List.map_flatMap]
    exact (List.flatMap_congr fun (offset, token) _ => map_fst_lineInLooks offset token).trans
      String.toList_ofList.symm
  · rw [isOutput]
    refine List.flatMap_congr fun (offset, token) member => ?_
    have column : '\x1b' ∉ _ := (noControls_offsetColumn offset).notMem (by decide)
    have label : '\x1b' ∉ _ := (noControls_label token.kind).notMem (by decide)
    have text := escape_notMem_text (inToken (offset, token) member)
    simp only [colouredLine, apply_eq _ column, apply_eq _ label, apply_eq _ text]

/-- A string whose text looks like the end of a control sequence, and a word in bold. -/
def misleadingString : Bytes := Utf8.encode "[\"[0m\", true]"

theorem coloured_listing_of_misleadingString :
    let listing := "       0 array-start [\n       1 string \"[0m\"\n       6 list-delim ,\n" ++
      "       8 true true\n      12 array-end ]\n"
    0x1b ∉ misleadingString ∧
      removed (Listing.coloured.of misleadingString).toList = listing.toList := by
  intro listing
  have noEscape : 0x1b ∉ misleadingString := by decide
  have plain : Listing.plain.of misleadingString = listing := by decide +kernel
  exact ⟨noEscape, plain ▸ (coloured_listing_shows_plain noEscape).1⟩

end JsonSieve.Token
