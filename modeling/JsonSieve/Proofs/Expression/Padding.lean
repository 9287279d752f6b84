import JsonSieve.Expression.Reader
import JsonSieve.Proofs.Json.Extent
import JsonSieve.Proofs.Text.Lines

/-!
# Filters with white space around them

A written filter is an array, so it starts with an opening bracket or with blanks, and ends with a
closing bracket or with blanks.  Trimming it as a text takes away just these blanks, although it
would take other white space away as well, and leaves the same filter.
-/

namespace JsonSieve.Expression

open Json.Reader (isBlank)

variable {source : String} {filter : Expression}

theorem exists_items_of_parse (accepted : parse (Utf8.encode source) = .ok filter) :
    ∃ items, Json.read? source = some (.array items) ∧
      ofValue (Json.Value.array items).settled = .ok filter := by
  rw [parse, Json.ofBytes?_encode] at accepted
  split at accepted
  · next value read =>
      cases value with
      | array items => exact ⟨items, read, accepted⟩
      | _ => cases accepted
  · cases accepted

/-- An accepted filter is an array in brackets with blanks around it, and without them it is the
same filter. -/
theorem exists_word_of_parse (accepted : parse (Utf8.encode source) = .ok filter) :
    ∃ before word after, source.toList = before ++ '[' :: word ++ after ∧
      (∀ character ∈ before, isBlank character) ∧ (∀ character ∈ after, isBlank character) ∧
      word.getLast? = some ']' ∧
      parse (Utf8.encode (String.ofList ('[' :: word))) = .ok filter := by
  obtain ⟨items, read, isFilter⟩ := exists_items_of_parse accepted
  obtain ⟨before, word, after, split, blankBefore, blankAfter, last, own⟩ :=
    Json.exists_word_of_array read
  refine ⟨before, word, after, split, blankBefore, blankAfter, last, ?_⟩
  have alone := @Json.read?_of_isRead _ [] word [] '[' own rfl (by simp) (by simp)
  rw [List.nil_append, List.append_nil] at alone
  rw [parse, Json.ofBytes?_encode, alone]
  exact isFilter

theorem isWhiteSpace_of_isBlank {character : Char} (blank : isBlank character) :
    Lines.isWhiteSpace character := by
  rcases Json.Reader.cases_of_isBlank blank with rfl | rfl | rfl | rfl <;> decide

/-- An accepted filter is the same one when it is trimmed, and something is left of it. -/
theorem parse_trim (accepted : parse (Utf8.encode source) = .ok filter) :
    Lines.trim Lines.isWhiteSpace source.toList ≠ [] ∧
      parse (Utf8.encode (String.ofList (Lines.trim Lines.isWhiteSpace source.toList))) =
        .ok filter := by
  obtain ⟨before, word, after, split, blankBefore, blankAfter, last, own⟩ :=
    exists_word_of_parse accepted
  have trimmed : Lines.trim Lines.isWhiteSpace source.toList = '[' :: word := by
    have nonempty : word ≠ [] := by
      rintro rfl
      cases last
    rw [split, Lines.trim_padded (fun _ member => isWhiteSpace_of_isBlank (blankBefore _ member))
      fun _ member => isWhiteSpace_of_isBlank (blankAfter _ member)]
    refine Lines.trim_eq_self (fun character isHead => ?_) fun character isLast => ?_
    · cases isHead
      decide
    · rw [List.getLast?_cons_of_ne_nil nonempty, last] at isLast
      cases isLast
      decide
  rw [trimmed]
  exact ⟨List.cons_ne_nil _ _, own⟩

theorem exists_cons_of_parse (accepted : parse (Utf8.encode source) = .ok filter) :
    ∃ first others, source.toList = first :: others ∧ (first = '[' ∨ isBlank first) := by
  obtain ⟨before, word, after, split, blankBefore, -, -, -⟩ := exists_word_of_parse accepted
  cases before with
  | nil => exact ⟨'[', word ++ after, split, Or.inl rfl⟩
  | cons first before =>
      exact ⟨first, before ++ '[' :: word ++ after, split,
        Or.inr (blankBefore first (List.mem_cons_self ..))⟩

end JsonSieve.Expression
