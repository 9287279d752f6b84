import JsonSieve.Text.Lines
import Mathlib.Data.List.DropRight

/-!
# The pieces of a text

A separator splits a text into what stands before it and what stands after it, and the pieces of
the whole are the pieces of both.  So a text that is written as trimmed pieces, with a line feed
after each, has these as its trimmed pieces again.
-/

namespace JsonSieve.Lines

variable {Symbol : Type}

section Splitting

variable [DecidableEq Symbol]

theorem splitAt_eq_splitOn (separator : Symbol) (symbols : List Symbol) :
    splitAt separator symbols = symbols.splitOn separator := by
  induction symbols with
  | nil => rfl
  | cons symbol symbols ih =>
      rw [splitAt, List.splitOn_cons_eq_if_modifyHead, ih]
      simp only [beq_iff_eq]
      split
      · rfl
      · split
        · next empty => exact absurd empty (List.splitOn_ne_nil separator symbols)
        · next pieces => rw [pieces, List.modifyHead_cons]

theorem splitAt_append (separator : Symbol) (before after : List Symbol) :
    splitAt separator (before ++ separator :: after) =
      splitAt separator before ++ splitAt separator after := by
  simp only [splitAt_eq_splitOn, List.splitOn_append_cons_self]

theorem splitAt_of_not_mem {separator : Symbol} {symbols : List Symbol}
    (absent : separator ∉ symbols) : splitAt separator symbols = [symbols] := by
  rw [splitAt_eq_splitOn, List.splitOn_eq_singleton absent]

theorem not_mem_of_mem_splitAt {separator : Symbol} {symbols piece : List Symbol}
    (member : piece ∈ splitAt separator symbols) : separator ∉ piece := by
  induction symbols generalizing piece with
  | nil =>
      rw [List.mem_singleton.mp member]
      exact List.not_mem_nil
  | cons symbol symbols ih =>
      rw [splitAt] at member
      split at member
      · rcases List.mem_cons.mp member with rfl | member
        · exact List.not_mem_nil
        · exact ih member
      · next other =>
          split at member
          · rw [List.mem_singleton.mp member, List.mem_singleton]
            exact Ne.symm other
          · next first pieces split =>
              rw [split] at ih
              rcases List.mem_cons.mp member with rfl | member
              · rw [List.mem_cons, not_or]
                exact ⟨Ne.symm other, ih List.mem_cons_self⟩
              · exact ih (List.mem_cons_of_mem _ member)

/-- If a separator ends each of some pieces that hold none, it splits them off again. -/
theorem splitAt_flatMap {separator : Symbol} {pieces : List (List Symbol)}
    (each : ∀ piece ∈ pieces, separator ∉ piece) :
    splitAt separator (pieces.flatMap (fun piece => piece ++ [separator])) = pieces ++ [[]] := by
  induction pieces with
  | nil => rfl
  | cons piece pieces ih =>
      rw [List.forall_mem_cons] at each
      rw [List.flatMap_cons, List.append_assoc, List.singleton_append, splitAt_append,
        splitAt_of_not_mem each.1, ih each.2]
      rfl

end Splitting

section Trimming

variable (isBlank : Symbol → Bool) (symbols : List Symbol)

theorem trim_eq_rdropWhile :
    trim isBlank symbols = (symbols.dropWhile isBlank).rdropWhile isBlank :=
  rfl

theorem trim_sublist : (trim isBlank symbols).Sublist symbols :=
  (List.rdropWhile_prefix isBlank _).sublist.trans (List.dropWhile_sublist isBlank)

theorem dropWhile_trim : (trim isBlank symbols).dropWhile isBlank = trim isBlank symbols := by
  obtain ⟨dropped, whole⟩ := List.rdropWhile_prefix isBlank (symbols.dropWhile isBlank)
  rw [← trim_eq_rdropWhile] at whole
  cases start : trim isBlank symbols with
  | nil => rfl
  | cons first others =>
      rw [start] at whole
      have remains : symbols.dropWhile isBlank ≠ [] := by simp [← whole]
      have firstNotBlank := List.head_dropWhile_not isBlank remains
      simp only [← whole, List.cons_append, List.head_cons] at firstNotBlank
      rw [List.dropWhile_cons_of_neg (by simp [firstNotBlank])]

theorem trim_trim : trim isBlank (trim isBlank symbols) = trim isBlank symbols := by
  rw [trim_eq_rdropWhile isBlank (trim isBlank symbols), dropWhile_trim]
  exact List.rdropWhile_idempotent isBlank _

variable {isBlank symbols} {before after : List Symbol}

theorem rdropWhile_append (blank : ∀ symbol ∈ after, isBlank symbol) :
    (symbols ++ after).rdropWhile isBlank = symbols.rdropWhile isBlank := by
  rw [List.rdropWhile, List.reverse_append,
    List.dropWhile_append_of_pos fun symbol member => blank symbol (List.mem_reverse.mp member)]
  rfl

theorem trim_padded (blankBefore : ∀ symbol ∈ before, isBlank symbol)
    (blankAfter : ∀ symbol ∈ after, isBlank symbol) :
    trim isBlank (before ++ symbols ++ after) = trim isBlank symbols := by
  rw [trim_eq_rdropWhile, trim_eq_rdropWhile, List.append_assoc,
    List.dropWhile_append_of_pos blankBefore, List.dropWhile_append]
  split
  · next empty =>
      rw [List.dropWhile_eq_nil_iff.mpr blankAfter, List.isEmpty_iff.mp empty]
  · exact rdropWhile_append blankAfter

theorem trim_eq_self (starts : ∀ symbol ∈ symbols.head?, isBlank symbol = false)
    (ends : ∀ symbol ∈ symbols.getLast?, isBlank symbol = false) :
    trim isBlank symbols = symbols := by
  have kept : symbols.dropWhile isBlank = symbols := by
    cases symbols with
    | nil => rfl
    | cons first others => exact List.dropWhile_cons_of_neg (by simp [starts first rfl])
  rw [trim_eq_rdropWhile, kept, List.rdropWhile_eq_self_iff]
  intro nonempty
  simp [ends _ (List.getLast?_eq_some_getLast nonempty)]

end Trimming

variable [DecidableEq Symbol] {lineFeed : Symbol} {isBlank : Symbol → Bool}

structure IsTrimmedPiece (lineFeed : Symbol) (isBlank : Symbol → Bool) (piece : List Symbol) :
    Prop where
  nonempty : piece ≠ []
  unbroken : lineFeed ∉ piece
  trimmed : trim isBlank piece = piece

theorem isTrimmedPiece_of_mem {symbols piece : List Symbol}
    (member : piece ∈ trimmedPieces lineFeed isBlank symbols) :
    IsTrimmedPiece lineFeed isBlank piece := by
  obtain ⟨member, nonempty⟩ := List.mem_filter.mp member
  obtain ⟨untrimmed, split, rfl⟩ := List.mem_map.mp member
  refine ⟨by simpa using nonempty, fun broken => ?_, trim_trim isBlank untrimmed⟩
  exact not_mem_of_mem_splitAt split ((trim_sublist isBlank untrimmed).mem broken)

theorem trimmedPieces_append (before after : List Symbol) :
    trimmedPieces lineFeed isBlank (before ++ lineFeed :: after) =
      trimmedPieces lineFeed isBlank before ++ trimmedPieces lineFeed isBlank after := by
  rw [trimmedPieces, splitAt_append, List.map_append, List.filter_append]
  rfl

/-- Trimmed pieces with a line feed after each are the trimmed pieces of what they make. -/
theorem trimmedPieces_flatMap {pieces : List (List Symbol)}
    (each : ∀ piece ∈ pieces, IsTrimmedPiece lineFeed isBlank piece) :
    trimmedPieces lineFeed isBlank (pieces.flatMap (fun piece => piece ++ [lineFeed])) =
      pieces := by
  have trimmed : pieces.map (trim isBlank) = pieces :=
    (List.map_congr_left fun piece member => (each piece member).trimmed).trans
      (List.map_id pieces)
  rw [trimmedPieces, splitAt_flatMap fun piece member => (each piece member).unbroken,
    List.map_append, trimmed, List.filter_append]
  have kept : pieces.filter (fun piece => !piece.isEmpty) = pieces :=
    List.filter_eq_self.mpr fun piece member => by simpa using (each piece member).nonempty
  rw [kept]
  exact List.append_nil pieces

end JsonSieve.Lines
