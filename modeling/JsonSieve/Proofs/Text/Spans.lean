import Mathlib.Data.List.TakeWhile

/-!
# The front of a list

What is taken from the front of a list while a condition holds is the word up to the first symbol,
if there is one, of which it does not hold.
-/

namespace JsonSieve.Spans

variable {Symbol : Type} {goesOn : Symbol → Bool} {input word rest : List Symbol}

theorem span_eq_iff :
    input.takeWhile goesOn = word ∧ input.dropWhile goesOn = rest ↔
      input = word ++ rest ∧ (∀ symbol ∈ word, goesOn symbol = true) ∧
        ∀ symbol ∈ rest.head?, goesOn symbol = false := by
  constructor
  · rintro ⟨rfl, rfl⟩
    refine ⟨List.takeWhile_append_dropWhile.symm, fun _ => List.mem_takeWhile_imp, ?_⟩
    intro symbol isHead
    have stopped := List.head?_dropWhile_not goesOn input
    rw [Option.mem_def.mp isHead] at stopped
    simpa using stopped
  · rintro ⟨rfl, inWord, stopped⟩
    rw [List.takeWhile_append_of_pos inWord, List.dropWhile_append_of_pos inWord]
    cases rest with
    | nil => exact ⟨List.append_nil word, rfl⟩
    | cons symbol rest =>
        have stop : goesOn symbol = false := stopped symbol rfl
        simp [stop]

end JsonSieve.Spans
