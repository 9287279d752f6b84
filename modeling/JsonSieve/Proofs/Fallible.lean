import Mathlib.Data.List.Forall2

/-!
# Computations that can fail

A sequence of computations succeeds with the values of all of them or fails with the error of the
first that fails.
-/

namespace JsonSieve.Fallible

variable {Error Value Result : Type}

theorem bind_eq_ok_iff {first : Except Error Value} {next : Value → Except Error Result}
    {result : Result} :
    first >>= next = .ok result ↔ ∃ value, first = .ok value ∧ next value = .ok result := by
  cases first with
  | error error => simp [bind, Except.bind]
  | ok value => simp [bind, Except.bind]

theorem bind_eq_error_iff {first : Except Error Value} {next : Value → Except Error Result}
    {error : Error} :
    first >>= next = .error error ↔
      first = .error error ∨ ∃ value, first = .ok value ∧ next value = .error error := by
  cases first with
  | error error => simp [bind, Except.bind]
  | ok value => simp [bind, Except.bind]

theorem mapError_bind {Other : Type} (view : Error → Other) (first : Except Error Value)
    (next : Value → Except Error Result) :
    (first >>= next).mapError view =
      first.mapError view >>= fun value => (next value).mapError view := by
  cases first <;> rfl

theorem mapError_map {Other : Type} (view : Error → Other) (change : Value → Result)
    (computed : Except Error Value) :
    (computed.map change).mapError view = (computed.mapError view).map change := by
  cases computed <;> rfl

theorem mapError_id (computed : Except Error Value) : computed.mapError id = computed := by
  cases computed <;> rfl

/-- Computations in a row succeed exactly with the values of each of them. -/
theorem mapM_eq_ok_iff {compute : Value → Except Error Result} {values : List Value}
    {results : List Result} :
    values.mapM compute = .ok results ↔
      List.Forall₂ (fun value result => compute value = .ok result) values results := by
  induction values generalizing results with
  | nil =>
      constructor
      · intro computed
        cases computed
        exact .nil
      · intro each
        cases each
        rfl
  | cons value values ih =>
      rw [List.mapM_cons]
      constructor
      · intro computed
        obtain ⟨result, first, computed⟩ := bind_eq_ok_iff.mp computed
        obtain ⟨others, rest, computed⟩ := bind_eq_ok_iff.mp computed
        cases computed
        exact .cons first (ih.mp rest)
      · intro each
        cases each with
        | cons first rest =>
            exact bind_eq_ok_iff.mpr ⟨_, first, bind_eq_ok_iff.mpr ⟨_, ih.mpr rest, rfl⟩⟩

/-- Computations in a row fail exactly with the error of the first one that fails. -/
theorem mapM_eq_error_iff {compute : Value → Except Error Result} {values : List Value}
    {error : Error} :
    values.mapM compute = .error error ↔
      ∃ before value after, values = before ++ value :: after ∧
        (∀ earlier ∈ before, ∃ result, compute earlier = .ok result) ∧
          compute value = .error error := by
  induction values with
  | nil => simp [pure, Except.pure]
  | cons value values ih =>
      rw [List.mapM_cons, bind_eq_error_iff]
      constructor
      · rintro (failed | ⟨result, first, failed⟩)
        · exact ⟨[], value, values, rfl, by simp, failed⟩
        · rcases bind_eq_error_iff.mp failed with failed | ⟨others, rest, impossible⟩
          · obtain ⟨before, failing, after, rfl, sound, failed⟩ := ih.mp failed
            refine ⟨value :: before, failing, after, rfl, ?_, failed⟩
            intro earlier member
            rcases List.mem_cons.mp member with rfl | member
            · exact ⟨result, first⟩
            · exact sound earlier member
          · cases impossible
      · rintro ⟨before, failing, after, split, sound, failed⟩
        cases before with
        | nil =>
            cases split
            exact Or.inl failed
        | cons earlier before =>
            obtain ⟨rfl, rfl⟩ := List.cons.inj split
            obtain ⟨result, first⟩ := sound value (by simp)
            have rest := ih.mpr ⟨before, failing, after, rfl,
              fun other member => sound other (by simp [member]), failed⟩
            exact Or.inr ⟨result, first, bind_eq_error_iff.mpr (Or.inl rest)⟩

end JsonSieve.Fallible
