import JsonSieve.Proofs.Path.Spelling

/-!
# Members that paths address

Nothing is escaped in a path.  A key in quotes ends at the next quote of the same kind, and a key
without quotes at the next point or opening bracket, so whatever the text of a path, a key read
from it lacks one of these.  A key that holds both kinds of quotes and a point or an opening bracket
is read from no path, and every other key has a spelling.
-/

namespace JsonSieve.Path

/-- A key lacks one of the two kinds of quotes, or all that ends a bare key. -/
def LacksStop (key : String) : Prop :=
  '\x27' ∉ key.toList ∨ '"' ∉ key.toList ∨ '.' ∉ key.toList ∧ '[' ∉ key.toList

variable {key : String} {input rest : List Char}

theorem lacksStop_of_readStep? (read : readStep? input = some (.key key, rest)) :
    LacksStop key := by
  cases readStep?_eq_some_iff.mp read with
  | quoted isQuote unquoted =>
      rcases isQuote with rfl | rfl
      · exact Or.inl unquoted
      · exact Or.inr (Or.inl unquoted)
  | pointed isBare ends => exact Or.inr (Or.inr ⟨isBare.noPoint, isBare.noBracket⟩)
  | bare isBare ends => exact Or.inr (Or.inr ⟨isBare.noPoint, isBare.noBracket⟩)

theorem LacksStop.exists_spells (lacks : LacksStop key) : ∃ path, Spells true [.key key] path := by
  by_cases quoted : '\x27' ∈ key.toList
  · rcases lacks with unquoted | unquoted | ⟨noPoint, noBracket⟩
    · exact absurd quoted unquoted
    · exact ⟨_, .doubleQuoted unquoted .nil⟩
    · -- The key is not empty, since it holds a quote.
      have nonempty : key ≠ "" := by
        rintro rfl
        simp at quoted
      exact ⟨_, .bare ⟨nonempty, noPoint, noBracket⟩ .nil⟩
  · exact ⟨_, .singleQuoted quoted .nil⟩

theorem ne_of_only_member (key : String) (value : Json.Value) :
    .object [(key, value)] ≠ value := by
  intro same
  have sizes := congrArg sizeOf same
  simp only [Json.Value.object.sizeOf_spec, List.cons.sizeOf_spec, Prod.mk.sizeOf_spec] at sizes
  omega

theorem child?_only_member (key : String) (value : Json.Value) (step : Step) :
    child? (.object [(key, value)]) step = if step = .key key then some value else none := by
  cases step with
  | key name =>
      by_cases same : key = name
      · simp [child?, Json.Value.member?, same]
      · simp [child?, Json.Value.member?, same, Ne.symm same]
  | index position => rfl

theorem lacksStop_of_resolve {value : Json.Value} {path : String}
    (found : resolve (.object [(key, value)]) path = .ok value) : LacksStop key := by
  by_cases empty : path.toList = []
  · rw [resolve, empty, follow_nil] at found
    exact absurd (Except.ok.inj found) (ne_of_only_member key value)
  · cases read : readStep? path.toList with
    | none =>
        rw [resolve, follow_of_unreadable empty read] at found
        cases found
    | some stepAndRest =>
        obtain ⟨step, rest⟩ := stepAndRest
        rw [resolve, follow_of_readStep read, child?_only_member] at found
        by_cases isKey : step = .key key
        · rw [isKey] at read
          exact lacksStop_of_readStep? read
        · rw [if_neg isKey] at found
          cases found

/-- Some path leads to the only member of an object exactly if its key does not hold a single quote,
a double quote and a point or an opening bracket, all at once. -/
theorem addressable_iff (key : String) (value : Json.Value) :
    (∃ path, resolve (.object [(key, value)]) path = .ok value) ↔
      ¬('\x27' ∈ key.toList ∧ '"' ∈ key.toList ∧ ('.' ∈ key.toList ∨ '[' ∈ key.toList)) := by
  rw [not_and_or, not_and_or, not_or]
  constructor
  · rintro ⟨path, found⟩
    exact lacksStop_of_resolve found
  · intro lacks
    obtain ⟨path, spelled⟩ := LacksStop.exists_spells lacks
    have selected : lookUp? (.object [(key, value)]) [.key key] = some value := by
      simp [lookUp?, child?_only_member]
    refine ⟨path, ?_⟩
    rw [resolve, follow_spelled path _ spelled, selected]

end JsonSieve.Path
