import JsonSieve.Proofs.Path.Following

/-!
# Spelled paths

The same steps can be spelled in several ways.  An index stands in brackets, and a key stands in
brackets and in quotes of a kind that it does not hold, or after a point.  At the beginning of a
path and after a bracket the point may be left out.  However they are spelled, steps are read back
one after the other, although keys may hold brackets, points and quotes: each form ends at a
character that a key of this form does not hold.
-/

namespace JsonSieve.Path

/-- A text spells these steps.  The first of them may be a key without a point, brackets and
quotes if the text stands at the beginning of a path or after a bracket. -/
inductive Spells : (mayBeBare : Bool) → List Step → String → Prop
  | nil {mayBeBare : Bool} : Spells mayBeBare [] ""
  | index {mayBeBare : Bool} {position : Nat} {steps : List Step} {rest : String} :
      position < Digits.wordBound → Spells true steps rest →
        Spells mayBeBare (.index position :: steps)
          ("[" ++ String.ofList (Digits.ofNat position) ++ "]" ++ rest)
  | singleQuoted {mayBeBare : Bool} {key : String} {steps : List Step} {rest : String} :
      '\x27' ∉ key.toList → Spells true steps rest →
        Spells mayBeBare (.key key :: steps) ("['" ++ key ++ "']" ++ rest)
  | doubleQuoted {mayBeBare : Bool} {key : String} {steps : List Step} {rest : String} :
      '"' ∉ key.toList → Spells true steps rest →
        Spells mayBeBare (.key key :: steps) ("[\"" ++ key ++ "\"]" ++ rest)
  | pointed {mayBeBare : Bool} {key : String} {steps : List Step} {rest : String} :
      IsBare key → Spells false steps rest →
        Spells mayBeBare (.key key :: steps) ("." ++ key ++ rest)
  | bare {key : String} {steps : List Step} {rest : String} :
      IsBare key → Spells false steps rest → Spells true (.key key :: steps) (key ++ rest)

/-- The value to which a step leads: that of the first member with a key, or the element at an
index. -/
inductive Selects : Json.Value → Step → Json.Value → Prop
  | member {key : String} {value : Json.Value} {before after : List (String × Json.Value)} :
      (∀ other ∈ before, other.1 ≠ key) →
        Selects (.object (before ++ (key, value) :: after)) (.key key) value
  | element {position : Nat} {item : Json.Value} {items : List Json.Value} :
      items[position]? = some item → Selects (.array items) (.index position) item

inductive Leads : Json.Value → List Step → Json.Value → Prop
  | nil (value : Json.Value) : Leads value [] value
  | cons {value child target : Json.Value} {step : Step} {steps : List Step} :
      Selects value step child → Leads child steps target → Leads value (step :: steps) target

variable {value child target : Json.Value}
variable {mayBeBare : Bool} {step : Step} {steps : List Step} {path : String}

theorem Spells.endsBareKey (spelled : Spells false steps path) : EndsBareKey path.toList := by
  intro character first
  cases spelled with
  | nil => simp at first
  | index | singleQuoted | doubleQuoted =>
      obtain rfl : '[' = character := by simpa using first
      rfl
  | pointed =>
      obtain rfl : '.' = character := by simpa using first
      rfl

theorem Spells.exists_readStep (spelled : Spells mayBeBare (step :: steps) path) :
    ∃ others rest, readStep? path.toList = some (step, rest.toList) ∧
      Spells others steps rest := by
  cases spelled with
  | @index _ position _ rest small later =>
      refine ⟨true, rest, ?_, later⟩
      simpa using readStep?_index small rest.toList
  | @singleQuoted _ key _ rest unquoted later =>
      refine ⟨true, rest, readStep?_of_startsWith ?_, later⟩
      simpa using StartsWith.quoted (Or.inl rfl) unquoted
  | @doubleQuoted _ key _ rest unquoted later =>
      refine ⟨true, rest, readStep?_of_startsWith ?_, later⟩
      simpa using StartsWith.quoted (Or.inr rfl) unquoted
  | @pointed _ key _ rest isBare later =>
      refine ⟨false, rest, readStep?_of_startsWith ?_, later⟩
      simpa using StartsWith.pointed isBare later.endsBareKey
  | @bare key _ rest isBare later =>
      refine ⟨false, rest, readStep?_of_startsWith ?_, later⟩
      simpa using StartsWith.bare isBare later.endsBareKey

def lookUp? (value : Json.Value) (steps : List Step) : Option Json.Value :=
  steps.foldlM child? value

theorem child?_eq_some_iff : child? value step = some child ↔ Selects value step child := by
  constructor
  · intro found
    unfold child? at found
    split at found
    · next members key =>
        obtain ⟨⟨name, value⟩, isFirst, rfl⟩ := Option.map_eq_some_iff.mp found
        obtain ⟨isKey, before, after, rfl, others⟩ := List.find?_eq_some_iff_append.mp isFirst
        obtain rfl : name = key := by simpa using isKey
        exact .member fun other member => by simpa using others other member
    · exact .element found
    · cases found
  · intro selects
    cases selects with
    | member others =>
        apply Option.map_eq_some_iff.mpr
        refine ⟨(_, child), List.find?_eq_some_iff_append.mpr ⟨by simp, _, _, rfl, ?_⟩, rfl⟩
        intro other member
        simpa using others other member
    | element found => exact found

theorem lookUp?_eq_some_iff : lookUp? value steps = some target ↔ Leads value steps target := by
  induction steps generalizing value with
  | nil =>
      constructor
      · intro arrived
        cases arrived
        exact .nil _
      · intro leads
        cases leads
        rfl
  | cons step steps ih =>
      rw [lookUp?, List.foldlM_cons, Option.bind_eq_bind, Option.bind_eq_some_iff]
      constructor
      · rintro ⟨child, found, later⟩
        exact .cons (child?_eq_some_iff.mp found) (ih.mp later)
      · rintro (_ | ⟨selects, later⟩)
        exact ⟨_, child?_eq_some_iff.mpr selects, ih.mpr later⟩

/-- A spelled path is followed by looking up its steps. -/
theorem follow_spelled (whole : String) (value : Json.Value)
    (spelled : Spells mayBeBare steps path) :
    follow whole value path.toList =
      match lookUp? value steps with
      | some target => .ok target
      | none => .error (.missing whole) := by
  induction steps generalizing value path mayBeBare with
  | nil =>
      cases spelled
      exact follow_nil whole value
  | cons step steps ih =>
      obtain ⟨others, rest, read, later⟩ := spelled.exists_readStep
      rw [follow_of_readStep read, lookUp?, List.foldlM_cons]
      cases child? value step with
      | none => rfl
      | some child => exact ih child later

/-- However steps are spelled, the path leads to a value, be it null, exactly if the steps do one
after the other.  Otherwise it is reported as missing, and never as malformed. -/
theorem spelled_path_selects (value : Json.Value) (spelled : Spells true steps path) :
    (∀ target, resolve value path = .ok target ↔ Leads value steps target) ∧
      (resolve value path = .error (.missing path) ↔ ∀ target, ¬Leads value steps target) ∧
      ∀ rest, resolve value path ≠ .error (.malformed rest) := by
  simp only [resolve, follow_spelled path value spelled, ← lookUp?_eq_some_iff]
  cases lookUp? value steps <;> simp

/-- A key with a point in quotes, an index, a bare key with a quote and a key after a point. -/
theorem spelled_path_selects_null :
    let document := Json.Value.object
      [("a.b", .array [.object [("it's", .object [("c", .null)])]])]
    Spells true [.key "a.b", .index 0, .key "it's", .key "c"] "['a.b'][0]it's.c" ∧
      resolve document "['a.b'][0]it's.c" = .ok .null := by
  intro document
  have c : Spells false [.key "c"] ".c" := .pointed ⟨by decide, by decide, by decide⟩ .nil
  have its : Spells true [.key "it's", .key "c"] "it's.c" :=
    .bare ⟨by decide, by decide, by decide⟩ c
  have first : Spells true [.index 0, .key "it's", .key "c"] "[0]it's.c" :=
    .index (by decide) its
  have spelled : Spells true [.key "a.b", .index 0, .key "it's", .key "c"] "['a.b'][0]it's.c" :=
    .singleQuoted (by decide) first
  refine ⟨spelled, ((spelled_path_selects document spelled).1 .null).mpr ?_⟩
  exact lookUp?_eq_some_iff.mp rfl

end JsonSieve.Path
