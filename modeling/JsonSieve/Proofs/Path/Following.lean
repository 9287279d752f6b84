import JsonSieve.Proofs.Fallible
import JsonSieve.Proofs.Path.Step

/-!
# Following paths

A path is split and followed step by step.  Text that begins with a point or an opening bracket does
not change how a path before it is read, and after a step in brackets no text does.  So paths
compose: text after a path is followed from where the path leads.  An index in brackets after a path
to an array leads to an element of it.
-/

namespace JsonSieve

namespace Path

variable {input rest after : List Char} {step : Step} {whole : String} {value : Json.Value}

@[simp]
theorem follow_nil (whole : String) (value : Json.Value) : follow whole value [] = .ok value := by
  rw [follow]

theorem follow_of_unreadable (nonempty : input ≠ []) (unreadable : readStep? input = none) :
    follow whole value input = .error (.malformed (String.ofList input)) := by
  obtain ⟨character, characters, rfl⟩ := List.exists_cons_of_ne_nil nonempty
  rw [follow]
  split
  · rfl
  · next read => cases unreadable.symm.trans read

theorem follow_of_readStep (read : readStep? input = some (step, rest)) :
    follow whole value input =
      match child? value step with
      | none => .error (.missing whole)
      | some child => follow whole child rest := by
  cases input with
  | nil => cases read
  | cons character characters =>
      rw [follow]
      split
      · next unreadable => cases read.symm.trans unreadable
      · next otherStep otherRest again =>
          cases read.symm.trans again
          cases child? value step <;> rfl

/-- A path is followed by reading its steps one after the other. -/
theorem follow_induction {motive : Json.Value → List Char → Prop}
    (arrived : ∀ value, motive value [])
    (unreadable : ∀ value input, input ≠ [] → readStep? input = none → motive value input)
    (astray : ∀ value input step rest, readStep? input = some (step, rest) →
      child? value step = none → motive value input)
    (onward : ∀ value input step rest child, readStep? input = some (step, rest) →
      child? value step = some child → motive child rest → motive value input)
    (value : Json.Value) (input : List Char) : motive value input := by
  induction remaining : input.length using Nat.strongRecOn generalizing value input with
  | ind length ih =>
      cases input with
      | nil => exact arrived value
      | cons character characters =>
          cases read : readStep? (character :: characters) with
          | none => exact unreadable value _ (List.cons_ne_nil _ _) read
          | some stepAndRest =>
              obtain ⟨step, rest⟩ := stepAndRest
              cases found : child? value step with
              | none => exact astray value _ step rest read found
              | some child =>
                  have shorter := length_of_readStep? read
                  exact onward value _ step rest child read found
                    (ih rest.length (by omega) child rest rfl)

inductive EndsInBracket : List Char → Prop
  | last {input : List Char} {step : Step} :
      readStep? ('[' :: input) = some (step, []) → EndsInBracket ('[' :: input)
  | further {input rest : List Char} {step : Step} :
      readStep? input = some (step, rest) → EndsInBracket rest → EndsInBracket input

/-- Text that is not taken for a part of the path before it. -/
def SetApart (input after : List Char) : Prop :=
  EndsBareKey after ∨ input = [] ∨ EndsInBracket input

theorem EndsInBracket.ne_nil (bracket : EndsInBracket input) : input ≠ [] := by
  rintro rfl
  cases bracket with
  | further read => cases read

theorem SetApart.readStep (apart : SetApart input after)
    (read : readStep? input = some (step, rest)) :
    readStep? (input ++ after) = some (step, rest ++ after) ∧ SetApart rest after := by
  rcases apart with ends | rfl | bracket
  · exact ⟨readStep?_append read fun _ => Or.inl ends, Or.inl ends⟩
  · cases read
  · cases bracket with
    | last closed =>
        cases closed.symm.trans read
        exact ⟨readStep?_append read fun _ => Or.inr rfl, Or.inr (Or.inl rfl)⟩
    | further first bracket =>
        cases first.symm.trans read
        have more := bracket.ne_nil
        exact ⟨readStep?_append read fun nothing => absurd nothing more, Or.inr (Or.inr bracket)⟩

/-- Text set apart from a path is followed from where the path leads. -/
theorem follow_append (apart : SetApart input after)
    (readable : ∀ text, follow whole value input ≠ .error (.malformed text)) :
    follow whole value (input ++ after) =
      follow whole value input >>= fun target => follow whole target after := by
  induction value, input using follow_induction with
  | arrived value =>
      rw [follow_nil]
      rfl
  | unreadable value input nonempty unreadable =>
      exact absurd (follow_of_unreadable nonempty unreadable) (readable _)
  | astray value input step rest read noChild =>
      obtain ⟨longer, -⟩ := apart.readStep read
      rw [follow_of_readStep longer, follow_of_readStep read, noChild]
      rfl
  | onward value input step rest child read found ih =>
      obtain ⟨longer, later⟩ := apart.readStep read
      simp only [follow_of_readStep read, found] at readable
      rw [follow_of_readStep longer, follow_of_readStep read, found]
      exact ih later readable

def Error.withPath (path : String) : Error → Error
  | .missing _ => .missing path
  | .malformed rest => .malformed rest

def Error.withoutPath : Error → Error
  | .missing _ => .missing ""
  | .malformed rest => .malformed rest

/-- Where a path leads does not depend on the path that an error would show. -/
theorem follow_withPath (whole other : String) (value : Json.Value) (input : List Char) :
    (follow other value input).mapError (Error.withPath whole) = follow whole value input := by
  induction value, input using follow_induction with
  | arrived value =>
      rw [follow_nil, follow_nil]
      rfl
  | unreadable value input nonempty unreadable =>
      rw [follow_of_unreadable nonempty unreadable, follow_of_unreadable nonempty unreadable]
      rfl
  | astray value input step rest read noChild =>
      rw [follow_of_readStep read, follow_of_readStep read, noChild]
      rfl
  | onward value input step rest child read found ih =>
      rw [follow_of_readStep read, follow_of_readStep read, found]
      exact ih

theorem follow_withoutPath (whole other : String) (value : Json.Value) (input : List Char) :
    (follow whole value input).mapError Error.withoutPath =
      (follow other value input).mapError Error.withoutPath := by
  rw [← follow_withPath whole other]
  cases follow other value input with
  | ok target => rfl
  | error error => cases error <;> rfl

/-- A path with text after it leads where the text leads from the value at the path.  The text is
empty, begins with a point or a bracket, or follows a step in brackets. -/
theorem resolution_composes {value : Json.Value} {path rest : String}
    (readable : ∀ text, resolve value path ≠ .error (.malformed text))
    (apart : SetApart path.toList rest.toList) :
    resolve value (path ++ rest) =
      (resolve value path >>= fun target => resolve target rest).mapError
        (Error.withPath (path ++ rest)) := by
  have longerReadable : ∀ text,
      follow (path ++ rest) value path.toList ≠ .error (.malformed text) := by
    intro text malformed
    apply readable text
    rw [resolve, ← follow_withPath path (path ++ rest), malformed]
    rfl
  calc
    resolve value (path ++ rest) =
        follow (path ++ rest) value (path.toList ++ rest.toList) := by
      rw [resolve, String.toList_append]
    _ = follow (path ++ rest) value path.toList >>= fun target =>
          follow (path ++ rest) target rest.toList := follow_append apart longerReadable
    _ = (resolve value path).mapError (Error.withPath (path ++ rest)) >>= fun target =>
          (resolve target rest).mapError (Error.withPath (path ++ rest)) := by
      simp only [resolve, follow_withPath]
    _ = _ := (Fallible.mapError_bind _ _ _).symm

/-- A bare key right after an index, and behind it a point without a key. -/
theorem resolution_composes_after_index :
    let document := Json.Value.object [("a", .array [.object [("b", .null)]])]
    (∀ text, resolve document "a[0]" ≠ .error (.malformed text)) ∧
      SetApart "a[0]".toList "b.".toList ∧
      resolve document ("a[0]" ++ "b.") = .error (.malformed ".") := by
  intro document
  have toItem : resolve document "a[0]" = .ok (.object [("b", .null)]) := by cbv
  have onward : resolve (.object [("b", .null)]) "b." = .error (.malformed ".") := by cbv
  have readable : ∀ text, resolve document "a[0]" ≠ .error (.malformed text) := by simp [toItem]
  have apart : SetApart "a[0]".toList "b.".toList :=
    Or.inr (Or.inr (.further (show readStep? _ = some (.key "a", "[0]".toList) by cbv)
      (.last (show readStep? _ = some (.index 0, []) by cbv))))
  refine ⟨readable, apart, ?_⟩
  rw [resolution_composes readable apart, toItem]
  change (resolve (.object [("b", .null)]) "b.").mapError _ = _
  rw [onward]
  rfl

def element (path : String) (index : Nat) : String :=
  path ++ "[" ++ String.ofList (Digits.ofNat index) ++ "]"

theorem readStep?_index {index : Nat} (small : index < Digits.wordBound) (rest : List Char) :
    readStep? ('[' :: (Digits.ofNat index ++ ']' :: rest)) = some (.index index, rest) := by
  have unclosed : ']' ∉ Digits.ofNat index := fun member =>
    absurd (Digits.isDigit_of_mem_ofNat member) (by decide)
  exact readStep?_of_startsWith (.index unclosed (Digits.readWord?_ofNat small))

/-- After a path to an array, an index in brackets leads to the element there and any further path
on from it. -/
theorem resolve_element {document item : Json.Value} {path : String} {items : List Json.Value}
    {index : Nat} (found : resolve document path = .ok (.array items))
    (small : index < Digits.wordBound) (isItem : items[index]? = some item) (rest : String) :
    (resolve document (element path index ++ rest)).mapError Error.withoutPath =
      (resolve item rest).mapError Error.withoutPath := by
  have spelled : (element path index ++ rest).toList =
      path.toList ++ '[' :: (Digits.ofNat index ++ ']' :: rest.toList) := by
    simp [element]
  have ends : EndsBareKey ('[' :: (Digits.ofNat index ++ ']' :: rest.toList)) := by
    rintro character ⟨⟩
    rfl
  have arrived : child? (.array items) (.index index) = some item := isItem
  have toArray (whole : String) : follow whole document path.toList = .ok (.array items) := by
    rw [← follow_withPath whole path, ← resolve, found]
    rfl
  rw [resolve, spelled, follow_append (Or.inl ends) (by simp [toArray]), toArray]
  change (follow _ (.array items) _).mapError _ = _
  rw [follow_of_readStep (readStep?_index small _), arrived]
  exact follow_withoutPath _ _ item rest.toList

/-- Of an object a path sees only the member with the key that it begins with. -/
theorem resolve_object_congr {members others : List (String × Json.Value)} {path : String}
    (nonempty : path ≠ "")
    (same : ∀ key rest, readStep? path.toList = some (.key key, rest) →
      Json.Value.member? key members = Json.Value.member? key others) :
    resolve (.object members) path = resolve (.object others) path := by
  have nonempty : path.toList ≠ [] := by simpa using nonempty
  cases read : readStep? path.toList with
  | none =>
      rw [resolve, resolve, follow_of_unreadable nonempty read, follow_of_unreadable nonempty read]
  | some stepAndRest =>
      obtain ⟨step, rest⟩ := stepAndRest
      rw [resolve, resolve, follow_of_readStep read, follow_of_readStep read]
      cases step with
      | key key => rw [child?, child?, same key rest read]
      | index position => rfl

theorem resolve_member {key : String} {members : List (String × Json.Value)} {value : Json.Value}
    (bare : readStep? key.toList = some (.key key, []))
    (found : Json.Value.member? key members = some value) :
    resolve (.object members) key = .ok value := by
  rw [resolve, follow_of_readStep bare, child?, found]
  exact follow_nil _ _

end Path

end JsonSieve
