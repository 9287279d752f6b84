import JsonSieve.Proofs.Path.Following

/-!
# Paths split at offsets

A path can also be split by counting octets: the end of a key or of an index is found as an offset,
and the path is cut there.  A text can be cut at an offset only if it is in range and not inside a
character.  However many octets the characters of a path have, all its steps end at such offsets,
and what is read in this way are the steps of the path.  A step takes at least one character, so
that a path is followed in at most as many rounds as it has octets.
-/

namespace JsonSieve

namespace Path

/-- Why a path is not followed to its end by offsets: the path is wrong, or it was to be cut where
it cannot be cut, or the rounds did not suffice. -/
inductive Halt
  | wrong (error : Error)
  | misplacedCut
  | outOfRounds
  deriving DecidableEq

/-- What stands before an offset, and what stands from it on.  The offset counts octets.  It has to
be in range and must not lie inside a character. -/
def cut (text : String) (offset : Nat) : Except Halt (String × String) :=
  if valid : String.Pos.Raw.IsValid text ⟨offset⟩ then
    let place := text.pos ⟨offset⟩ valid
    .ok ((text.sliceTo place).copy, (text.sliceFrom place).copy)
  else .error .misplacedCut

def offsetOf? (isWanted : Char → Bool) (text : String) : Option Nat :=
  (text.find? isWanted).map (fun place => place.offset.byteIdx)

def behind? (character : Char) (text : String) : Option String :=
  match text.toList with
  | first :: others => if first = character then some (String.ofList others) else none
  | [] => none

/-- A text with its first character of a kind, what stands before it and what stands after it. -/
structure FirstOf (isWanted : Char → Bool) (text before : String) (character : Char)
    (after : String) : Prop where
  whole : text = before ++ (String.singleton character ++ after)
  wanted : isWanted character = true
  unwanted : ∀ other ∈ before.toList, isWanted other = false

variable {isWanted : Char → Bool} {text before after : String} {character : Char}

theorem cut_append (before after : String) :
    cut (before ++ after) before.utf8ByteSize = .ok (before, after) := by
  have valid : String.Pos.Raw.IsValid (before ++ after) ⟨before.utf8ByteSize⟩ :=
    String.Pos.Raw.isValid_iff_exists_append.mpr ⟨before, after, rfl, rfl⟩
  have splits : ((before ++ after).pos ⟨before.utf8ByteSize⟩ valid).Splits before after :=
    ⟨rfl, rfl⟩
  rw [cut, dif_pos valid]
  dsimp only
  rw [splits.copy_sliceTo_eq, splits.copy_sliceFrom_eq]

theorem firstOf_or_none (isWanted : Char → Bool) (text : String) :
    (∃ before character after, FirstOf isWanted text before character after) ∨
      ∀ other ∈ text.toList, isWanted other = false := by
  obtain ⟨whole, unwanted, stopped⟩ := Spans.span_eq_iff.mp
    (⟨rfl, rfl⟩ : text.toList.takeWhile (!isWanted ·) = _ ∧ text.toList.dropWhile (!isWanted ·) = _)
  cases rest : text.toList.dropWhile (!isWanted ·) with
  | nil =>
      rw [rest, List.append_nil] at whole
      right
      intro other member
      rw [whole] at member
      simpa using unwanted other member
  | cons character others =>
      rw [rest] at whole stopped
      refine Or.inl ⟨String.ofList (text.toList.takeWhile (!isWanted ·)), character,
        String.ofList others, ?_, ?_, ?_⟩
      · rw [← String.toList_inj]
        simpa using whole
      · simpa using stopped character rfl
      · intro other member
        rw [String.toList_ofList] at member
        simpa using unwanted other member

namespace FirstOf

theorem span (first : FirstOf isWanted text before character after) :
    text.toList.takeWhile (!isWanted ·) = before.toList ∧
      text.toList.dropWhile (!isWanted ·) = character :: after.toList := by
  rw [Spans.span_eq_iff, first.whole]
  refine ⟨by simp, fun other member => by simp [first.unwanted other member], ?_⟩
  rintro other ⟨⟩
  simp [first.wanted]

theorem offsetOf? (first : FirstOf isWanted text before character after) :
    offsetOf? isWanted text = some before.utf8ByteSize := by
  obtain ⟨rfl, wanted, unwanted⟩ := first
  have found : (before ++ (String.singleton character ++ after)).find? isWanted =
      some (String.Pos.ofEqAppend rfl) :=
    String.find?_bool_eq_some_iff_splits.mpr
      ⟨before, character, after, String.Pos.splits_ofEqAppend rfl, wanted, unwanted⟩
  rw [Path.offsetOf?, found]
  rfl

theorem cut_before (first : FirstOf isWanted text before character after) :
    cut text before.utf8ByteSize = .ok (before, String.singleton character ++ after) := by
  rw [first.whole, cut_append]

theorem cut_behind (first : FirstOf isWanted text before character after)
    (single : character.utf8Size = 1) :
    cut text (before.utf8ByteSize + 1) = .ok (before ++ String.singleton character, after) := by
  have offset : before.utf8ByteSize + 1 = (before ++ String.singleton character).utf8ByteSize := by
    rw [String.utf8ByteSize_append, String.utf8ByteSize_singleton, single]
  rw [first.whole, offset, ← String.append_assoc, cut_append]

end FirstOf

theorem offsetOf?_eq_none (unwanted : ∀ other ∈ text.toList, isWanted other = false) :
    offsetOf? isWanted text = none := by
  rw [offsetOf?, Option.map_eq_none_iff, Option.eq_none_iff_forall_not_mem]
  intro place found
  obtain ⟨before, character, after, splits, wanted, -⟩ :=
    String.find?_bool_eq_some_iff_splits.mp found
  have absent := unwanted character (by simp [splits.eq_append])
  rw [wanted] at absent
  cases absent

/-- The offset at which a word of unwanted characters ends. -/
theorem exists_offset_of_stop (isWanted : Char → Bool) (text : String) :
    ∃ before after, text = before ++ after ∧
      text.toList.takeWhile (!isWanted ·) = before.toList ∧
      text.toList.dropWhile (!isWanted ·) = after.toList ∧
      (offsetOf? isWanted text).getD text.utf8ByteSize = before.utf8ByteSize := by
  rcases firstOf_or_none isWanted text with ⟨before, character, after, first⟩ | unwanted
  · obtain ⟨taken, left⟩ := first.span
    refine ⟨before, String.singleton character ++ after, first.whole, taken, ?_, ?_⟩
    · simpa using left
    · rw [first.offsetOf?, Option.getD_some]
  · obtain ⟨taken, left⟩ := Spans.span_eq_iff.mpr
      (⟨(List.append_nil _).symm, by simpa using unwanted, nofun⟩ :
        text.toList = text.toList ++ [] ∧ (∀ other ∈ text.toList, (!isWanted other) = true) ∧ _)
    refine ⟨text, "", String.append_empty.symm, taken, left, ?_⟩
    rw [offsetOf?_eq_none unwanted, Option.getD_none]

/-- A key in quotes, and what follows the bracket after it.  The text begins with the opening
quote. -/
def cutQuotedKey (invalid : Halt) (quote : Char) (text : String) :
    Except Halt (Step × String) := do
  let (_, quoted) ← cut text 1
  let some stop := offsetOf? (· = quote) quoted | .error invalid
  let (_, behind) ← cut quoted (stop + 1)
  let some rest := behind? ']' behind | .error invalid
  let (key, _) ← cut quoted stop
  return (.key key, rest)

def cutIndex (invalid : Halt) (text : String) : Except Halt (Step × String) := do
  let some stop := offsetOf? (· = ']') text | .error invalid
  let (digits, _) ← cut text stop
  let some index := Digits.readWord? digits.toList | .error invalid
  let (_, rest) ← cut text (stop + 1)
  return (.index index, rest)

def cutBareKey (invalid : Halt) (text : String) : Except Halt (Step × String) := do
  let stop := (offsetOf? isDelimiter text).getD text.utf8ByteSize
  if stop = 0 then .error invalid
  else
    let (key, rest) ← cut text stop
    return (.key key, rest)

def cutBracket (invalid : Halt) (text : String) : Except Halt (Step × String) :=
  match text.toList.head? with
  | some '\x27' => cutQuotedKey invalid '\x27' text
  | some '"' => cutQuotedKey invalid '"' text
  | _ => cutIndex invalid text

/-- The first step of a path, and what follows it. -/
def cutStep (path : String) : Except Halt (Step × String) :=
  let invalid := .wrong (.malformed path)
  match behind? '[' path with
  | some bracketed => cutBracket invalid bracketed
  | none => cutBareKey invalid ((behind? '.' path).getD path)

/-- A step that was read, or else what is wrong. -/
def stepOr (invalid : Halt) : Option (Step × List Char) → Except Halt (Step × String)
  | some (step, rest) => .ok (step, String.ofList rest)
  | none => .error invalid

theorem cutQuotedKey_eq (invalid : Halt) {quote : Char} (single : quote.utf8Size = 1)
    (quoted : String) :
    cutQuotedKey invalid quote (String.singleton quote ++ quoted) =
      stepOr invalid (readQuotedKey? quote quoted.toList) := by
  have opened : cut (String.singleton quote ++ quoted) 1 =
      .ok (String.singleton quote, quoted) := by
    have apart := cut_append (String.singleton quote) quoted
    rwa [String.utf8ByteSize_singleton, single] at apart
  rw [cutQuotedKey, opened, readQuotedKey?]
  simp only [bind, Except.bind]
  rcases firstOf_or_none (· = quote) quoted with ⟨key, character, after, first⟩ | unwanted
  · obtain rfl : character = quote := by simpa using first.wanted
    obtain ⟨taken, left⟩ := first.span
    simp only [← decide_not] at taken left
    simp only [taken, left, first.offsetOf?, first.cut_behind single, first.cut_before, behind?]
    cases after.toList with
    | nil => rfl
    | cons closing others =>
        by_cases closed : closing = ']'
        · subst closed
          simp [stepOr, pure, Except.pure]
        · simp [closed, stepOr]
  · have unclosed : quoted.toList.dropWhile (· ≠ quote) = [] :=
      List.dropWhile_eq_nil_iff.mpr (by simpa using unwanted)
    rw [offsetOf?_eq_none unwanted, unclosed]
    rfl

theorem cutIndex_eq (invalid : Halt) (text : String) :
    cutIndex invalid text = stepOr invalid (readIndexStep? text.toList) := by
  rw [cutIndex, readIndexStep?]
  simp only [bind, Except.bind]
  rcases firstOf_or_none (· = ']') text with ⟨digits, character, rest, first⟩ | unwanted
  · obtain rfl : character = ']' := by simpa using first.wanted
    obtain ⟨taken, left⟩ := first.span
    simp only [← decide_not] at taken left
    simp only [taken, left, first.offsetOf?, first.cut_behind (by decide), first.cut_before]
    cases Digits.readWord? digits.toList with
    | none => rfl
    | some index => simp [stepOr, pure, Except.pure]
  · have unclosed : text.toList.dropWhile (· ≠ ']') = [] :=
      List.dropWhile_eq_nil_iff.mpr (by simpa using unwanted)
    rw [offsetOf?_eq_none unwanted, unclosed]
    rfl

theorem cutBareKey_eq (invalid : Halt) (text : String) :
    cutBareKey invalid text = stepOr invalid (readBareKey? text.toList) := by
  obtain ⟨key, rest, whole, taken, left, stop⟩ := exists_offset_of_stop isDelimiter text
  have apart : cut text key.utf8ByteSize = .ok (key, rest) := by
    rw [whole, cut_append]
  rw [cutBareKey, readBareKey?, taken, left, stop]
  simp only [apart, String.utf8ByteSize_eq_zero_iff, List.isEmpty_iff, String.toList_eq_nil_iff]
  split
  · rfl
  · simp [stepOr, bind, Except.bind, pure, Except.pure]

theorem behind?_singleton_append (character : Char) (rest : String) :
    behind? character (String.singleton character ++ rest) = some rest := by
  simp [behind?]

theorem behind?_eq_none (other : ∀ others, text.toList ≠ character :: others) :
    behind? character text = none := by
  rw [behind?]
  split
  · next first others spelled =>
      rw [if_neg]
      rintro rfl
      exact other others spelled
  · rfl

theorem eq_singleton_append {others : List Char} (spelled : text.toList = character :: others) :
    text = String.singleton character ++ String.ofList others := by
  rw [← String.toList_inj, spelled]
  simp

theorem cutBracket_eq (invalid : Halt) (bracketed : String) :
    cutBracket invalid bracketed = stepOr invalid (readBracket? bracketed.toList) := by
  unfold readBracket?
  split
  · next rest opened =>
      rw [eq_singleton_append opened, cutBracket, String.toList_append, String.toList_singleton]
      exact (cutQuotedKey_eq invalid (by decide) _).trans (by rw [String.toList_ofList])
  · next rest opened =>
      rw [eq_singleton_append opened, cutBracket, String.toList_append, String.toList_singleton]
      exact (cutQuotedKey_eq invalid (by decide) _).trans (by rw [String.toList_ofList])
  · next noSingle noDouble =>
      rw [cutBracket]
      split
      · next isSingle =>
          obtain ⟨rest, opened⟩ := List.head?_eq_some_iff.mp isSingle
          exact absurd opened (noSingle rest)
      · next isDouble =>
          obtain ⟨rest, opened⟩ := List.head?_eq_some_iff.mp isDouble
          exact absurd opened (noDouble rest)
      · exact cutIndex_eq invalid bracketed

/-- Every cut at the end of a step can be made, and what is read between the cuts is the step. -/
theorem cutStep_eq (path : String) :
    cutStep path = stepOr (.wrong (.malformed path)) (readStep? path.toList) := by
  unfold readStep?
  split
  · next rest opened =>
      have bracket : behind? '[' path = some (String.ofList rest) := by
        rw [eq_singleton_append opened, behind?_singleton_append]
      rw [cutStep, bracket]
      exact (cutBracket_eq _ _).trans (by rw [String.toList_ofList])
  · next rest pointed =>
      have noBracket : behind? '[' path = none := behind?_eq_none (by simp [pointed])
      have point : behind? '.' path = some (String.ofList rest) := by
        rw [eq_singleton_append pointed, behind?_singleton_append]
      rw [cutStep, noBracket, point]
      exact (cutBareKey_eq _ _).trans (by rw [Option.getD_some, String.toList_ofList])
  · next noBracket noPoint =>
      rw [cutStep, behind?_eq_none noBracket, behind?_eq_none noPoint]
      exact cutBareKey_eq _ path

/-- Follows the rest of a path in so many rounds at most, each of which reads one step. -/
def followInRounds (path : String) : Nat → Json.Value → String → Except Halt Json.Value
  | 0, value, rest => if rest = "" then .ok value else .error .outOfRounds
  | rounds + 1, value, rest =>
      if rest = "" then .ok value
      else do
        let (step, rest) ← cutStep rest
        let some child := child? value step | .error (.wrong (.missing path))
        followInRounds path rounds child rest

theorem exists_front_of_readStep? {path : String} {rest : List Char} {step : Step}
    (read : readStep? path.toList = some (step, rest)) :
    ∃ front, path = front ++ String.ofList rest ∧
      (String.ofList rest).utf8ByteSize < path.utf8ByteSize := by
  obtain ⟨word, nonempty, whole⟩ : ∃ word, word ≠ [] ∧ path.toList = word ++ rest := by
    generalize path.toList = input at read
    cases readStep?_eq_some_iff.mp read with
    | @quoted quote key =>
        exact ⟨'[' :: quote :: (key.toList ++ [quote, ']']), nofun, by simp⟩
    | @index digits =>
        exact ⟨'[' :: (digits ++ [']']), nofun, by simp⟩
    | @pointed key =>
        exact ⟨'.' :: key.toList, nofun, by simp⟩
    | @bare key _ isBare =>
        exact ⟨key.toList, by simpa using isBare.nonempty, rfl⟩
  have split : path = String.ofList word ++ String.ofList rest := by
    rw [← String.ofList_append, ← whole, String.ofList_toList]
  have positive : (String.ofList word).utf8ByteSize ≠ 0 := by
    simpa [String.utf8ByteSize_eq_zero_iff] using nonempty
  have sizes := congrArg String.utf8ByteSize split
  rw [String.utf8ByteSize_append] at sizes
  exact ⟨_, split, by omega⟩

theorem followInRounds_eq (path : String) {rounds : Nat} (value : Json.Value) {rest : String}
    (enough : rest.utf8ByteSize ≤ rounds) :
    followInRounds path rounds value rest = (follow path value rest.toList).mapError .wrong := by
  induction rounds generalizing value rest with
  | zero =>
      obtain rfl : rest = "" := by simpa using enough
      rw [followInRounds, if_pos rfl, String.toList_empty, follow_nil]
      rfl
  | succ rounds ih =>
      rw [followInRounds]
      split
      · next nothing =>
          rw [nothing, String.toList_empty, follow_nil]
          rfl
      · next something =>
          rw [cutStep_eq]
          cases read : readStep? rest.toList with
          | none =>
              rw [follow_of_unreadable (by simpa using something) read, String.ofList_toList]
              rfl
          | some stepAndRest =>
              obtain ⟨step, later⟩ := stepAndRest
              rw [follow_of_readStep read]
              simp only [stepOr, bind, Except.bind]
              cases child? value step with
              | none => rfl
              | some child =>
                  obtain ⟨front, -, shorter⟩ := exists_front_of_readStep? read
                  have further :=
                    ih child (show (String.ofList later).utf8ByteSize ≤ rounds by omega)
                  rwa [String.toList_ofList] at further

/-- All offsets at which the first step of a path is cut out are in range and not inside a
character.  What follows has fewer octets, so following a path comes to an end. -/
theorem splitting_makes_progress :
    (∀ path : String,
      (cutStep path = .error (.wrong (.malformed path)) ∧ readStep? path.toList = none) ∨
        ∃ step front rest,
          cutStep path = .ok (step, rest) ∧ readStep? path.toList = some (step, rest.toList) ∧
            path = front ++ rest ∧ rest.utf8ByteSize < path.utf8ByteSize) ∧
    ∀ (value : Json.Value) (path : String),
      followInRounds path path.utf8ByteSize value path = (resolve value path).mapError .wrong := by
  constructor
  · intro path
    rw [cutStep_eq]
    cases read : readStep? path.toList with
    | none => exact Or.inl ⟨rfl, rfl⟩
    | some stepAndRest =>
        obtain ⟨step, rest⟩ := stepAndRest
        obtain ⟨front, whole, shorter⟩ := exists_front_of_readStep? read
        refine Or.inr ⟨step, front, String.ofList rest, rfl, ?_, whole, shorter⟩
        rw [String.toList_ofList]
  · intro value path
    exact followInRounds_eq path value (Nat.le_refl _)

end Path

end JsonSieve
