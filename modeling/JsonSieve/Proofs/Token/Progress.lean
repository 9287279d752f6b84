import JsonSieve.Proofs.Token.ViablePrefix
import Mathlib.Data.List.TakeWhile
import Mathlib.Logic.Function.Iterate

/-!
# Reading an input to its end

A cursor that reads one token after the other reaches the end of its input and loses nothing on
the way: between the octets of the tokens there are only blanks.  Everything follows from what
a single step can do.  It finds nothing but blanks, or it passes some blanks and the octets
of one token.

The lexer takes octets from the front of a list.  It can also be run over the places of one input,
where a token is cut out between two places and the octet after a number is given back by a step
to the place before.  There an access may be out of range; the last part of this file shows that
none is, at whatever place the reading begins.
-/

namespace JsonSieve

namespace Lexer

/-- An input made of these tokens: blanks before each of them and at the end. -/
inductive SpacedOut : List Token → Bytes → Prop
  | nil (blanks : Bytes) : Blanks blanks → SpacedOut [] blanks
  | cons (blanks : Bytes) (token : Token) (tokens : List Token) (rest : Bytes) :
      Blanks blanks → SpacedOut tokens rest →
        SpacedOut (token :: tokens) (blanks ++ token.raw ++ rest)

theorem dropWhile_eq_nil_iff {input : Bytes} : input.dropWhile isBlank = [] ↔ Blanks input := by
  simp only [List.dropWhile_eq_nil_iff, isBlank_iff, Blanks]

theorem scan_raw_prefix (state : State) (input : Bytes) : (scan state input).raw <+: input := by
  induction input generalizing state with
  | nil => exact List.nil_prefix
  | cons octet input ih =>
      cases step : state.next octet with
      | more next =>
          simp only [scan, step]
          exact (List.prefix_cons_inj octet).mpr (ih next)
      | last kind =>
          simp only [scan, step]
          exact (List.prefix_cons_inj octet).mpr List.nil_prefix
      | before kind =>
          simp only [scan, step]
          exact List.nil_prefix

theorem firstToken_of_ne_nil {input : Bytes} (nonempty : input ≠ []) :
    firstToken input = scan .start input := by
  rw [firstToken, if_neg (by simpa using nonempty)]

theorem spelled_kind_ne {kind : Token.Kind} {word : Bytes} (spelled : Spells kind word) :
    kind ≠ .endOfInput ∧ kind ≠ .unknown := by
  cases spelled with
  | numeral word sound =>
      unfold numeralKind
      split <;> decide
  | string body isBody =>
      unfold stringKind
      split <;> decide
  | _ => decide

theorem firstToken_kind_ne_endOfInput {input : Bytes} (nonempty : input ≠ []) :
    (firstToken input).kind ≠ .endOfInput := by
  rw [firstToken_of_ne_nil nonempty]
  obtain ⟨word, -, recognises⟩ := scan_recognises (show State.start.Live from trivial) input
  by_cases complete : ∃ kind, Spells kind word
  · obtain ⟨kind, spelled⟩ := complete
    rw [recognises.complete kind spelled]
    exact (spelled_kind_ne spelled).1
  · rw [recognises.incomplete (not_exists.mp complete)]
    exact Token.Kind.noConfusion

end Lexer

namespace Cursor

open Lexer

variable {cursor : Cursor} {blanks rest : Bytes} {token : Token}

/-- Reading a token: blanks lie ahead of the cursor, then the octets of the token, and the
cursor moves behind these. -/
structure Reads (cursor : Cursor) (blanks : Bytes) (token : Token) (rest : Bytes) : Prop where
  ahead : cursor.ahead = blanks ++ token.raw ++ rest
  blank : Blanks blanks
  nonempty : token.raw ≠ []
  known : token.kind ≠ .endOfInput
  step : cursor.step =
    (token, cursor.seek (cursor.position + blanks.length + token.raw.length))

theorem takeWhile_append_ahead (cursor : Cursor) :
    cursor.ahead.takeWhile isBlank ++ cursor.ahead.dropWhile isBlank = cursor.ahead :=
  List.takeWhile_append_dropWhile

theorem step_of_blanks (blank : Blanks cursor.ahead) :
    cursor.step = (.atEnd, cursor.seek (cursor.position + cursor.ahead.length)) := by
  have empty : cursor.ahead.dropWhile isBlank = [] := dropWhile_eq_nil_iff.mpr blank
  have onlyBlanks := cursor.takeWhile_append_ahead
  rw [empty, List.append_nil] at onlyBlanks
  simp only [step, empty, onlyBlanks]
  rfl

/-- A step reads a token unless only blanks are left. -/
theorem blanks_or_reads (cursor : Cursor) :
    Blanks cursor.ahead ∨ ∃ blanks token rest, cursor.Reads blanks token rest := by
  by_cases empty : cursor.ahead.dropWhile isBlank = []
  · exact Or.inl (dropWhile_eq_nil_iff.mp empty)
  · obtain ⟨rest, front⟩ : (firstToken (cursor.ahead.dropWhile isBlank)).raw <+:
        cursor.ahead.dropWhile isBlank := by
      rw [firstToken_of_ne_nil empty]
      exact scan_raw_prefix .start _
    refine Or.inr ⟨cursor.ahead.takeWhile isBlank,
      firstToken (cursor.ahead.dropWhile isBlank), rest, ?_, ?_, ?_, ?_, rfl⟩
    · rw [List.append_assoc, front, takeWhile_append_ahead]
    · exact blanks_takeWhile cursor.ahead
    · exact List.ne_nil_of_length_pos (firstToken_raw_pos empty)
    · exact firstToken_kind_ne_endOfInput empty

theorem ahead_seek_add (cursor : Cursor) (count : Nat) :
    (cursor.seek (cursor.position + count)).ahead = cursor.ahead.drop count := by
  simp [ahead, seek, List.drop_drop]

theorem drop_takeWhile_ahead (cursor : Cursor) :
    cursor.ahead.drop (cursor.ahead.takeWhile isBlank).length =
      cursor.ahead.dropWhile isBlank := by
  calc
    cursor.ahead.drop (cursor.ahead.takeWhile isBlank).length =
        (cursor.ahead.takeWhile isBlank ++ cursor.ahead.dropWhile isBlank).drop
          (cursor.ahead.takeWhile isBlank).length := by rw [takeWhile_append_ahead]
    _ = cursor.ahead.dropWhile isBlank := List.drop_left

theorem ahead_step (cursor : Cursor) :
    cursor.step.2.ahead =
      (cursor.ahead.dropWhile isBlank).drop cursor.step.1.raw.length := by
  rw [← drop_takeWhile_ahead, List.drop_drop, ← ahead_seek_add, ← Nat.add_assoc]
  rfl

theorem length_ahead (cursor : Cursor) :
    cursor.ahead.length = cursor.input.length - cursor.position := by
  simp [ahead]

theorem Reads.ahead_step (reads : cursor.Reads blanks token rest) :
    cursor.step.2.ahead = rest := by
  rw [reads.step, Nat.add_assoc, ahead_seek_add, reads.ahead]
  exact List.drop_left' (by simp)

theorem Reads.length_raw_pos (reads : cursor.Reads blanks token rest) : 0 < token.raw.length :=
  List.length_pos_iff.mpr reads.nonempty

theorem Reads.length_ahead_lt (reads : cursor.Reads blanks token rest) :
    cursor.step.2.ahead.length < cursor.ahead.length := by
  have positive := reads.length_raw_pos
  rw [reads.ahead_step, reads.ahead]
  simp only [List.length_append]
  omega

theorem Reads.not_blanks (reads : cursor.Reads blanks token rest) : ¬Blanks cursor.ahead := by
  intro blank
  have same := reads.step.symm.trans (step_of_blanks blank)
  exact reads.known (congrArg (fun result => result.1.kind) same)

/-- Induction along the tokens ahead of a cursor: a statement holds everywhere if it holds where
only blanks are left, and in front of a token whenever it holds behind it. -/
theorem reading_induction {motive : Cursor → Prop}
    (atEnd : ∀ cursor : Cursor, Blanks cursor.ahead → motive cursor)
    (token : ∀ (cursor : Cursor) blanks token rest, cursor.Reads blanks token rest →
      motive cursor.step.2 → motive cursor) (cursor : Cursor) : motive cursor := by
  induction count : cursor.ahead.length using Nat.strongRecOn generalizing cursor with
  | ind count ih =>
      rcases cursor.blanks_or_reads with blank | ⟨blanks, found, rest, reads⟩
      · exact atEnd cursor blank
      · have shorter := reads.length_ahead_lt
        exact token cursor blanks found rest reads (ih _ (by omega) _ rfl)

theorem Reads.position_lt (reads : cursor.Reads blanks token rest) :
    cursor.position < cursor.step.2.position := by
  have positive := reads.length_raw_pos
  rw [reads.step]
  simp only [seek]
  omega

theorem Reads.position_le (reads : cursor.Reads blanks token rest) :
    cursor.step.2.position ≤ cursor.input.length := by
  have positive := reads.length_raw_pos
  have total := congrArg List.length reads.ahead
  rw [length_ahead] at total
  simp only [List.length_append] at total
  rw [reads.step]
  simp only [seek]
  omega

theorem step_of_ahead_nil (empty : cursor.ahead = []) : cursor.step = (.atEnd, cursor) := by
  have blank : Blanks cursor.ahead := by
    rw [empty]
    exact fun octet member => absurd member List.not_mem_nil
  rw [step_of_blanks blank, empty]
  rfl

theorem kind_step_iff (cursor : Cursor) :
    cursor.step.1.kind = .endOfInput ↔ Blanks cursor.ahead := by
  rcases cursor.blanks_or_reads with blank | ⟨blanks, token, rest, reads⟩
  · rw [step_of_blanks blank]
    exact iff_of_true rfl blank
  · rw [reads.step]
    exact iff_of_false reads.known reads.not_blanks

theorem ahead_step_of_blanks (blank : Blanks cursor.ahead) : cursor.step.2.ahead = [] := by
  rw [step_of_blanks blank, ahead_seek_add, List.drop_length]

/-- The tokens that are read one after the other, the end included, if so many steps reach it. -/
def readAll? : (steps : Nat) → Cursor → Option (List Token)
  | 0, _ => none
  | steps + 1, cursor =>
      if cursor.step.1.kind = .endOfInput then some [cursor.step.1]
      else (cursor.step.2.readAll? steps).map (cursor.step.1 :: ·)

def locatedAhead (cursor : Cursor) : List (Nat × Token) :=
  tokensFrom cursor.position cursor.ahead

def tokensAhead (cursor : Cursor) : List Token :=
  cursor.locatedAhead.map Prod.snd

theorem locatedAhead_of_blanks (blank : Blanks cursor.ahead) : cursor.locatedAhead = [] := by
  rw [locatedAhead, tokensFrom]
  split
  · rfl
  · next octet octets split =>
      rw [dropWhile_eq_nil_iff.mpr blank] at split
      cases split

theorem locatedAhead_of_reads (reads : cursor.Reads blanks token rest) :
    cursor.locatedAhead =
      (cursor.position + blanks.length, token) :: cursor.step.2.locatedAhead := by
  rw [locatedAhead, tokensFrom]
  split
  · next empty => exact absurd (dropWhile_eq_nil_iff.mp empty) reads.not_blanks
  · next octet octets split =>
      have found : firstToken (octet :: octets) = token := by
        rw [← split]
        exact congrArg Prod.fst reads.step
      have position : cursor.step.2.position =
          cursor.position + (cursor.ahead.takeWhile isBlank).length + token.raw.length := by
        rw [← found, ← split]
        rfl
      have place : cursor.position + (cursor.ahead.takeWhile isBlank).length =
          cursor.position + blanks.length := by
        have moved := congrArg (fun result => result.2.position) reads.step
        simp only [position, seek] at moved
        omega
      have ahead : cursor.step.2.ahead = (octet :: octets).drop token.raw.length := by
        rw [ahead_step, split, reads.step]
      simp only [found]
      rw [locatedAhead, position, ahead, place]

theorem tokensAhead_of_blanks (blank : Blanks cursor.ahead) : cursor.tokensAhead = [] := by
  rw [tokensAhead, locatedAhead_of_blanks blank, List.map_nil]

theorem tokensAhead_of_reads (reads : cursor.Reads blanks token rest) :
    cursor.tokensAhead = token :: cursor.step.2.tokensAhead := by
  rw [tokensAhead, locatedAhead_of_reads reads, List.map_cons, ← tokensAhead]

/-- The steps of a cursor reach the end, and on the way they read the tokens of its input. -/
theorem readAll?_eq (cursor : Cursor) {steps : Nat} (enough : cursor.ahead.length < steps) :
    cursor.readAll? steps = some (cursor.tokensAhead ++ [.atEnd]) := by
  -- Each token takes one step and at least one octet, so enough steps are left behind it.
  induction cursor using reading_induction generalizing steps with
  | atEnd cursor blank =>
      obtain ⟨steps, rfl⟩ := Nat.exists_eq_add_of_lt enough
      rw [readAll?, step_of_blanks blank, tokensAhead_of_blanks blank]
      rfl
  | token cursor blanks token rest reads ih =>
      obtain ⟨steps, rfl⟩ : ∃ fewer, steps = fewer + 1 := ⟨steps - 1, by omega⟩
      have shorter := reads.length_ahead_lt
      rw [readAll?, ih (by omega), tokensAhead_of_reads reads, reads.step, if_neg reads.known]
      rfl

theorem spacedOut_tokensAhead (cursor : Cursor) : SpacedOut cursor.tokensAhead cursor.ahead := by
  induction cursor using reading_induction with
  | atEnd cursor blank =>
      rw [tokensAhead_of_blanks blank]
      exact .nil cursor.ahead blank
  | token cursor blanks token rest reads ih =>
      rw [reads.ahead_step] at ih
      rw [tokensAhead_of_reads reads, reads.ahead]
      exact .cons blanks token _ rest reads.blank ih

theorem mem_tokensAhead (cursor : Cursor) :
    ∀ token ∈ cursor.tokensAhead, token.raw ≠ [] ∧ token.kind ≠ .endOfInput := by
  induction cursor using reading_induction with
  | atEnd cursor blank =>
      rw [tokensAhead_of_blanks blank]
      exact fun token member => absurd member List.not_mem_nil
  | token cursor blanks token rest reads ih =>
      rw [tokensAhead_of_reads reads]
      exact List.forall_mem_cons.mpr ⟨⟨reads.nonempty, reads.known⟩, ih⟩

theorem length_tokensAhead_le (cursor : Cursor) :
    cursor.tokensAhead.length ≤ cursor.ahead.length := by
  induction cursor using reading_induction with
  | atEnd cursor blank =>
      rw [tokensAhead_of_blanks blank]
      exact Nat.zero_le _
  | token cursor blanks token rest reads ih =>
      have shorter := reads.length_ahead_lt
      rw [tokensAhead_of_reads reads, List.length_cons]
      omega

end Cursor

namespace Lexer

/-- The octets between two places, if these are places of the input in this order. -/
def slice? (input : Bytes) (start stop : Nat) : Option Bytes :=
  if start ≤ stop ∧ stop ≤ input.length then some ((input.take stop).drop start) else none

def placeBefore? : Nat → Option Nat
  | 0 => none
  | place + 1 => some place

/-- What an octet means in a state.  In the middle of a word it is compared with the next octet of
the word, if there is one. -/
def State.next? : State → UInt8 → Option Outcome
  | .word [] _, _ => none
  | state, octet => some (state.next octet)

/-- The token of a class between two places, and the place behind it. -/
def tokenBetween? (input : Bytes) (kind : Token.Kind) (start stop : Nat) :
    Option (Token × Nat) :=
  (slice? input start stop).map (fun raw => (⟨kind, raw⟩, stop))

/-- Reads on at a place a token that began at another one. -/
def scanAt? (input : Bytes) (start : Nat) (state : State) (place : Nat) : Option (Token × Nat) :=
  match _inside : input[place]? with
  | none => tokenBetween? input state.kindAtEnd start place
  | some octet =>
      match state.next? octet with
      | none => none
      | some (.more next) => scanAt? input start next (place + 1)
      | some (.last kind) => tokenBetween? input kind start (place + 1)
      | some (.before kind) => (placeBefore? (place + 1)).bind (tokenBetween? input kind start)
termination_by input.length - place
decreasing_by
  have := (List.getElem?_eq_some_iff.mp _inside).1
  omega

def skipBlanksAt (input : Bytes) (place : Nat) : Nat :=
  match _inside : input[place]? with
  | none => place
  | some octet => if isBlank octet then skipBlanksAt input (place + 1) else place
termination_by input.length - place
decreasing_by
  have := (List.getElem?_eq_some_iff.mp _inside).1
  omega

section Places

variable {input : Bytes} {start place : Nat} {octet : UInt8}

theorem drop_of_getElem? (inside : input[place]? = some octet) :
    input.drop place = octet :: input.drop (place + 1) := by
  obtain ⟨bound, rfl⟩ := List.getElem?_eq_some_iff.mp inside
  exact List.drop_eq_getElem_cons bound

theorem drop_of_getElem?_none (outside : input[place]? = none) : input.drop place = [] :=
  List.drop_eq_nil_of_le (List.getElem?_eq_none_iff.mp outside)

theorem next?_of_live {state : State} (live : state.Live) :
    state.next? octet = some (state.next octet) := by
  cases state with
  | word missing kind =>
      cases missing with
      | nil => exact absurd rfl live.1
      | cons expected missing => rfl
  | _ => rfl

theorem tokenBetween?_eq {kind : Token.Kind} (word rest : Bytes) (behind : start ≤ place)
    (inside : place ≤ input.length) (ahead : input.drop place = word ++ rest) :
    tokenBetween? input kind start (place + word.length) =
      some (⟨kind, (input.take place).drop start ++ word⟩, place + word.length) := by
  have bound : place + word.length ≤ input.length := by
    have := congrArg List.length ahead
    simp only [List.length_drop, List.length_append] at this
    omega
  have taken : input.take (place + word.length) = input.take place ++ word := by
    rw [List.take_add, ahead, List.take_left]
  have raw : (input.take (place + word.length)).drop start =
      (input.take place).drop start ++ word := by
    rw [taken, List.drop_append_of_le_length (by simp; omega)]
  rw [tokenBetween?, slice?, if_pos ⟨by omega, bound⟩, raw]
  rfl

theorem skipBlanksAt_eq (input : Bytes) (place : Nat) :
    skipBlanksAt input place = place + ((input.drop place).takeWhile isBlank).length := by
  fun_induction skipBlanksAt input place with
  | case1 place outside => simp [drop_of_getElem?_none outside]
  | case2 place octet inside blank ih =>
      rw [ih, drop_of_getElem? inside, List.takeWhile_cons, if_pos blank, List.length_cons]
      omega
  | case3 place octet inside noBlank =>
      rw [drop_of_getElem? inside, List.takeWhile_cons, if_neg noBlank]
      rfl

/-- Reading on at a place behind the beginning of a token, every access is in range, and the token
consists of the octets between these places and of those that are read from there on. -/
theorem scanAt?_eq {state : State} (live : state.Live) (behind : start ≤ place)
    (inside : place ≤ input.length) :
    scanAt? input start state place =
      some (⟨(scan state (input.drop place)).kind,
          (input.take place).drop start ++ (scan state (input.drop place)).raw⟩,
        place + (scan state (input.drop place)).raw.length) := by
  fun_induction scanAt? input start state place with
  | case1 state place outside =>
      rw [drop_of_getElem?_none outside]
      exact tokenBetween?_eq [] [] behind inside (drop_of_getElem?_none outside)
  | case2 state place octet found impossible =>
      rw [next?_of_live live] at impossible
      cases impossible
  | case3 state place octet found next step ih =>
      rw [next?_of_live live] at step
      have step := Option.some.inj step
      -- The octet that is read joins those between the two places.
      have bound := (List.getElem?_eq_some_iff.mp found).1
      have taken : (input.take (place + 1)).drop start =
          (input.take place).drop start ++ [octet] := by
        rw [List.take_add_one, found]
        exact List.drop_append_of_le_length (by simp; omega)
      rw [ih (live_next live step) (by omega) (by omega), drop_of_getElem? found, scan, step, taken]
      simp only [List.append_assoc, List.singleton_append, List.length_cons]
      rw [Nat.add_assoc, Nat.add_comm 1]
  | case4 state place octet found kind step =>
      rw [next?_of_live live] at step
      rw [drop_of_getElem? found, scan, Option.some.inj step]
      exact tokenBetween?_eq [octet] _ behind inside (drop_of_getElem? found)
  | case5 state place octet found kind step =>
      rw [next?_of_live live] at step
      rw [drop_of_getElem? found, scan, Option.some.inj step]
      exact tokenBetween?_eq [] _ behind inside rfl

end Places

end Lexer

namespace Cursor

open Lexer

def stepByPlaces? (cursor : Cursor) : Option (Token × Cursor) :=
  let start := skipBlanksAt cursor.input cursor.position
  if cursor.input.length ≤ start then some (.atEnd, cursor.seek start)
  else
    (scanAt? cursor.input start .start start).map
      (fun (token, place) => (token, cursor.seek place))

/-- Wherever a cursor stands, the accesses of a step by places are all in range, and it is the
step of the lexer. -/
theorem stepByPlaces?_eq (cursor : Cursor) : cursor.stepByPlaces? = some cursor.step := by
  have start : skipBlanksAt cursor.input cursor.position =
      cursor.position + (cursor.ahead.takeWhile isBlank).length :=
    skipBlanksAt_eq cursor.input cursor.position
  have total := congrArg List.length cursor.takeWhile_append_ahead
  rw [List.length_append, length_ahead] at total
  rw [stepByPlaces?, start]
  by_cases empty : cursor.ahead.dropWhile isBlank = []
  · have blank : Blanks cursor.ahead := dropWhile_eq_nil_iff.mp empty
    have onlyBlanks := cursor.takeWhile_append_ahead
    rw [empty, List.append_nil] at onlyBlanks
    rw [empty, List.length_nil] at total
    rw [if_pos (by omega), onlyBlanks, step_of_blanks blank]
  · have positive := List.length_pos_iff.mpr empty
    have inside : cursor.position + (cursor.ahead.takeWhile isBlank).length ≤
        cursor.input.length := by
      omega
    have left : cursor.input.drop
        (cursor.position + (cursor.ahead.takeWhile isBlank).length) =
          cursor.ahead.dropWhile isBlank := by
      rw [← drop_takeWhile_ahead, ahead, List.drop_drop]
    have nothingYet : (cursor.input.take
        (cursor.position + (cursor.ahead.takeWhile isBlank).length)).drop
          (cursor.position + (cursor.ahead.takeWhile isBlank).length) = [] :=
      List.drop_eq_nil_of_le (List.length_take_le _ _)
    rw [if_neg (by omega), scanAt?_eq (show State.start.Live from trivial) (Nat.le_refl _) inside,
      left, nothingYet, ← firstToken_of_ne_nil empty]
    rfl

/-- The tokens of an input are not empty and make it up with the blanks around them.  Every step is
in range and moves forward, until only blanks are left. -/
theorem reading_loses_nothing :
    (∀ input : Bytes, ∃ tokens : List Token,
      tokenize input = tokens ++ [.atEnd] ∧
      (start input).readAll? (input.length + 1) = some (tokens ++ [.atEnd]) ∧
      tokens.length ≤ input.length ∧
      (∀ token ∈ tokens, token.raw ≠ [] ∧ token.kind ≠ .endOfInput) ∧
      SpacedOut tokens input) ∧
    ∀ cursor : Cursor,
      cursor.stepByPlaces? = some cursor.step ∧
      (cursor.step.1.kind ≠ .endOfInput →
        cursor.position < cursor.step.2.position ∧
          cursor.step.2.position ≤ cursor.input.length) ∧
      (cursor.step.1.kind = .endOfInput ↔ Blanks cursor.ahead) ∧
      (cursor.step.1.kind = .endOfInput →
        cursor.step.1 = .atEnd ∧
          ∀ count, ((fun place : Cursor => place.step.2)^[count] cursor.step.2).step =
            (.atEnd, cursor.step.2)) ∧
      (cursor.input.length ≤ cursor.position → cursor.step = (.atEnd, cursor)) := by
  constructor
  · intro input
    refine ⟨(start input).tokensAhead, rfl, ?_, ?_, ?_, ?_⟩
    · exact readAll?_eq (start input) (Nat.lt_succ_self _)
    · exact length_tokensAhead_le (start input)
    · exact mem_tokensAhead (start input)
    · exact spacedOut_tokensAhead (start input)
  · intro cursor
    refine ⟨stepByPlaces?_eq cursor, ?_, kind_step_iff cursor, ?_, ?_⟩
    · intro known
      rcases cursor.blanks_or_reads with blank | ⟨blanks, token, rest, reads⟩
      · exact absurd ((kind_step_iff cursor).mpr blank) known
      · exact ⟨reads.position_lt, reads.position_le⟩
    · intro ended
      have blank := (kind_step_iff cursor).mp ended
      have still := step_of_ahead_nil (ahead_step_of_blanks blank)
      refine ⟨by rw [step_of_blanks blank], fun count => ?_⟩
      rw [Function.iterate_fixed (by rw [still]) count, still]
    · intro past
      exact step_of_ahead_nil (List.drop_eq_nil_of_le past)

end Cursor

end JsonSieve
