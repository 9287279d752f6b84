import JsonSieve.Proofs.Token.Grammar
import Mathlib

/-!
# The lexer reads the longest viable prefix

Octets are viable if they can be continued to the spelling of a token.  The lexer reads an input
as far as it stays viable.  What it has read by then is a token if it is the spelling of one;
otherwise it is, with the octet that could not follow, a token of the class `unknown`.
-/

namespace JsonSieve

namespace Lexer

/-- Octets that some others continue to a word of a language. -/
def Viable (language : Token.Kind → Bytes → Prop) (word : Bytes) : Prop :=
  ∃ kind rest, language kind (word ++ rest)

structure LongestViable (language : Token.Kind → Bytes → Prop) (word input : Bytes) : Prop where
  atFront : word <+: input
  viable : Viable language word
  longest : ∀ other, other <+: input → Viable language other → other.length ≤ word.length

/-- What a reader of the longest viable prefix finds: the prefix if it is a word, and else with it
the octet that could not follow. -/
structure Recognises (language : Token.Kind → Bytes → Prop) (word input : Bytes)
    (token : Token) : Prop where
  complete : ∀ kind, language kind word → token = ⟨kind, word⟩
  incomplete : (∀ kind, ¬language kind word) →
    token = ⟨.unknown, word ++ (input.drop word.length).take 1⟩

theorem LongestViable.unique {language : Token.Kind → Bytes → Prop} {first second input : Bytes}
    (isFirst : LongestViable language first input)
    (isSecond : LongestViable language second input) : first = second := by
  have sameLength : first.length = second.length :=
    Nat.le_antisymm (isSecond.longest first isFirst.atFront isFirst.viable)
      (isFirst.longest second isSecond.atFront isSecond.viable)
  exact (List.prefix_of_prefix_length_le isFirst.atFront isSecond.atFront
    (Nat.le_of_eq sameLength)).eq_of_length sameLength

def State.Live : State → Prop
  | .word missing kind => missing ≠ [] ∧ kind ≠ .unknown
  | _ => True

/-- Octets that complete a token in a live state. -/
def State.completion : State → Bytes
  | .start | .minus | .point | .exponent | .exponentSign => [0x30]
  | .string _ => [0x22]
  | .escape => [0x6e, 0x22]
  | .unicode further => List.replicate (further + 1) 0x30 ++ [0x22]
  | .zero | .whole | .fraction | .exponentDigits => []
  | .word missing _ => missing

theorem completes_completion {state : State} (live : state.Live) :
    ∃ kind, Completes state kind state.completion := by
  have digits : Digits [0x30] := digits_cons.mpr ⟨by decide, allDigits_nil⟩
  have magnitude : Magnitude [0x30] := .mk [0x30] [] [] .zero .absent .absent
  cases state with
  | start => exact ⟨_, .numeral [0x30] (.unsigned _ magnitude)⟩
  | string plain => exact ⟨_, [], rfl, .nil, rfl⟩
  | escape => exact ⟨_, rfl, [0x6e], rfl, .escape 0x6e [] (by decide) .nil⟩
  | unicode further =>
      refine ⟨_, rfl, List.replicate (further + 1) 0x30, [], by simp [State.completion],
        List.length_replicate, ?_, .nil⟩
      intro digit member
      rw [List.eq_of_mem_replicate member]
      decide
  | minus => exact ⟨_, rfl, magnitude⟩
  | zero => exact ⟨_, rfl, afterWhole_nil⟩
  | whole => exact ⟨_, rfl, digitsThen_nil.mpr afterWhole_nil⟩
  | point => exact ⟨_, rfl, by decide, digitsThen_nil.mpr .absent⟩
  | fraction => exact ⟨_, rfl, digitsThen_nil.mpr .absent⟩
  | exponent => exact ⟨_, rfl, .unsigned _ digits⟩
  | exponentSign => exact ⟨_, rfl, digits⟩
  | exponentDigits => exact ⟨_, rfl, allDigits_nil⟩
  | word missing meant => exact ⟨_, rfl, live.2, live.1, rfl⟩

theorem viable_nil {state : State} (live : state.Live) : Viable (Completes state) [] := by
  obtain ⟨kind, completes⟩ := completes_completion live
  exact ⟨kind, state.completion, completes⟩

section Step

variable {state : State} {octet : UInt8} {word input : Bytes}

theorem live_next {next : State} (live : state.Live) (step : state.next octet = .more next) :
    next.Live := by
  cases state with
  | start =>
      grind [State.next, State.begin, State.beginLonger, State.Live]
  | word missing kind =>
      cases missing with
      | nil => cases step
      | cons expected missing => cases missing <;> grind [State.next, State.Live]
  | unicode further => cases further <;> grind [State.next, State.Live]
  | _ => grind [State.next, State.Live]

theorem kindAtEnd_of_last {kind : Token.Kind} (step : state.next octet = .last kind) :
    state.kindAtEnd = .unknown := by
  cases state <;> grind [State.next, State.kindAtEnd]

theorem kindAtEnd_of_before {kind : Token.Kind} (step : state.next octet = .before kind) :
    state.kindAtEnd = kind ∧ kind ≠ .unknown := by
  cases state with
  | start => exact absurd step (begin_ne_before octet kind)
  | unicode further => cases further <;> grind [State.next]
  | word missing meant =>
      cases missing with
      | nil => cases step
      | cons expected missing => cases missing <;> grind [State.next]
  | _ => grind [State.next, State.kindAtEnd]

theorem viable_cons :
    Viable (Completes state) (octet :: word) ↔ Viable (state.next octet).Completes word := by
  simp only [Viable, List.cons_append, completes_cons]

theorem LongestViable.cons {next : State} (step : state.next octet = .more next)
    (isLongest : LongestViable (Completes next) word input) :
    LongestViable (Completes state) (octet :: word) (octet :: input) where
  atFront := (List.prefix_cons_inj octet).mpr isLongest.atFront
  viable := by
    rw [viable_cons, step]
    exact isLongest.viable
  longest := by
    intro other atFront viable
    cases other with
    | nil => exact Nat.zero_le _
    | cons first other =>
        obtain ⟨rfl, otherAtFront⟩ := List.cons_prefix_cons.mp atFront
        rw [viable_cons, step] at viable
        exact Nat.succ_le_succ (isLongest.longest other otherAtFront viable)

theorem Recognises.cons {next : State} (step : state.next octet = .more next)
    (recognises : Recognises (Completes next) word input (scan next input)) :
    Recognises (Completes state) (octet :: word) (octet :: input)
      (scan state (octet :: input)) where
  complete := by
    intro kind completes
    rw [completes_cons, step] at completes
    simp only [scan, step, recognises.complete kind completes]
  incomplete := by
    intro incomplete
    have incompleteRest : ∀ kind, ¬Completes next kind word := by
      intro kind completes
      apply incomplete kind
      rw [completes_cons, step]
      exact completes
    simp [scan, step, recognises.incomplete incompleteRest]

theorem longestViable_nil (live : state.Live)
    (stuck : ∀ other, ¬Viable (state.next octet).Completes other) :
    LongestViable (Completes state) [] (octet :: input) where
  atFront := List.nil_prefix
  viable := viable_nil live
  longest := by
    intro other atFront viable
    cases other with
    | nil => exact Nat.le_refl _
    | cons first other =>
        obtain ⟨rfl, -⟩ := List.cons_prefix_cons.mp atFront
        exact absurd (viable_cons.mp viable) (stuck other)

theorem longestViable_singleton {kind : Token.Kind} (step : state.next octet = .last kind)
    (known : kind ≠ .unknown) :
    LongestViable (Completes state) [octet] (octet :: input) where
  atFront := (List.prefix_cons_inj octet).mpr List.nil_prefix
  viable := by
    rw [viable_cons, step]
    exact ⟨kind, [], rfl, known, rfl⟩
  longest := by
    intro other atFront viable
    cases other with
    | nil => exact Nat.zero_le _
    | cons first other =>
        obtain ⟨rfl, -⟩ := List.cons_prefix_cons.mp atFront
        rw [viable_cons, step] at viable
        obtain ⟨-, rest, -, -, nothing⟩ := viable
        exact Nat.le_of_eq (congrArg (List.length ∘ List.cons first)
          (List.append_eq_nil_iff.mp nothing).1)

end Step

theorem recognises_nil (state : State) : Recognises (Completes state) [] [] (scan state []) where
  complete := by
    intro kind completes
    rw [((completes_nil state kind).mp completes).1]
    rfl
  incomplete := by
    intro incomplete
    have unknown : state.kindAtEnd = .unknown :=
      Decidable.byContradiction fun known =>
        incomplete state.kindAtEnd ((completes_nil state _).mpr ⟨rfl, known⟩)
    simp [scan, unknown]

/-- An octet with which the token is over leaves a complete token, or completes one, or makes one
`unknown`. -/
theorem scan_recognises_of_last {state : State} {octet : UInt8} {kind : Token.Kind}
    (live : state.Live) (step : state.next octet = .last kind) (input : Bytes) :
    ∃ word, LongestViable (Completes state) word (octet :: input) ∧
      Recognises (Completes state) word (octet :: input) (scan state (octet :: input)) := by
  by_cases unknown : kind = .unknown
  · subst unknown
    refine ⟨[], longestViable_nil live ?_, ?_, ?_⟩
    · rintro other ⟨kind, rest, completes⟩
      rw [step] at completes
      exact completes.2.1 rfl
    · intro kind completes
      obtain ⟨rfl, known⟩ := (completes_nil state kind).mp completes
      exact absurd (kindAtEnd_of_last step) known
    · intro incomplete
      simp [scan, step]
  · refine ⟨[octet], longestViable_singleton step unknown, ?_, ?_⟩
    · intro other completes
      rw [completes_cons, step] at completes
      obtain ⟨rfl, -, -⟩ := completes
      simp only [scan, step]
    · intro incomplete
      refine absurd ?_ (incomplete kind)
      rw [completes_cons, step]
      exact ⟨rfl, unknown, rfl⟩

theorem scan_recognises_of_before {state : State} {octet : UInt8} {kind : Token.Kind}
    (live : state.Live) (step : state.next octet = .before kind) (input : Bytes) :
    ∃ word, LongestViable (Completes state) word (octet :: input) ∧
      Recognises (Completes state) word (octet :: input) (scan state (octet :: input)) := by
  obtain ⟨rfl, known⟩ := kindAtEnd_of_before step
  refine ⟨[], longestViable_nil live ?_, ?_, ?_⟩
  · rintro other ⟨kind, rest, completes⟩
    rw [step] at completes
    exact completes
  · intro other completes
    rw [((completes_nil state other).mp completes).1]
    simp only [scan, step]
  · intro incomplete
    exact absurd ((completes_nil state _).mpr ⟨rfl, known⟩) (incomplete _)

/-- From a live state on, the lexer recognises the longest viable prefix. -/
theorem scan_recognises {state : State} (live : state.Live) (input : Bytes) :
    ∃ word, LongestViable (Completes state) word input ∧
      Recognises (Completes state) word input (scan state input) := by
  induction input generalizing state with
  | nil =>
      refine ⟨[], ⟨List.nil_prefix, viable_nil live, ?_⟩, recognises_nil state⟩
      intro other atFront viable
      exact Nat.le_of_eq (congrArg List.length (List.prefix_nil.mp atFront))
  | cons octet input ih =>
      cases step : state.next octet with
      | more next =>
          obtain ⟨word, isLongest, recognises⟩ := ih (live_next live step)
          exact ⟨octet :: word, isLongest.cons step, recognises.cons step⟩
      | last kind => exact scan_recognises_of_last live step input
      | before kind => exact scan_recognises_of_before live step input

/-- Octets of the kinds that separate tokens: spaces, tabs, line feeds and carriage returns. -/
def Blanks (word : Bytes) : Prop :=
  ∀ octet ∈ word, octet ∈ [(0x20 : UInt8), 0x09, 0x0a, 0x0d]

theorem isBlank_iff {octet : UInt8} :
    isBlank octet ↔ octet ∈ [(0x20 : UInt8), 0x09, 0x0a, 0x0d] := by
  simp [isBlank, or_assoc]

theorem blanks_takeWhile (input : Bytes) : Blanks (input.takeWhile isBlank) := by
  intro octet member
  exact isBlank_iff.mp (List.mem_takeWhile_imp member)

theorem no_blank_behind_blanks {input : Bytes} {octet : UInt8}
    (first : (input.dropWhile isBlank).head? = some octet) :
    octet ∉ [(0x20 : UInt8), 0x09, 0x0a, 0x0d] := by
  rw [← isBlank_iff]
  intro blank
  simpa [first, blank] using List.head?_dropWhile_not isBlank input

end Lexer

/-- A step passes the blanks at the cursor.  It finds the end if nothing is left, and else
recognises the token from the longest viable prefix and stops right behind it. -/
theorem Cursor.step_recognises_longestViable (cursor : Cursor) :
    ∃ blanks rest : Bytes,
      cursor.input.drop cursor.position = blanks ++ rest ∧ Lexer.Blanks blanks ∧
      (∀ octet, rest.head? = some octet → octet ∉ [(0x20 : UInt8), 0x09, 0x0a, 0x0d]) ∧
      let start := cursor.position + blanks.length
      (rest = [] → cursor.step = (⟨.endOfInput, []⟩, ⟨cursor.input, start⟩)) ∧
      (rest ≠ [] → (∃! word, Lexer.LongestViable Lexer.Spells word rest) ∧
        ∀ word, Lexer.LongestViable Lexer.Spells word rest →
          ∃ token, Lexer.Recognises Lexer.Spells word rest token ∧
            cursor.step = (token, ⟨cursor.input, start + token.raw.length⟩)) := by
  refine ⟨cursor.ahead.takeWhile Lexer.isBlank, cursor.ahead.dropWhile Lexer.isBlank,
    List.takeWhile_append_dropWhile.symm, Lexer.blanks_takeWhile _,
    fun _ => Lexer.no_blank_behind_blanks, ?_⟩
  intro start
  have step : cursor.step = (Lexer.firstToken (cursor.ahead.dropWhile Lexer.isBlank),
      ⟨cursor.input,
        start + (Lexer.firstToken (cursor.ahead.dropWhile Lexer.isBlank)).raw.length⟩) := rfl
  constructor
  · intro empty
    rw [step, empty]
    rfl
  · intro nonempty
    obtain ⟨word, isLongest, recognises⟩ :=
      Lexer.scan_recognises (show Lexer.State.start.Live from trivial)
        (cursor.ahead.dropWhile Lexer.isBlank)
    refine ⟨⟨word, isLongest, fun other isOther => isOther.unique isLongest⟩, ?_⟩
    intro other isOther
    rw [isOther.unique isLongest]
    refine ⟨Lexer.scan .start _, recognises, ?_⟩
    rw [step, Lexer.firstToken, if_neg (by simpa using nonempty)]

/-- A point without digits takes the octet after it along. -/
example : (Cursor.start [0x31, 0x2e, 0x5d]).step.1 = ⟨.unknown, [0x31, 0x2e, 0x5d]⟩ := by
  decide

end JsonSieve
