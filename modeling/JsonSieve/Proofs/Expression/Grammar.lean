import JsonSieve.Expression.Reader
import JsonSieve.Expression.Wire
import JsonSieve.Proofs.Expression.Tree
import JsonSieve.Proofs.Fallible
import Mathlib

/-!
# The grammar of written filters

A filter is written as a JSON array of the name of an operator and its arguments.  This file
states the grammar of these arrays as relations: which values are written forms of which
expressions, and which error is due to the first offence in a value that is none.  It then
shows that the reader follows both.

The reader looks at one application of an operator at a time, and so do the relations: an
application is described relative to what is known of the arguments that have to be
expressions themselves.  The levels of nesting appear in the description of offences only,
because a level is missed before anything else is looked at.
-/

namespace JsonSieve

def Arity.Admits : Arity → Nat → Prop
  | .exactly count, found => found = count
  | .atLeastOne, found => 0 < found
  | .any, _ => True

theorem Operator.ofName?_eq_some_iff {name : String} {operator : Operator} :
    Operator.ofName? name = some operator ↔ operator.name = name := by
  constructor
  · intro found
    simpa using List.find?_some found
  · rintro rfl
    exact operator.ofName?_name

theorem Operator.name_injective {first second : Operator} (same : first.name = second.name) :
    first = second := by
  have found := Operator.ofName?_eq_some_iff.mpr same
  rw [second.ofName?_name] at found
  exact (Option.some.inj found).symm

namespace Expression

/-- A JSON number names a slot within the limit. -/
inductive SpellsSlot : Json.Value → Nat → Prop
  | number (slot : Nat) (within : slot ≤ slotLimit) : SpellsSlot (.ofSlot slot) slot

/-- A JSON scalar stands for a constant.  Integers of 64 bits with sign stay integers, and all
other numbers are floating point numbers. -/
inductive SpellsScalar : Json.Value → Scalar → Prop
  | null : SpellsScalar .null .null
  | boolean (value : Bool) : SpellsScalar (.boolean value) (.boolean value)
  | string (text : String) : SpellsScalar (.string text) (.string text)
  | integer (value : Int64) : SpellsScalar (.number (.integer value.toInt)) (.integer value)
  | wideInteger (value : Int) (wide : value < -2 ^ 63 ∨ 2 ^ 63 ≤ value) :
      SpellsScalar (.number (.integer value)) (.float (Binary64.ofInt value))
  | float (value : Binary64) : SpellsScalar (.number (.float value)) (.float value)

/-- The arguments of a field are an optional number for its slot, which is the root slot
otherwise, and the segments of its path. -/
inductive FieldParts : List Json.Value → Nat → List Json.Value → Prop
  | slot {argument : Json.Value} {slot : Nat} (segments : List Json.Value)
      (spells : SpellsSlot argument slot) : FieldParts (argument :: segments) slot segments
  | root (segment : Json.Value) (segments : List Json.Value)
      (noNumber : ∀ number, segment ≠ .number number) :
      FieldParts (segment :: segments) rootSlot (segment :: segments)

/-- Applications of operators to arguments and the expressions that they form, if it is known
which arguments form which parts. -/
inductive Application (part : Json.Value → Expression → Prop) :
    Operator → List Json.Value → Expression → Prop
  | constant (value : Bool) : Application part (.constant value) [] (.constant value)
  | connective (kind : Connective) {arguments : List Json.Value} {children : List Expression}
      (each : List.Forall₂ part arguments children) :
      Application part (.connective kind) arguments (.connective kind children)
  | negation {argument : Json.Value} {inner : Expression} (form : part argument inner) :
      Application part .negation [argument] (.negation inner)
  | comparison (kind : Comparison) {first second : Json.Value} {lhs rhs : Expression}
      (left : part first lhs) (right : part second rhs) :
      Application part (.comparison kind) [first, second] (.comparison kind lhs rhs)
  | field {arguments : List Json.Value} {slot : Nat} {segments : List String}
      (split : FieldParts arguments slot (segments.map .string)) :
      Application part .field arguments (.field slot (String.join segments))
  | literal {argument : Json.Value} {value : Scalar} (spells : SpellsScalar argument value) :
      Application part .literal [argument] (.literal value)
  | quantifier (kind : Quantifier) {first second third : Json.Value} {slot : Nat}
      {source predicate : Expression} (spells : SpellsSlot first slot) (own : slot ≠ rootSlot)
      (left : part second source) (right : part third predicate) :
      Application part (.quantifier kind) [first, second, third]
        (.quantifier kind slot source predicate)

/-- A JSON value is a written form of an expression. -/
inductive WireForm : Json.Value → Expression → Prop
  | application {operator : Operator} {arguments : List Json.Value} {expression : Expression}
      (form : Application WireForm operator arguments expression) :
      WireForm (.array (.string operator.name :: arguments)) expression

/-- The arguments of an operator that have to be expressions, in order, if there is the right
number of arguments and the slot that the operator fills is in order. -/
inductive Operands : Operator → List Json.Value → List Json.Value → Prop
  | connective (kind : Connective) (arguments : List Json.Value) :
      Operands (.connective kind) arguments arguments
  | negation (argument : Json.Value) : Operands .negation [argument] [argument]
  | comparison (kind : Comparison) (first second : Json.Value) :
      Operands (.comparison kind) [first, second] [first, second]
  | quantifier (kind : Quantifier) {first : Json.Value} (second third : Json.Value) {slot : Nat}
      (spells : SpellsSlot first slot) (own : slot ≠ rootSlot) :
      Operands (.quantifier kind) [first, second, third] [second, third]

/-- Applications of operators and the errors of their first offences, given which arguments form
expressions.  The number of arguments comes first, then a slot, then the arguments from left to
right. -/
inductive Refusal (forms : Json.Value → Prop) (offends : Json.Value → FilterError → Prop) :
    Operator → List Json.Value → FilterError → Prop
  | arity (operator : Operator) {arguments : List Json.Value}
      (wrong : ¬ operator.arity.Admits arguments.length) :
      Refusal forms offends operator arguments
        (.wrongArity operator.name operator.arity arguments.length)
  | fieldSlot {number : Json.Number} (segments : List Json.Value)
      (noSlot : ∀ slot, ¬ SpellsSlot (.number number) slot) :
      Refusal forms offends .field (.number number :: segments)
        (.invalidArgument Operator.field.name (.slot (Json.Value.number number).text))
  | pathSegment {arguments : List Json.Value} {slot : Nat} {before : List String}
      {segment : Json.Value} {after : List Json.Value}
      (split : FieldParts arguments slot (before.map .string ++ segment :: after))
      (noText : ∀ text, segment ≠ .string text) :
      Refusal forms offends .field arguments
        (.invalidArgument Operator.field.name (.pathSegment segment.text))
  | scalar {argument : Json.Value} (noScalar : ∀ value, ¬ SpellsScalar argument value) :
      Refusal forms offends .literal [argument]
        (.invalidArgument Operator.literal.name (.scalar argument.text))
  | quantifierSlot (kind : Quantifier) {first : Json.Value} (second third : Json.Value)
      (noSlot : ∀ slot, ¬ SpellsSlot first slot) :
      Refusal forms offends (.quantifier kind) [first, second, third]
        (.invalidArgument (Operator.quantifier kind).name (.slot first.text))
  | reservedSlot (kind : Quantifier) {first : Json.Value} (second third : Json.Value)
      (spells : SpellsSlot first rootSlot) :
      Refusal forms offends (.quantifier kind) [first, second, third]
        (.invalidArgument (Operator.quantifier kind).name .reservedSlot)
  | operand {operator : Operator} {arguments before : List Json.Value} {argument : Json.Value}
      {after : List Json.Value} {error : FilterError}
      (operands : Operands operator arguments (before ++ argument :: after))
      (sound : ∀ earlier ∈ before, forms earlier) (offence : offends argument error) :
      Refusal forms offends operator arguments error

/-- The first offence of a JSON value for which there is a level: the lack of an operator, then a
name of no operator, then an offence in the application of the operator. -/
inductive Offence (forms : Json.Value → Prop) (offends : Json.Value → FilterError → Prop) :
    Json.Value → FilterError → Prop
  | shape {value : Json.Value}
      (noOperator : ∀ name arguments, value ≠ .array (.string name :: arguments)) :
      Offence forms offends value (.notAnExpression value.text)
  | operator {name : String} (arguments : List Json.Value)
      (unknown : ∀ operator : Operator, operator.name ≠ name) :
      Offence forms offends (.array (.string name :: arguments)) (.unknownOperator name)
  | application {operator : Operator} {arguments : List Json.Value} {error : FilterError}
      (refusal : Refusal forms offends operator arguments error) :
      Offence forms offends (.array (.string operator.name :: arguments)) error

/-- The first offence of a JSON value that is read as a filter with so many levels left.  The lack
of a level comes before everything else. -/
def FirstOffence : (levels : Nat) → Json.Value → FilterError → Prop
  | 0, _, error => error = .tooDeep depthLimit
  | levels + 1, value, error =>
      Offence (fun argument => ∃ part, WireForm argument part ∧ part.depth ≤ levels)
        (FirstOffence levels) value error

theorem readSlot_eq_ok_iff {operator : Operator} {argument : Json.Value} {slot : Nat} :
    readSlot operator argument = .ok slot ↔ SpellsSlot argument slot := by
  constructor
  · intro read
    unfold readSlot at read
    split at read
    · rename_i value
      split at read
      · rename_i inRange
        obtain ⟨natural, rfl⟩ := Int.eq_ofNat_of_zero_le inRange.1
        cases read
        exact .number natural (by simpa using inRange.2)
      · cases read
    · cases read
  · rintro ⟨slot, within⟩
    simp [readSlot, Json.Value.ofSlot, within]

theorem readSlot_eq_error_iff {operator : Operator} {argument : Json.Value}
    {error : FilterError} :
    readSlot operator argument = .error error ↔
      (∀ slot, ¬ SpellsSlot argument slot) ∧
        error = .invalidArgument operator.name (.slot argument.text) := by
  have complaint : ∀ error, readSlot operator argument = .error error →
      error = .invalidArgument operator.name (.slot argument.text) := by
    intro error read
    unfold readSlot at read
    grind
  cases read : readSlot operator argument with
  | ok slot =>
      have spells := readSlot_eq_ok_iff.mp read
      simp only [reduceCtorEq, false_iff, not_and]
      intro noSlot
      exact absurd spells (noSlot slot)
  | error actual =>
      have noSlot : ∀ slot, ¬ SpellsSlot argument slot := by
        intro slot spells
        rw [readSlot_eq_ok_iff.mpr spells] at read
        cases read
      simp only [Except.error.injEq, complaint actual read]
      exact ⟨fun equal => ⟨noSlot, equal.symm⟩, fun both => both.2.symm⟩

theorem ofJson?_eq_some_iff {argument : Json.Value} {value : Scalar} :
    Scalar.ofJson? argument = some value ↔ SpellsScalar argument value := by
  constructor
  · intro read
    cases argument with
    | null => cases read; exact .null
    | boolean value => cases read; exact .boolean value
    | string text => cases read; exact .string text
    | array items => cases read
    | object members => cases read
    | number number =>
        cases number with
        | float value => cases read; exact .float value
        | integer value =>
            simp only [Scalar.ofJson?, Scalar.ofNumber, Int64.toInt_minValue, Int64.toInt_maxValue,
              Option.some.injEq] at read
            split at read
            · rename_i inRange
              subst read
              have exact_value : (Int64.ofInt value).toInt = value :=
                Int64.toInt_ofInt_of_le inRange.1 (Int.lt_of_le_sub_one inRange.2)
              simpa only [exact_value] using SpellsScalar.integer (Int64.ofInt value)
            · subst read
              exact .wideInteger value (by omega)
  · intro spells
    cases spells with
    | integer value =>
        have inRange : -2 ^ 63 ≤ value.toInt ∧ value.toInt ≤ 2 ^ 63 - 1 :=
          ⟨value.le_toInt, Int.le_sub_one_of_lt value.toInt_lt⟩
        simp only [Scalar.ofJson?, Scalar.ofNumber, Int64.toInt_minValue, Int64.toInt_maxValue,
          if_pos inRange, Int64.ofInt_toInt]
    | wideInteger value wide =>
        have outOfRange : ¬ (-2 ^ 63 ≤ value ∧ value ≤ 2 ^ 63 - 1) := by omega
        simp only [Scalar.ofJson?, Scalar.ofNumber, Int64.toInt_minValue, Int64.toInt_maxValue,
          if_neg outOfRange]
    | _ => rfl

theorem readPath_strings (texts : List String) :
    readPath (texts.map .string) = .ok (String.join texts) := by
  induction texts with
  | nil => rfl
  | cons text texts ih => simp [readPath, ih, Except.map, String.join_cons]

theorem readPath_notString (before : List String) {segment : Json.Value}
    (after : List Json.Value) (noText : ∀ text, segment ≠ .string text) :
    readPath (before.map .string ++ segment :: after) =
      .error (.invalidArgument Operator.field.name (.pathSegment segment.text)) := by
  induction before with
  | nil =>
      cases segment with
      | string text => exact absurd rfl (noText text)
      | _ => rfl
  | cons text before ih => simp [readPath, ih, Except.map]

theorem segments_cases (segments : List Json.Value) :
    (∃ texts : List String, segments = texts.map .string) ∨
      ∃ (before : List String) (segment : Json.Value) (after : List Json.Value),
        segments = before.map .string ++ segment :: after ∧ ∀ text, segment ≠ .string text := by
  induction segments with
  | nil => exact Or.inl ⟨[], rfl⟩
  | cons segment segments ih =>
      by_cases isText : ∃ text, segment = .string text
      · obtain ⟨text, rfl⟩ := isText
        rcases ih with ⟨texts, rfl⟩ | ⟨before, other, after, rfl, noText⟩
        · exact Or.inl ⟨text :: texts, rfl⟩
        · exact Or.inr ⟨text :: before, other, after, rfl, noText⟩
      · exact Or.inr ⟨[], segment, segments, rfl, fun text equal => isText ⟨text, equal⟩⟩

theorem readField_of_fieldParts {arguments segments : List Json.Value} {slot : Nat}
    (split : FieldParts arguments slot segments) :
    readField arguments = (readPath segments).map (.field slot) := by
  cases split with
  | slot segments spells =>
      obtain ⟨slot, within⟩ := spells
      have read : readSlot .field (.ofSlot slot) = .ok slot :=
        readSlot_eq_ok_iff.mpr (.number slot within)
      simp only [Json.Value.ofSlot] at read
      simp only [Json.Value.ofSlot, readField, read]
      cases readPath segments <;> rfl
  | root segment segments noNumber =>
      cases segment with
      | number number => exact absurd rfl (noNumber number)
      | _ =>
          simp only [readField]
          cases readPath (_ :: segments) <;> rfl

theorem ofArguments_of_fieldParts {child : Json.Value → Except FilterError Expression}
    {arguments segments : List Json.Value} {slot : Nat}
    (split : FieldParts arguments slot segments) :
    ofArguments child .field arguments = readField arguments := by
  cases split <;> rfl

theorem fieldParts_cases (argument : Json.Value) (arguments : List Json.Value) :
    (∃ slot segments, FieldParts (argument :: arguments) slot segments) ∨
      ∃ number, argument = .number number ∧ ∀ slot, ¬ SpellsSlot (.number number) slot := by
  by_cases isNumber : ∃ number, argument = .number number
  · obtain ⟨number, rfl⟩ := isNumber
    by_cases isSlot : ∃ slot, SpellsSlot (.number number) slot
    · obtain ⟨slot, spells⟩ := isSlot
      exact Or.inl ⟨slot, arguments, .slot arguments spells⟩
    · exact Or.inr ⟨number, rfl, fun slot spells => isSlot ⟨slot, spells⟩⟩
  · exact Or.inl ⟨rootSlot, argument :: arguments,
      .root argument arguments fun number equal => isNumber ⟨number, equal⟩⟩

/-- An application whose operands are known is read by reading the operands in order. -/
theorem exists_ofArguments_eq_map {operator : Operator} {arguments operands : List Json.Value}
    (form : Operands operator arguments operands) :
    ∃ build : List Expression → Expression, ∀ child,
      ofArguments child operator arguments = (operands.mapM child).map build := by
  cases form with
  | connective kind arguments =>
      refine ⟨.connective kind, fun child => ?_⟩
      rw [ofArguments]
      cases arguments.mapM child <;> rfl
  | negation argument =>
      refine ⟨fun parts => .negation (parts.headD (.constant false)), fun child => ?_⟩
      rw [ofArguments, List.mapM_cons]
      cases child argument <;> rfl
  | comparison kind first second =>
      refine ⟨fun parts => .comparison kind (parts.headD (.constant false))
        (parts.tail.headD (.constant false)), fun child => ?_⟩
      rw [ofArguments, List.mapM_cons, List.mapM_cons]
      cases child first with
      | error error => rfl
      | ok lhs => cases child second <;> rfl
  | quantifier kind second third spells own =>
      rename_i first slot
      refine ⟨fun parts => .quantifier kind slot (parts.headD (.constant false))
        (parts.tail.headD (.constant false)), fun child => ?_⟩
      have read : readOwnSlot kind first = .ok slot := by
        rw [readOwnSlot, readSlot_eq_ok_iff.mpr spells]
        exact if_neg own
      rw [ofArguments, read, List.mapM_cons, List.mapM_cons]
      cases child second with
      | error error => rfl
      | ok source => cases child third <;> rfl

theorem readOwnSlot_eq_ok_iff {kind : Quantifier} {argument : Json.Value} {slot : Nat} :
    readOwnSlot kind argument = .ok slot ↔ SpellsSlot argument slot ∧ slot ≠ rootSlot := by
  rw [readOwnSlot, Fallible.bind_eq_ok_iff]
  constructor
  · rintro ⟨found, read, checked⟩
    split at checked
    · cases checked
    · rename_i own
      cases checked
      exact ⟨readSlot_eq_ok_iff.mp read, own⟩
  · rintro ⟨spells, own⟩
    exact ⟨slot, readSlot_eq_ok_iff.mpr spells, if_neg own⟩

/-- The reader accepts an application of an operator exactly with the expression that its arguments
form. -/
theorem ofArguments_eq_ok_iff {child : Json.Value → Except FilterError Expression}
    {operator : Operator} {arguments : List Json.Value} {expression : Expression} :
    ofArguments child operator arguments = .ok expression ↔
      Application (fun argument part => child argument = .ok part) operator arguments
        expression := by
  constructor
  · intro read
    unfold ofArguments at read
    split at read
    · cases read
      exact .constant _
    · obtain ⟨children, each, built⟩ := Fallible.bind_eq_ok_iff.mp read
      cases built
      exact .connective _ (Fallible.mapM_eq_ok_iff.mp each)
    · obtain ⟨inner, form, built⟩ := Fallible.bind_eq_ok_iff.mp read
      cases built
      exact .negation form
    · obtain ⟨lhs, left, read⟩ := Fallible.bind_eq_ok_iff.mp read
      obtain ⟨rhs, right, built⟩ := Fallible.bind_eq_ok_iff.mp read
      cases built
      exact .comparison _ left right
    · rename_i argument arguments
      rcases fieldParts_cases argument arguments with
        ⟨slot, segments, split⟩ | ⟨number, rfl, noSlot⟩
      · rw [readField_of_fieldParts split] at read
        rcases segments_cases segments with ⟨texts, rfl⟩ | ⟨before, segment, after, rfl, noText⟩
        · rw [readPath_strings] at read
          cases read
          exact .field split
        · rw [readPath_notString before after noText] at read
          cases read
      · rw [readField, readSlot_eq_error_iff.mpr ⟨noSlot, rfl⟩] at read
        cases read
    · rename_i argument
      split at read
      · rename_i value spells
        cases read
        exact .literal (ofJson?_eq_some_iff.mp spells)
      · cases read
    · obtain ⟨slot, own, read⟩ := Fallible.bind_eq_ok_iff.mp read
      obtain ⟨source, left, read⟩ := Fallible.bind_eq_ok_iff.mp read
      obtain ⟨predicate, right, built⟩ := Fallible.bind_eq_ok_iff.mp read
      cases built
      have spells := readOwnSlot_eq_ok_iff.mp own
      exact .quantifier _ spells.1 spells.2 left right
    · cases read
  · intro form
    cases form with
    | constant value => rfl
    | connective kind each =>
        exact Fallible.bind_eq_ok_iff.mpr ⟨_, Fallible.mapM_eq_ok_iff.mpr each, rfl⟩
    | negation form => exact Fallible.bind_eq_ok_iff.mpr ⟨_, form, rfl⟩
    | comparison kind left right =>
        exact Fallible.bind_eq_ok_iff.mpr
          ⟨_, left, Fallible.bind_eq_ok_iff.mpr ⟨_, right, rfl⟩⟩
    | field split =>
        have read := readField_of_fieldParts split
        rw [readPath_strings] at read
        rw [ofArguments_of_fieldParts split, read]
        rfl
    | literal spells =>
        simp only [ofArguments, ofJson?_eq_some_iff.mpr spells]
        rfl
    | quantifier kind spells own left right =>
        exact Fallible.bind_eq_ok_iff.mpr ⟨_, readOwnSlot_eq_ok_iff.mpr ⟨spells, own⟩,
          Fallible.bind_eq_ok_iff.mpr ⟨_, left, Fallible.bind_eq_ok_iff.mpr ⟨_, right, rfl⟩⟩⟩

theorem ofArguments_of_not_admits {child : Json.Value → Except FilterError Expression}
    {operator : Operator} {arguments : List Json.Value}
    (wrong : ¬ operator.arity.Admits arguments.length) :
    ofArguments child operator arguments =
      .error (.wrongArity operator.name operator.arity arguments.length) := by
  unfold ofArguments
  split
  case h_8 => rfl
  all_goals simp [Operator.arity, Arity.Admits] at wrong

theorem refusal_of_operands {child : Json.Value → Except FilterError Expression}
    {operator : Operator} {arguments operands : List Json.Value} {error : FilterError}
    (form : Operands operator arguments operands)
    (failed : ofArguments child operator arguments = .error error) :
    Refusal (fun argument => ∃ part, child argument = .ok part)
      (fun argument error => child argument = .error error) operator arguments error := by
  obtain ⟨build, read⟩ := exists_ofArguments_eq_map form
  rw [read] at failed
  cases each : operands.mapM child with
  | ok parts =>
      rw [each] at failed
      cases failed
  | error first =>
      rw [each] at failed
      cases failed
      obtain ⟨before, argument, after, rfl, sound, offence⟩ :=
        Fallible.mapM_eq_error_iff.mp each
      exact .operand form sound offence

/-- The reader refuses an application of an operator exactly with the error of its first
offence. -/
theorem ofArguments_eq_error_iff {child : Json.Value → Except FilterError Expression}
    {operator : Operator} {arguments : List Json.Value} {error : FilterError} :
    ofArguments child operator arguments = .error error ↔
      Refusal (fun argument => ∃ part, child argument = .ok part)
        (fun argument error => child argument = .error error) operator arguments error := by
  constructor
  · intro failed
    by_cases admits : operator.arity.Admits arguments.length
    · cases operator with
      | constant value =>
          obtain rfl : arguments = [] := List.length_eq_zero_iff.mp admits
          cases failed
      | connective kind => exact refusal_of_operands (.connective kind arguments) failed
      | negation =>
          obtain ⟨argument, rfl⟩ := List.length_eq_one_iff.mp admits
          exact refusal_of_operands (.negation argument) failed
      | comparison kind =>
          obtain ⟨first, second, rfl⟩ := List.length_eq_two.mp admits
          exact refusal_of_operands (.comparison kind first second) failed
      | field =>
          obtain ⟨argument, arguments, rfl⟩ := List.exists_cons_of_length_pos admits
          rcases fieldParts_cases argument arguments with
            ⟨slot, segments, split⟩ | ⟨number, rfl, noSlot⟩
          · rw [ofArguments_of_fieldParts split, readField_of_fieldParts split] at failed
            rcases segments_cases segments with
              ⟨texts, rfl⟩ | ⟨before, segment, after, rfl, noText⟩
            · rw [readPath_strings] at failed
              cases failed
            · rw [readPath_notString before after noText] at failed
              cases failed
              exact .pathSegment split noText
          · rw [ofArguments, readField, readSlot_eq_error_iff.mpr ⟨noSlot, rfl⟩] at failed
            cases failed
            exact .fieldSlot arguments noSlot
      | literal =>
          obtain ⟨argument, rfl⟩ := List.length_eq_one_iff.mp admits
          rw [ofArguments] at failed
          split at failed
          · cases failed
          · rename_i noValue
            cases failed
            refine .scalar fun value spells => ?_
            rw [ofJson?_eq_some_iff.mpr spells] at noValue
            cases noValue
      | quantifier kind =>
          obtain ⟨first, second, third, rfl⟩ := List.length_eq_three.mp admits
          by_cases spells : ∃ slot, SpellsSlot first slot
          · obtain ⟨slot, spells⟩ := spells
            by_cases own : slot = rootSlot
            · subst own
              rw [ofArguments, readOwnSlot, readSlot_eq_ok_iff.mpr spells] at failed
              cases failed
              exact .reservedSlot kind second third spells
            · exact refusal_of_operands (.quantifier kind second third spells own) failed
          · have noSlot : ∀ slot, ¬ SpellsSlot first slot :=
              fun slot spelled => spells ⟨slot, spelled⟩
            rw [ofArguments, readOwnSlot, readSlot_eq_error_iff.mpr ⟨noSlot, rfl⟩] at failed
            cases failed
            exact .quantifierSlot kind second third noSlot
    · rw [ofArguments_of_not_admits admits] at failed
      cases failed
      exact .arity operator admits
  · intro refusal
    cases refusal with
    | arity operator wrong => exact ofArguments_of_not_admits wrong
    | fieldSlot segments noSlot =>
        rw [ofArguments, readField, readSlot_eq_error_iff.mpr ⟨noSlot, rfl⟩]
        rfl
    | pathSegment split noText =>
        rw [ofArguments_of_fieldParts split, readField_of_fieldParts split,
          readPath_notString _ _ noText]
        rfl
    | scalar noScalar =>
        rename_i argument
        cases read : Scalar.ofJson? argument with
        | some value => exact absurd (ofJson?_eq_some_iff.mp read) (noScalar value)
        | none => simp only [ofArguments, read]
    | quantifierSlot kind second third noSlot =>
        rw [ofArguments, readOwnSlot, readSlot_eq_error_iff.mpr ⟨noSlot, rfl⟩]
        rfl
    | reservedSlot kind second third spells =>
        rw [ofArguments, readOwnSlot, readSlot_eq_ok_iff.mpr spells]
        rfl
    | operand form sound offence =>
        obtain ⟨build, read⟩ := exists_ofArguments_eq_map form
        rw [read, Fallible.mapM_eq_error_iff.mpr ⟨_, _, _, rfl, sound, offence⟩]
        rfl

theorem wireForm_application_iff {operator : Operator} {arguments : List Json.Value}
    {expression : Expression} :
    WireForm (.array (.string operator.name :: arguments)) expression ↔
      Application WireForm operator arguments expression := by
  constructor
  · intro form
    generalize equal : Json.Value.array (.string operator.name :: arguments) = value at form
    cases form with
    | application form =>
        simp only [Json.Value.array.injEq, List.cons.injEq, Json.Value.string.injEq] at equal
        obtain ⟨same, rfl⟩ := equal
        rwa [Operator.name_injective same]
  · exact .application

theorem offence_application_iff {forms : Json.Value → Prop}
    {offends : Json.Value → FilterError → Prop} {operator : Operator}
    {arguments : List Json.Value} {error : FilterError} :
    Offence forms offends (.array (.string operator.name :: arguments)) error ↔
      Refusal forms offends operator arguments error := by
  constructor
  · intro offence
    generalize equal : Json.Value.array (.string operator.name :: arguments) = value at offence
    cases offence with
    | shape noOperator => exact absurd equal.symm (noOperator operator.name arguments)
    | operator arguments unknown =>
        simp only [Json.Value.array.injEq, List.cons.injEq, Json.Value.string.injEq] at equal
        exact absurd equal.1 (unknown operator)
    | application refusal =>
        simp only [Json.Value.array.injEq, List.cons.injEq, Json.Value.string.injEq] at equal
        obtain ⟨same, rfl⟩ := equal
        rwa [Operator.name_injective same]
  · exact .application

private theorem forall₂_and_right {Left Right : Type} {related : Left → Right → Prop}
    {holds : Right → Prop} {lefts : List Left} {rights : List Right} :
    List.Forall₂ (fun left right => related left right ∧ holds right) lefts rights ↔
      List.Forall₂ related lefts rights ∧ ∀ right ∈ rights, holds right := by
  induction lefts generalizing rights with
  | nil => cases rights <;> simp
  | cons left lefts ih =>
      cases rights with
      | nil => simp
      | cons right rights => simp [ih, and_assoc, and_left_comm]

theorem application_within_iff {levels : Nat} {operator : Operator}
    {arguments : List Json.Value} {expression : Expression} :
    Application (fun argument part => WireForm argument part ∧ part.depth ≤ levels) operator
        arguments expression ↔
      Application WireForm operator arguments expression ∧ expression.depth ≤ levels + 1 := by
  rw [depth_le_succ_iff]
  constructor
  · intro form
    cases form with
    | constant value => exact ⟨.constant value, by simp [parts]⟩
    | connective kind each =>
        obtain ⟨each, within⟩ := forall₂_and_right.mp each
        exact ⟨.connective kind each, within⟩
    | negation form => exact ⟨.negation form.1, by simpa [parts] using form.2⟩
    | comparison kind left right =>
        exact ⟨.comparison kind left.1 right.1, by simpa [parts] using ⟨left.2, right.2⟩⟩
    | field split => exact ⟨.field split, by simp [parts]⟩
    | literal spells => exact ⟨.literal spells, by simp [parts]⟩
    | quantifier kind spells own left right =>
        exact ⟨.quantifier kind spells own left.1 right.1,
          by simpa [parts] using ⟨left.2, right.2⟩⟩
  · rintro ⟨form, within⟩
    cases form with
    | constant value => exact .constant value
    | connective kind each => exact .connective kind (forall₂_and_right.mpr ⟨each, within⟩)
    | negation form => exact .negation ⟨form, within _ (by simp [parts])⟩
    | comparison kind left right =>
        exact .comparison kind ⟨left, within _ (by simp [parts])⟩
          ⟨right, within _ (by simp [parts])⟩
    | field split => exact .field split
    | literal spells => exact .literal spells
    | quantifier kind spells own left right =>
        exact .quantifier kind spells own ⟨left, within _ (by simp [parts])⟩
          ⟨right, within _ (by simp [parts])⟩

/-- With so many levels the reader accepts exactly the written forms of expressions within them,
and refuses every other value with the error of its first offence. -/
theorem ofJson_iff (levels : Nat) (value : Json.Value) :
    (∀ expression, ofJson levels value = .ok expression ↔
      WireForm value expression ∧ expression.depth ≤ levels) ∧
    ∀ error, ofJson levels value = .error error ↔ FirstOffence levels value error := by
  induction levels generalizing value with
  | zero =>
      constructor
      · intro expression
        have positive := expression.depth_pos
        simp only [ofJson, reduceCtorEq, false_iff, not_and]
        omega
      · intro error
        simp only [ofJson, FirstOffence, Except.error.injEq, eq_comm]
  | succ levels ih =>
      by_cases shape : ∃ name arguments, value = .array (.string name :: arguments)
      · obtain ⟨name, arguments, rfl⟩ := shape
        cases found : Operator.ofName? name with
        | none =>
            have unknown : ∀ operator : Operator, operator.name ≠ name := by
              intro operator equal
              rw [Operator.ofName?_eq_some_iff.mpr equal] at found
              cases found
            constructor
            · intro expression
              simp only [ofJson, found, reduceCtorEq, false_iff, not_and]
              rintro ⟨form⟩
              exact absurd rfl (unknown _)
            · intro error
              simp only [ofJson, found, FirstOffence, Except.error.injEq]
              constructor
              · rintro rfl
                exact .operator arguments unknown
              · intro offence
                cases offence with
                | shape noOperator => exact absurd rfl (noOperator name arguments)
                | operator arguments unknown => rfl
                | application refusal => exact absurd rfl (unknown _)
        | some operator =>
            obtain rfl := Operator.ofName?_eq_some_iff.mp found
            constructor
            · intro expression
              simp only [ofJson, found, ofArguments_eq_ok_iff, fun value => (ih value).1,
                wireForm_application_iff, application_within_iff]
            · intro error
              simp only [ofJson, found, ofArguments_eq_error_iff, fun value => (ih value).1,
                fun value => (ih value).2, FirstOffence, offence_application_iff]
      · have noOperator : ∀ name arguments, value ≠ .array (.string name :: arguments) :=
          fun name arguments equal => shape ⟨name, arguments, equal⟩
        have refused : ofJson (levels + 1) value = .error (.notAnExpression value.text) := by
          rw [ofJson]
          exact noOperator
        constructor
        · intro expression
          rw [refused]
          simp only [reduceCtorEq, false_iff, not_and]
          rintro ⟨form⟩
          exact absurd rfl (noOperator _ _)
        · intro error
          rw [refused, Except.error.injEq]
          constructor
          · rintro rfl
            exact .shape noOperator
          · intro offence
            cases offence with
            | shape _ => rfl
            | operator arguments _ => exact absurd rfl (noOperator _ _)
            | application refusal => exact absurd rfl (noOperator _ _)

theorem exists_wireForm_of_forall₂ {arguments : List Json.Value} {children : List Expression}
    (each : List.Forall₂ WireForm arguments children) :
    ∀ child ∈ children, ∃ argument, WireForm argument child :=
  (forall₂_and_right.mp (each.imp fun argument _ form => ⟨form, argument, form⟩)).2

theorem slot_le_of_fieldParts {arguments segments : List Json.Value} {slot : Nat}
    (split : FieldParts arguments slot segments) : slot ≤ slotLimit := by
  cases split with
  | slot segments spells =>
      obtain ⟨slot, within⟩ := spells
      exact within
  | root segment segments noNumber => exact Nat.zero_le _

theorem slots_of_wireForm {value : Json.Value} {expression : Expression}
    (form : WireForm value expression) :
    expression.highestSlot ≤ slotLimit ∧ expression.KeepsRoot := by
  induction expression generalizing value with
  | constant constant =>
      exact ⟨Nat.zero_le _, keepsRoot_iff.mpr ⟨by simp, by simp [parts]⟩⟩
  | literal literal =>
      exact ⟨Nat.zero_le _, keepsRoot_iff.mpr ⟨by simp, by simp [parts]⟩⟩
  | field slot path =>
      refine ⟨?_, keepsRoot_iff.mpr ⟨by simp, by simp [parts]⟩⟩
      cases form with
      | application form =>
          cases form with
          | field split => exact slot_le_of_fieldParts split
  | connective kind children ih =>
      cases form with
      | application form =>
          cases form with
          | connective kind each =>
              have inChildren : ∀ child ∈ children,
                  child.highestSlot ≤ slotLimit ∧ child.KeepsRoot := by
                intro child member
                obtain ⟨argument, form⟩ := exists_wireForm_of_forall₂ each child member
                exact ih child member form
              exact ⟨highestSlotAmong_le_iff.mpr fun child member => (inChildren child member).1,
                keepsRoot_iff.mpr ⟨by simp, fun child member => (inChildren child member).2⟩⟩
  | negation inner ih =>
      cases form with
      | application form =>
          cases form with
          | negation form =>
              obtain ⟨slots, keeps⟩ := ih form
              exact ⟨slots, keepsRoot_iff.mpr ⟨by simp, by simpa [parts] using keeps⟩⟩
  | comparison kind lhs rhs lhsIH rhsIH =>
      cases form with
      | application form =>
          cases form with
          | comparison kind left right =>
              obtain ⟨leftSlots, leftKeeps⟩ := lhsIH left
              obtain ⟨rightSlots, rightKeeps⟩ := rhsIH right
              exact ⟨Nat.max_le.mpr ⟨leftSlots, rightSlots⟩,
                keepsRoot_iff.mpr ⟨by simp, by simp [parts, leftKeeps, rightKeeps]⟩⟩
  | quantifier kind slot source predicate sourceIH predicateIH =>
      cases form with
      | application form =>
          cases form with
          | quantifier kind spells own left right =>
              obtain ⟨slot, within⟩ := spells
              obtain ⟨leftSlots, leftKeeps⟩ := sourceIH left
              obtain ⟨rightSlots, rightKeeps⟩ := predicateIH right
              exact ⟨Nat.max_le.mpr ⟨within, Nat.max_le.mpr ⟨leftSlots, rightSlots⟩⟩,
                keepsRoot_iff.mpr ⟨by simp [own], by simp [parts, leftKeeps, rightKeeps]⟩⟩

theorem bounds_of_ofValue {value : Json.Value} {expression : Expression}
    (read : ofValue value = .ok expression) :
    expression.depth ≤ depthLimit ∧ expression.highestSlot ≤ slotLimit ∧ expression.KeepsRoot := by
  obtain ⟨form, within⟩ := ((ofJson_iff depthLimit value).1 expression).mp read
  exact ⟨within, slots_of_wireForm form⟩

/-- A value is accepted exactly if it is a written form with at most 64 levels, and refused with the
error of its first offence.  What is accepted keeps the limits and the root slot. -/
theorem ofValue_follows_grammar (value : Json.Value) :
    (∀ expression, ofValue value = .ok expression ↔
      WireForm value expression ∧ expression.depth ≤ 64) ∧
    (∀ error, ofValue value = .error error ↔ FirstOffence 64 value error) ∧
    ∀ expression, ofValue value = .ok expression →
      expression.depth ≤ 64 ∧ expression.highestSlot ≤ 64 ∧ expression.KeepsRoot := by
  obtain ⟨accepts, refuses⟩ := ofJson_iff depthLimit value
  exact ⟨accepts, refuses, fun expression read => bounds_of_ofValue read⟩

/-- Operators by their names, and slots at both ends of their range. -/
example : ofValue (.array [.string "everyin", .number (.integer 64),
    .array [.string "field", .string "xs"],
    .array [.string "or",
      .array [.string "anyin", .number (.integer 1),
        .array [.string "field", .number (.integer 64)],
        .array [.string "lessthan", .array [.string "field", .number (.integer 1)],
          .array [.string "value", .number (.integer 3)]]],
      .array [.string "and", .array [.string "not", .array [.string "true"]]]]]) =
    .ok (.quantifier .every 64 (.field 0 "xs") (.connective .disjunction [
      .quantifier .any 1 (.field 64 "") (.comparison .less (.field 1 "") (.literal (.integer 3))),
      .connective .conjunction [.negation (.constant true)]])) := by
  cbv

end Expression

end JsonSieve
