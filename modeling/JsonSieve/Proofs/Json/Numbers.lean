import JsonSieve.Proofs.Json.Float
import JsonSieve.Proofs.Json.RoundTrip

/-!
# The numbers in values that are read

An integer that is read fits into 64 bits, with sign or without, and a floating point number that is
read is finite.  This holds of every number in a value that is read, and in its settled form.
-/

namespace JsonSieve.Json

/-- Numbers as they are read: integers of 64 bits, with sign or without, and finite floating point
numbers. -/
def Number.Readable : Number → Prop
  | .integer value => -2 ^ 63 ≤ value ∧ value < 2 ^ 64
  | .float value => value.isFinite

namespace Numeral

variable {numeral : Numeral}

theorem appendDigits_lt {significand : Nat} (within : significand < significandBound)
    (digits : List Char) : (appendDigits significand digits).1 < significandBound := by
  induction digits generalizing significand with
  | nil => exact within
  | cons digit digits ih =>
      rw [appendDigits]
      split
      · next small => exact ih small
      · exact within

theorem readable_of_integer? {value : Int} (read : numeral.integer? = some value) :
    (Number.integer value).Readable := by
  have small := appendDigits_lt (by decide : 0 < significandBound) numeral.whole
  have bound : significandBound = 2 ^ 64 := rfl
  rw [Number.Readable]
  grind [integer?]

theorem isFinite_of_scaled? {significand : Nat} (within : significand < significandBound)
    {exponent : Int} {magnitude : Binary64} (read : scaled? significand exponent = some magnitude) :
    magnitude.isFinite := by
  have finite := Binary64.isFinite_ofNat within.le
  unfold scaled? at read
  dsimp only at read
  split at read
  · cases read
    exact isFinite_dividedByPower finite _
  · split at read
    · split at read
      · next product =>
          cases read
          exact product
      · cases read
    · split at read
      · cases read
        exact finite
      · cases read

theorem isFinite_of_magnitude? {magnitude : Binary64}
    (read : numeral.magnitude? = some magnitude) : magnitude.isFinite := by
  have whole := appendDigits_lt (by decide : 0 < significandBound) numeral.whole
  have significand := appendDigits_lt whole numeral.fraction
  unfold magnitude? at read
  dsimp only at read
  split at read
  · exact isFinite_of_scaled? significand read
  · split at read
    · exact isFinite_of_scaled? significand read
    · split at read
      · cases read
        decide
      · cases read

theorem readable_of_value? {number : Number} (read : numeral.value? = some number) :
    number.Readable := by
  rw [value?] at read
  split at read
  · next value isInteger =>
      cases read
      exact readable_of_integer? isInteger
  · obtain ⟨magnitude, isMagnitude, rfl⟩ := Option.map_eq_some_iff.mp read
    have finite := isFinite_of_magnitude? isMagnitude
    rw [Number.Readable]
    split
    · exact finite
    · exact finite

end Numeral

inductive Value.Readable : Value → Prop
  | null : Readable .null
  | boolean (value : Bool) : Readable (.boolean value)
  | number {value : Number} (readable : value.Readable) : Readable (.number value)
  | string (text : String) : Readable (.string text)
  | array {items : List Value} (each : ∀ item ∈ items, Readable item) : Readable (.array items)
  | object {members : List (String × Value)} (each : ∀ member ∈ members, Readable member.2) :
      Readable (.object members)

namespace Reader

/-- Within so much fuel only values are read whose numbers can be read. -/
def ReadableValues (fuel : Nat) : Prop :=
  ∀ {levels input value rest}, readValue? fuel levels input = some (value, rest) → value.Readable

def ReadableItems (fuel : Nat) : Prop :=
  ∀ {levels input items rest}, readItems? fuel levels input = some (items, rest) →
    ∀ item ∈ items, item.Readable

def ReadableMembers (fuel : Nat) : Prop :=
  ∀ {levels input members rest}, readMembers? fuel levels input = some (members, rest) →
    ∀ member ∈ members, member.2.Readable

variable {fuel : Nat}

theorem readableItems_succ (values : ReadableValues fuel) (others : ReadableItems fuel) :
    ReadableItems (fuel + 1) := by
  intro levels input items rest read
  simp only [readItems?, Option.bind_eq_bind, Option.bind_eq_some_iff, Prod.exists] at read
  obtain ⟨item, after, readItem, read⟩ := read
  split at read
  · cases read
    exact List.forall_mem_singleton.mpr (values readItem)
  · simp only [Option.bind_eq_some_iff, Prod.exists] at read
    obtain ⟨further, afterItems, readItems, read⟩ := read
    cases read
    exact List.forall_mem_cons.mpr ⟨values readItem, others readItems⟩
  · cases read

theorem readableMembers_succ (values : ReadableValues fuel) (others : ReadableMembers fuel) :
    ReadableMembers (fuel + 1) := by
  intro levels input members rest read
  unfold readMembers? at read
  split at read
  · next same =>
        obtain rfl := Nat.succ.inj same
        simp only [Option.bind_eq_bind, Option.bind_eq_some_iff, Prod.exists] at read
        obtain ⟨characters, afterKey, readKey, read⟩ := read
        split at read
        · simp only [Option.bind_eq_some_iff, Prod.exists] at read
          obtain ⟨value, afterValue, readValue, read⟩ := read
          split at read
          · cases read
            exact List.forall_mem_singleton.mpr (values readValue)
          · simp only [Option.bind_eq_some_iff, Prod.exists] at read
            obtain ⟨further, afterMembers, readMembers, read⟩ := read
            cases read
            exact List.forall_mem_cons.mpr ⟨values readValue, others readMembers⟩
          · cases read
        · cases read
  · cases read

theorem readableValues_succ (items : ReadableItems fuel) (members : ReadableMembers fuel) :
    ReadableValues (fuel + 1) := by
  intro levels input value rest read
  unfold readValue? at read
  split at read
  · cases read
    exact .null
  · cases read
    exact .boolean true
  · cases read
    exact .boolean false
  · obtain ⟨⟨characters, after⟩, -, equal⟩ := Option.map_eq_some_iff.mp read
    cases equal
    exact .string _
  · split at read
    · cases read
    · cases read
      exact .array (by simp)
    · obtain ⟨⟨others, after⟩, readItems, equal⟩ := Option.map_eq_some_iff.mp read
      cases equal
      exact .array (items readItems)
  · split at read
    · cases read
    · cases read
      exact .object (by simp)
    · obtain ⟨⟨others, after⟩, readMembers, equal⟩ := Option.map_eq_some_iff.mp read
      cases equal
      exact .object (members readMembers)
  · simp only [Option.bind_eq_bind, Option.bind_eq_some_iff, Prod.exists] at read
    obtain ⟨numeral, after, -, number, isValue, equal⟩ := read
    cases equal
    exact .number (Numeral.readable_of_value? isValue)

theorem readable_of_read (fuel : Nat) :
    ReadableValues fuel ∧ ReadableItems fuel ∧ ReadableMembers fuel := by
  induction fuel with
  | zero =>
      refine ⟨?_, ?_, ?_⟩
      · intro levels input value rest read
        cases read
      · intro levels input items rest read
        cases read
      · intro levels input members rest read
        cases read
  | succ fuel ih =>
      obtain ⟨values, items, members⟩ := ih
      exact ⟨readableValues_succ items members, readableItems_succ values items,
        readableMembers_succ values members⟩

end Reader

theorem readable_of_ofBytes? {octets : Bytes} {value : Value}
    (read : ofBytes? octets = some value) : value.Readable := by
  obtain ⟨text, -, read⟩ := Option.bind_eq_some_iff.mp read
  simp only [read?, Option.bind_eq_bind, Option.bind_eq_some_iff, Prod.exists] at read
  obtain ⟨found, after, readValue, read⟩ := read
  split at read
  · cases read
    exact (Reader.readable_of_read _).1 readValue
  · cases read

namespace Value

theorem readable_of_mem_putMember {member : String × Value} (own : member.2.Readable)
    {others : List (String × Value)} (each : ∀ other ∈ others, other.2.Readable) :
    ∀ other ∈ putMember member others, other.2.Readable := by
  induction others with
  | nil => exact List.forall_mem_singleton.mpr own
  | cons first others ih =>
      rw [List.forall_mem_cons] at each
      rw [putMember]
      split
      · exact List.forall_mem_cons.mpr ⟨own, List.forall_mem_cons.mpr each⟩
      · exact List.forall_mem_cons.mpr ⟨own, each.2⟩
      · exact List.forall_mem_cons.mpr ⟨each.1, ih each.2⟩

theorem readable_of_mem_foldl {members others : List (String × Value)}
    (readable : ∀ member ∈ members, member.2.Readable)
    (each : ∀ other ∈ others, other.2.Readable) :
    ∀ other ∈ members.foldl (fun others member => putMember member others) others,
      other.2.Readable := by
  induction members generalizing others with
  | nil => exact each
  | cons member members ih =>
      rw [List.forall_mem_cons] at readable
      exact ih readable.2 (readable_of_mem_putMember readable.1 each)

theorem Readable.settled {value : Value} (readable : value.Readable) : value.settled.Readable := by
  induction readable with
  | null => exact .null
  | boolean value => exact .boolean value
  | number readable => exact .number readable
  | string text => exact .string text
  | array each ih =>
      rw [Value.settled, settledItems_eq_map]
      exact .array (List.forall_mem_map.mpr ih)
  | @object members each ih =>
      rw [Value.settled, settledMembers_eq_map]
      exact .object (readable_of_mem_foldl (List.forall_mem_map.mpr ih) (by simp))

end Value

end JsonSieve.Json
