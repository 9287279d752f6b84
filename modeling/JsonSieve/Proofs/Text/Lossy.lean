import JsonSieve.Proofs.Text.Utf8
import Mathlib

/-!
# Octets shown as a text

The UTF-8 form of a text is shown as this text.  Of any octets, those of ASCII are shown one by one
as the characters with these codes, and no other octets are shown as characters of ASCII: what is
put together from several octets lies beyond ASCII, and so does the replacement character.
-/

namespace JsonSieve.Utf8

/-- An octet that carries the lowest six of some bits. -/
def tailOctet (bits : Nat) : UInt8 :=
  UInt8.ofNat (bits % 0x40 + 0x80)

def tailOctets (code : Nat) : (count : Nat) → Bytes
  | 0 => []
  | count + 1 => tailOctet (code / 0x40 ^ count) :: tailOctets code count

theorem toNat_tailOctet (bits : Nat) : (tailOctet bits).toNat = bits % 0x40 + 0x80 := by
  rw [tailOctet, UInt8.toNat_ofNat']
  omega

theorem tailOctet_within (bits : Nat) : 0x80 ≤ tailOctet bits ∧ tailOctet bits ≤ 0xbf := by
  simp only [UInt8.le_iff_toNat_le, toNat_tailOctet, UInt8.reduceToNat]
  omega

theorem step_tailOctet {code further : Nat} {lowest highest : UInt8}
    (expected : lowest ≤ tailOctet (code / 0x40 ^ further) ∧
      tailOctet (code / 0x40 ^ further) ≤ highest) :
    step (some ⟨code / 0x40 ^ (further + 1), lowest, highest, further⟩)
        (tailOctet (code / 0x40 ^ further)) =
      match further with
      | 0 => ([Char.ofNat code], none)
      | further + 1 => ([], some ⟨code / 0x40 ^ (further + 1), 0x80, 0xbf, further⟩) := by
  have sixBits : (tailOctet (code / 0x40 ^ further)).toNat % 0x40 =
      code / 0x40 ^ further % 0x40 := by
    rw [toNat_tailOctet]
    omega
  have bits : code / 0x40 ^ (further + 1) * 0x40 + code / 0x40 ^ further % 0x40 =
      code / 0x40 ^ further := by
    rw [Nat.pow_succ, ← Nat.div_div_eq_div_mul, Nat.div_add_mod']
  rw [step, if_pos expected, sixBits]
  simp only [bits]
  cases further with
  | zero => simp
  | succ further => rfl

theorem lossyFrom_tailOctets {code further : Nat} {lowest highest : UInt8}
    (expected : lowest ≤ tailOctet (code / 0x40 ^ further) ∧
      tailOctet (code / 0x40 ^ further) ≤ highest) (rest : Bytes) :
    lossyFrom (some ⟨code / 0x40 ^ (further + 1), lowest, highest, further⟩)
        (tailOctets code (further + 1) ++ rest) =
      Char.ofNat code :: lossyFrom none rest := by
  induction further generalizing lowest highest with
  | zero =>
      rw [tailOctets, List.cons_append, lossyFrom, step_tailOctet expected]
      rfl
  | succ further ih =>
      rw [tailOctets, List.cons_append, lossyFrom, step_tailOctet expected]
      exact ih (tailOctet_within _)

variable {code : Nat}

theorem first_of_two (most : code < 0x800) (least : 0x80 ≤ code) :
    first (UInt8.ofNat (code / 0x40 % 0x20 + 0xc0)) = ([], some ⟨code / 0x40, 0x80, 0xbf, 0⟩) := by
  have octet : (UInt8.ofNat (code / 0x40 % 0x20 + 0xc0)).toNat = code / 0x40 + 0xc0 := by
    rw [UInt8.toNat_ofNat']
    omega
  have bits : (code / 0x40 + 0xc0) % 0x20 = code / 0x40 := by omega
  simp only [first, UInt8.lt_iff_toNat_lt, octet, bits, UInt8.reduceToNat]
  rw [if_neg (by omega), if_neg (by omega), if_pos (by omega)]

theorem first_of_three (most : code < 0x10000) (least : 0x800 ≤ code)
    (noSurrogate : code < 0xd800 ∨ 0xdfff < code) :
    ∃ lowest highest, first (UInt8.ofNat (code / 0x1000 % 0x10 + 0xe0)) =
        ([], some ⟨code / 0x1000, lowest, highest, 1⟩) ∧
      lowest ≤ tailOctet (code / 0x40) ∧ tailOctet (code / 0x40) ≤ highest := by
  have octet : (UInt8.ofNat (code / 0x1000 % 0x10 + 0xe0)).toNat = code / 0x1000 + 0xe0 := by
    rw [UInt8.toNat_ofNat']
    omega
  have bits : (code / 0x1000 + 0xe0) % 0x10 = code / 0x1000 := by omega
  simp only [first, UInt8.lt_iff_toNat_lt, UInt8.le_iff_toNat_le, ← UInt8.toNat_inj, octet, bits,
    toNat_tailOctet, UInt8.reduceToNat]
  rw [if_neg (by omega), if_neg (by omega), if_neg (by omega)]
  -- The least codes and those before the surrogates bound the next octet more tightly.
  by_cases leastCodes : code / 0x1000 = 0
  · rw [if_pos (by omega), leastCodes]
    refine ⟨0xa0, 0xbf, rfl, ?_⟩
    simp only [UInt8.reduceToNat]
    omega
  · rw [if_neg (by omega)]
    by_cases beforeSurrogates : code / 0x1000 = 0xd
    · rw [if_pos (by omega), beforeSurrogates]
      refine ⟨0x80, 0x9f, rfl, ?_⟩
      simp only [UInt8.reduceToNat]
      omega
    · rw [if_neg (by omega), if_pos (by omega)]
      refine ⟨0x80, 0xbf, rfl, ?_⟩
      simp only [UInt8.reduceToNat]
      omega

theorem first_of_four (most : code < 0x110000) (least : 0x10000 ≤ code) :
    ∃ lowest highest, first (UInt8.ofNat (code / 0x40000 % 0x08 + 0xf0)) =
        ([], some ⟨code / 0x40000, lowest, highest, 2⟩) ∧
      lowest ≤ tailOctet (code / 0x1000) ∧ tailOctet (code / 0x1000) ≤ highest := by
  have octet : (UInt8.ofNat (code / 0x40000 % 0x08 + 0xf0)).toNat = code / 0x40000 + 0xf0 := by
    rw [UInt8.toNat_ofNat']
    omega
  have bits : (code / 0x40000 + 0xf0) % 0x08 = code / 0x40000 := by omega
  simp only [first, UInt8.lt_iff_toNat_lt, UInt8.le_iff_toNat_le, ← UInt8.toNat_inj, octet, bits,
    toNat_tailOctet, UInt8.reduceToNat]
  rw [if_neg (by omega), if_neg (by omega), if_neg (by omega), if_neg (by omega),
    if_neg (by omega), if_neg (by omega)]
  by_cases leastCodes : code / 0x40000 = 0
  · rw [if_pos (by omega), leastCodes]
    refine ⟨0x90, 0xbf, rfl, ?_⟩
    simp only [UInt8.reduceToNat]
    omega
  · rw [if_neg (by omega)]
    by_cases greatestCodes : code / 0x40000 = 4
    · rw [if_neg (by omega), if_pos (by omega), greatestCodes]
      refine ⟨0x80, 0x8f, rfl, ?_⟩
      simp only [UInt8.reduceToNat]
      omega
    · rw [if_pos (by omega)]
      refine ⟨0x80, 0xbf, rfl, ?_⟩
      simp only [UInt8.reduceToNat]
      omega

theorem lossyFrom_of_first (further : Nat) {octet lowest highest : UInt8}
    (announced : first octet = ([], some ⟨code / 0x40 ^ (further + 1), lowest, highest, further⟩))
    (expected : lowest ≤ tailOctet (code / 0x40 ^ further) ∧
      tailOctet (code / 0x40 ^ further) ≤ highest) (rest : Bytes) :
    lossyFrom none (octet :: tailOctets code (further + 1) ++ rest) =
      Char.ofNat code :: lossyFrom none rest := by
  rw [List.cons_append, lossyFrom, step, announced]
  exact lossyFrom_tailOctets expected rest

/-- The octets of a character are shown as this character. -/
theorem lossyFrom_utf8EncodeChar (character : Char) (rest : Bytes) :
    lossyFrom none (String.utf8EncodeChar character ++ rest) =
      character :: lossyFrom none rest := by
  have valid : character.toNat < 0xd800 ∨ 0xdfff < character.toNat ∧ character.toNat < 0x110000 :=
    character.valid
  have ownCode : character.val.toNat = character.toNat := rfl
  have same : Char.ofNat character.toNat = character := character.ofNat_toNat
  simp only [String.utf8EncodeChar, ownCode]
  clear ownCode
  generalize character.toNat = code at valid same
  subst same
  by_cases one : code ≤ 0x7f
  · have octet : (UInt8.ofNat code).toNat = code := by
      rw [UInt8.toNat_ofNat']
      omega
    have ascii : UInt8.ofNat code < 0x80 := by
      rw [UInt8.lt_iff_toNat_lt, octet]
      exact Nat.lt_succ_of_le one
    rw [if_pos one, List.singleton_append, lossyFrom, step, first, if_pos ascii, octet]
    rfl
  rw [if_neg one]
  by_cases two : code ≤ 0x7ff
  · have last : [UInt8.ofNat (code % 64 + 128)] = tailOctets code (0 + 1) := by
      simp [tailOctets, tailOctet]
    rw [if_pos two, last]
    exact lossyFrom_of_first 0 (first_of_two (by omega) (by omega))
      (tailOctet_within _) rest
  rw [if_neg two]
  by_cases three : code ≤ 0xffff
  · have last : [UInt8.ofNat (code / 64 % 64 + 128), UInt8.ofNat (code % 64 + 128)] =
        tailOctets code (1 + 1) := by
      simp [tailOctets, tailOctet]
    obtain ⟨lowest, highest, announced, expected⟩ :=
      first_of_three (show code < 0x10000 by omega) (by omega) (by omega)
    rw [if_pos three, last]
    exact lossyFrom_of_first 1 announced expected rest
  · have last : [UInt8.ofNat (code / 4096 % 64 + 128), UInt8.ofNat (code / 64 % 64 + 128),
          UInt8.ofNat (code % 64 + 128)] = tailOctets code (2 + 1) := by
      simp [tailOctets, tailOctet]
    obtain ⟨lowest, highest, announced, expected⟩ :=
      first_of_four (show code < 0x110000 by omega) (by omega)
    rw [if_neg three, last]
    exact lossyFrom_of_first 2 announced expected rest

theorem lossyFrom_octetsOf (characters : List Char) :
    lossyFrom none (octetsOf characters) = characters := by
  induction characters with
  | nil => rfl
  | cons character characters ih => rw [octetsOf_cons, lossyFrom_utf8EncodeChar, ih]

/-- A text is shown as itself. -/
theorem lossy_encode (text : String) : lossy (encode text) = text := by
  rw [lossy, encode, ← octetsOf, lossyFrom_octetsOf, String.ofList_toList]

/-- No octet of ASCII continues these bits, and whatever octets complete them, they give the code of
a character beyond ASCII. -/
def LeadsBeyondAscii (bits : Nat) (lowest highest : UInt8) : (further : Nat) → Prop
  | 0 =>
      0x80 ≤ lowest ∧ ∀ octet : UInt8, lowest ≤ octet → octet ≤ highest →
        0x80 ≤ bits * 0x40 + octet.toNat % 0x40 ∧
          (bits * 0x40 + octet.toNat % 0x40).isValidChar
  | further + 1 =>
      0x80 ≤ lowest ∧ ∀ octet : UInt8, lowest ≤ octet → octet ≤ highest →
        LeadsBeyondAscii (bits * 0x40 + octet.toNat % 0x40) 0x80 0xbf further

/-- A partly read character as it can arise. -/
def Partial.Sound (character : Partial) : Prop :=
  LeadsBeyondAscii character.bits character.lowest character.highest character.further

theorem sound_of_first {octet : UInt8} {character : Partial}
    (announced : (first octet).2 = some character) : character.Sound := by
  simp only [first, UInt8.lt_iff_toNat_lt, ← UInt8.toNat_inj, UInt8.reduceToNat] at announced
  repeat' split at announced
  all_goals cases announced
  all_goals
    simp only [Partial.Sound, LeadsBeyondAscii, UInt8.le_iff_toNat_le, UInt8.reduceToNat,
      Nat.reduceLeDiff, Nat.le_refl, true_and, Nat.isValidChar]
    intros
    omega

variable {state : Option Partial} {ascii : UInt8}

theorem toNat_ofNat_toNat (isAscii : ascii < 0x80) :
    (Char.ofNat ascii.toNat).toNat = ascii.toNat := by
  have small : ascii.toNat < 0x80 := UInt8.lt_iff_toNat_lt.mp isAscii
  rw [Char.toNat_ofNat, if_pos (Or.inl (by omega))]

theorem ofNat_ne_ofNat_toNat {code : Nat} (isAscii : ascii < 0x80) (beyond : 0x80 ≤ code)
    (valid : code.isValidChar) : Char.ofNat code ≠ Char.ofNat ascii.toNat := by
  have small : ascii.toNat < 0x80 := UInt8.lt_iff_toNat_lt.mp isAscii
  intro equal
  have sameCode := congrArg Char.toNat equal
  rw [Char.toNat_ofNat, if_pos valid, toNat_ofNat_toNat isAscii] at sameCode
  omega

theorem replacement_ne (isAscii : ascii < 0x80) : replacement ≠ Char.ofNat ascii.toNat :=
  ofNat_ne_ofNat_toNat isAscii (show 0x80 ≤ 0xfffd by decide) (by decide)

theorem count_singleton_of_le (isAscii : ascii < 0x80) {octet : UInt8} (beyond : 0x80 ≤ octet) :
    [octet].count ascii = 0 := by
  refine List.count_eq_zero_of_not_mem fun member => ?_
  rw [List.mem_singleton.mp member] at isAscii
  exact UInt8.not_lt.mpr beyond isAscii

theorem count_first (isAscii : ascii < 0x80) (octet : UInt8) :
    (first octet).1.count (Char.ofNat ascii.toNat) = [octet].count ascii := by
  by_cases single : octet < 0x80
  · have same : Char.ofNat octet.toNat = Char.ofNat ascii.toNat ↔ octet = ascii := by
      refine ⟨fun equal => UInt8.toNat_inj.mp ?_, fun equal => equal ▸ rfl⟩
      rw [← toNat_ofNat_toNat single, equal, toNat_ofNat_toNat isAscii]
    rw [first, if_pos single]
    simp [List.count_singleton, same]
  · have nothing : (first octet).1 = [] ∨ (first octet).1 = [replacement] := by
      rw [first, if_neg single]
      repeat' split
      all_goals simp
    rw [count_singleton_of_le isAscii (UInt8.not_lt.mp single)]
    rcases nothing with nothing | nothing <;> simp [nothing, replacement_ne isAscii]

theorem sound_step (sound : ∀ character ∈ state, character.Sound) (octet : UInt8) :
    ∀ character ∈ (step state octet).2, character.Sound := by
  cases state with
  | none => exact fun character => sound_of_first
  | some before =>
      rw [step]
      split
      · next within =>
          obtain ⟨bits, lowest, highest, further⟩ := before
          have soundBefore := sound _ rfl
          cases further with
          | zero => exact nofun
          | succ further =>
              rintro character ⟨⟩
              exact soundBefore.2 octet within.1 within.2
      · exact fun character => sound_of_first

theorem count_step (isAscii : ascii < 0x80) (sound : ∀ character ∈ state, character.Sound)
    (octet : UInt8) :
    (step state octet).1.count (Char.ofNat ascii.toNat) = [octet].count ascii := by
  cases state with
  | none => exact count_first isAscii octet
  | some before =>
      rw [step]
      split
      · next within =>
          obtain ⟨bits, lowest, highest, further⟩ := before
          have soundBefore := sound _ rfl
          cases further with
          | zero =>
              have beyond := UInt8.le_trans soundBefore.1 within.1
              obtain ⟨high, valid⟩ := soundBefore.2 octet within.1 within.2
              simp [count_singleton_of_le isAscii beyond, ofNat_ne_ofNat_toNat isAscii high valid]
          | succ further =>
              have beyond := UInt8.le_trans soundBefore.1 within.1
              simp [count_singleton_of_le isAscii beyond]
      · simp [List.count_cons, replacement_ne isAscii, count_first isAscii]

theorem count_lossyFrom (isAscii : ascii < 0x80) (sound : ∀ character ∈ state, character.Sound)
    (octets : Bytes) :
    (lossyFrom state octets).count (Char.ofNat ascii.toNat) = octets.count ascii := by
  induction octets generalizing state with
  | nil =>
      cases state with
      | none => rfl
      | some before => simp [lossyFrom, replacement_ne isAscii]
  | cons octet octets ih =>
      rw [lossyFrom, List.count_append, count_step isAscii sound, ih (sound_step sound octet),
        ← List.count_append, List.singleton_append]

/-- A character of ASCII is shown as often as its octet occurs. -/
theorem count_lossy (isAscii : ascii < 0x80) (octets : Bytes) :
    (lossy octets).toList.count (Char.ofNat ascii.toNat) = octets.count ascii := by
  rw [lossy, String.toList_ofList, count_lossyFrom isAscii (by simp)]

theorem count_octetsOf (isAscii : ascii < 0x80) (characters : List Char) :
    (octetsOf characters).count ascii = characters.count (Char.ofNat ascii.toNat) := by
  have shown : (lossyFrom none (octetsOf characters)).count (Char.ofNat ascii.toNat) = _ :=
    count_lossyFrom isAscii (by simp) (octetsOf characters)
  rw [← shown, lossyFrom_octetsOf]

theorem octetsOf_singleton (isAscii : ascii < 0x80) :
    octetsOf [Char.ofNat ascii.toNat] = [ascii] := by
  have code := toNat_ofNat_toNat isAscii
  have small : ascii.toNat < 0x80 := UInt8.lt_iff_toNat_lt.mp isAscii
  rw [octetsOf, List.flatMap_singleton, utf8EncodeChar_of_lt (by omega), code,
    UInt8.ofNat_toNat]

/-- A text can be cut at an octet of ASCII, which is a character by itself. -/
theorem exists_cut {characters : List Char} {before after : Bytes} (isAscii : ascii < 0x80)
    (split : octetsOf characters = before ++ ascii :: after) :
    ∃ earlier later, characters = earlier ++ Char.ofNat ascii.toNat :: later ∧
      before = octetsOf earlier ∧ after = octetsOf later := by
  induction characters generalizing before with
  | nil => cases before <;> cases split
  | cons character characters ih =>
      rw [octetsOf_cons, List.append_eq_append_iff] at split
      rcases split with ⟨further, rfl, split⟩ | ⟨last, own, split⟩
      · obtain ⟨earlier, later, rfl, rfl, rfl⟩ := ih split
        exact ⟨character :: earlier, later, rfl, (octetsOf_cons ..).symm, rfl⟩
      · cases last with
        | nil =>
            obtain ⟨earlier, later, rfl, nothing, rfl⟩ := @ih [] split.symm
            refine ⟨character :: earlier, later, rfl, ?_, rfl⟩
            rw [octetsOf_cons, own, ← nothing, List.append_nil, List.append_nil]
        | cons octet last =>
            -- The octet belongs to the first character, which is therefore one of ASCII.
            obtain ⟨rfl, rfl⟩ := List.cons.inj split
            have small := UInt8.lt_iff_toNat_lt.mp isAscii
            have member : ascii ∈ String.utf8EncodeChar character := by simp [own]
            have code := toNat_of_mem_utf8EncodeChar member small
            have same : Char.ofNat ascii.toNat = character := by rw [← code, character.ofNat_toNat]
            have single := octetsOf_singleton isAscii
            rw [same, octetsOf, List.flatMap_singleton, own] at single
            obtain ⟨rfl, rfl⟩ : before = [] ∧ last = [] := by
              simpa [List.append_eq_singleton_iff] using single
            exact ⟨[], characters, by rw [same]; rfl, rfl, rfl⟩

/-- Octets from the middle of a text that start and end with an octet of ASCII are characters. -/
theorem exists_characters {characters : List Char} {before word after : Bytes}
    (split : octetsOf characters = before ++ word ++ after)
    (starts : ∀ octet ∈ word.head?, octet < 0x80) (ends : ∀ octet ∈ word.getLast?, octet < 0x80) :
    ∃ own, word = octetsOf own := by
  cases word with
  | nil => exact ⟨[], rfl⟩
  | cons first others =>
      rw [List.append_assoc, List.cons_append] at split
      obtain ⟨-, behind, -, -, rest⟩ := exists_cut (starts first rfl) split
      rcases List.eq_nil_or_concat others with rfl | ⟨middle, last, rfl⟩
      · exact ⟨_, (octetsOf_singleton (starts first rfl)).symm⟩
      · have lastAscii : last < 0x80 := ends last (by
          rw [List.concat_eq_append, ← List.cons_append, List.getLast?_concat]
          rfl)
        rw [List.concat_eq_append, List.append_assoc] at rest
        obtain ⟨between, -, -, rfl, -⟩ := exists_cut lastAscii rest.symm
        refine ⟨[Char.ofNat first.toNat] ++ between ++ [Char.ofNat last.toNat], ?_⟩
        rw [octetsOf_append, octetsOf_append, octetsOf_singleton (starts first rfl),
          octetsOf_singleton lastAscii, List.concat_eq_append]
        rfl

end JsonSieve.Utf8
