/-!
# Texts as octets

A text travels as the octets of its UTF-8 form.  `Utf8.encode` and `Utf8.decode?` pass
between the two, and `Utf8.lossy` shows any octets as a text: it reads characters one octet at
a time and puts one replacement character for every maximal run of octets that begins a
character without completing it.
-/

namespace JsonSieve

/-- The octets of a document, of a filter or of a file. -/
abbrev Bytes := List UInt8

namespace Utf8

def encode (text : String) : Bytes :=
  text.toList.flatMap String.utf8EncodeChar

/-- The text whose UTF-8 form the octets are, if they are one. -/
def decode? (octets : Bytes) : Option String :=
  String.fromUTF8? octets.toByteArray

/-- The order of texts: that of their UTF-8 forms, octet by octet, a proper beginning first. -/
def compareTexts (first second : String) : Ordering :=
  List.compareLex compare (encode first) (encode second)

/-- A character of which some octets have been read: the bits seen so far, the range in which
the next octet has to lie, and the number of octets that follow the next one. -/
structure Partial where
  bits : Nat
  lowest : UInt8
  highest : UInt8
  further : Nat

/-- Stands for octets that belong to no character. -/
def replacement : Char := '\ufffd'

/-- What the first octet of a character yields: characters that are already known, and the
partly read character, if more octets have to follow. -/
def first (octet : UInt8) : List Char × Option Partial :=
  let bits := octet.toNat
  if octet < 0x80 then ([Char.ofNat bits], none)
  else if octet < 0xc2 then ([replacement], none)
  else if octet < 0xe0 then ([], some ⟨bits % 0x20, 0x80, 0xbf, 0⟩)
  else if octet = 0xe0 then ([], some ⟨0, 0xa0, 0xbf, 1⟩)
  else if octet = 0xed then ([], some ⟨0xd, 0x80, 0x9f, 1⟩)
  else if octet < 0xf0 then ([], some ⟨bits % 0x10, 0x80, 0xbf, 1⟩)
  else if octet = 0xf0 then ([], some ⟨0, 0x90, 0xbf, 2⟩)
  else if octet < 0xf4 then ([], some ⟨bits % 0x08, 0x80, 0xbf, 2⟩)
  else if octet = 0xf4 then ([], some ⟨4, 0x80, 0x8f, 2⟩)
  else ([replacement], none)

/-- What one more octet yields.  An octet outside the expected range ends the partly read
character with a replacement and is then read as a first octet. -/
def step : Option Partial → UInt8 → List Char × Option Partial
  | none, octet => first octet
  | some character, octet =>
      if character.lowest ≤ octet ∧ octet ≤ character.highest then
        let bits := character.bits * 0x40 + octet.toNat % 0x40
        match character.further with
        | 0 => ([Char.ofNat bits], none)
        | further + 1 => ([], some ⟨bits, 0x80, 0xbf, further⟩)
      else
        (replacement :: (first octet).1, (first octet).2)

/-- The characters that the octets yield after a partly read character. -/
def lossyFrom : Option Partial → Bytes → List Char
  | none, [] => []
  | some _, [] => [replacement]
  | state, octet :: octets =>
      (step state octet).1 ++ lossyFrom (step state octet).2 octets

/-- Any octets as a text.  Octets that are no UTF-8 form show as replacement characters. -/
def lossy (octets : Bytes) : String :=
  String.ofList (lossyFrom none octets)

end Utf8

end JsonSieve
