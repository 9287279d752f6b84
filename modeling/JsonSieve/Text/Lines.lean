/-!
# Lines and blanks

Splitting a text, or octets, at a separator and trimming blanks from both ends.  The two
classes of blanks are the white space of Unicode, for texts, and the five ASCII blanks, for
octets.
-/

namespace JsonSieve.Lines

/-- The pieces between the separators: one more than there are separators. -/
def splitAt {Symbol : Type} [DecidableEq Symbol] (separator : Symbol) :
    List Symbol → List (List Symbol)
  | [] => [[]]
  | symbol :: symbols =>
      if symbol = separator then
        [] :: splitAt separator symbols
      else
        match splitAt separator symbols with
        | [] => [[symbol]]
        | piece :: pieces => (symbol :: piece) :: pieces

def trim {Symbol : Type} (isBlank : Symbol → Bool) (symbols : List Symbol) : List Symbol :=
  ((symbols.dropWhile isBlank).reverse.dropWhile isBlank).reverse

/-- The trimmed pieces between line feeds, without those that hold blanks only. -/
def trimmedPieces {Symbol : Type} [DecidableEq Symbol] (lineFeed : Symbol)
    (isBlank : Symbol → Bool) (symbols : List Symbol) : List (List Symbol) :=
  ((splitAt lineFeed symbols).map (trim isBlank)).filter (fun piece => !piece.isEmpty)

/-- The ASCII blanks: space, tab, line feed, form feed and carriage return. -/
def isBlankOctet (octet : UInt8) : Bool :=
  octet = 0x20 || octet = 0x09 || octet = 0x0a || octet = 0x0c || octet = 0x0d

/-- The characters with the Unicode property `White_Space`. -/
def isWhiteSpace (character : Char) : Bool :=
  let code := character.toNat
  (0x09 ≤ code && code ≤ 0x0d) || code = 0x20 || code = 0x85 || code = 0xa0 ||
    code = 0x1680 || (0x2000 ≤ code && code ≤ 0x200a) || code = 0x2028 || code = 0x2029 ||
    code = 0x202f || code = 0x205f || code = 0x3000

end JsonSieve.Lines
