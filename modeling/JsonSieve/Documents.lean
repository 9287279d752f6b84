import JsonSieve.Sieve
import JsonSieve.Text.Lines

/-!
# Streams of documents

Documents stand one on a line.  Blanks around a document are dropped, and lines that hold
nothing else are skipped.  A sieve selects the documents that pass, or, turned around, those
that do not pass; a document that is no JSON is selected by neither.
-/

namespace JsonSieve.Documents

def ofInput (input : Bytes) : List Bytes :=
  Lines.trimmedPieces 0x0a Lines.isBlankOctet input

/-- Whether a document is selected.  A document on which the evaluation fails does not pass. -/
def isSelected (sieve : Sieve) (invert : Bool) (document : Bytes) : Bool :=
  match sieve.evaluate document with
  | .ok report => report.passes != invert
  | .error .malformedDocument => false
  | .error _ => invert

def select (sieve : Sieve) (invert : Bool) (input : Bytes) : List Bytes :=
  (ofInput input).filter (isSelected sieve invert)

/-- Documents one on a line. -/
def toOutput (documents : List Bytes) : Bytes :=
  documents.flatMap (fun document => document ++ [0x0a])

end JsonSieve.Documents
