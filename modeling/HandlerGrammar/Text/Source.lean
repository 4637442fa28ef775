/-! # Source lines

A source is a sequence of bytes, cut into lines after each line feed. A line is UTF-8 text or
undecodable; its line feed, and a carriage return at its end, do not belong to the text. -/
namespace HandlerGrammar.Text
set_option autoImplicit false

inductive SourceLine where
  | text (chars : List Char)
  | undecodable
  deriving DecidableEq, Repr

namespace SourceLine

/-- An upper bound on the number of tokens of the line. -/
def size : SourceLine → Nat
  | text chars => chars.length
  | undecodable => 0

def ofBytes (bytes : List UInt8) : SourceLine :=
  match String.fromUTF8? ⟨bytes.toArray⟩ with
  | none => undecodable
  | some s =>
    let chars := s.toList
    text (if chars.getLast? = some '\r' then chars.dropLast else chars)

end SourceLine

/-- The byte runs between line feeds. What follows the last line feed counts unless it is empty. -/
def splitLines : List UInt8 → List (List UInt8)
  | [] => []
  | b :: bytes =>
    if b = 10 then [] :: splitLines bytes
    else match splitLines bytes with
      | [] => [[b]]
      | l :: ls => (b :: l) :: ls

/-- The lines of a source. -/
def sourceLines (bytes : List UInt8) : List SourceLine :=
  (splitLines bytes).map SourceLine.ofBytes

end HandlerGrammar.Text
