import HandlerGrammar.Lexeme.Reading
import HandlerGrammar.Text.Source

/-! # Token streams

A stream holds the lines of a source that have not been pulled and the tokens of pulled lines that
have not been delivered. Lines are pulled one at a time and only as far as an answer needs them.

A quoted string or a word is classified as its line is pulled, by the words that are reserved then.
Reserving or releasing a word afterwards reclassifies the tokens that wait in the buffer. An
operation that fails leaves the stream behind the line that made it fail. -/
namespace HandlerGrammar
open Text
set_option autoImplicit false

structure TokenStream where
  vocabulary : Vocabulary
  /-- Words reserved on this stream, beside those of the vocabulary. -/
  reserved : WordSet
  /-- Tokens of pulled lines as they are classified now, next one first. -/
  buffer : List Token
  unread : List SourceLine
  /-- The number of lines pulled. -/
  line : Nat

namespace TokenStream

def ofLines (vocabulary : Vocabulary) (lines : List SourceLine) : TokenStream :=
  ⟨vocabulary, .empty, [], lines, 0⟩

def ofBytes (vocabulary : Vocabulary) (bytes : List UInt8) : TokenStream :=
  ofLines vocabulary (sourceLines bytes)

/-! ## Reserved words -/

def isReserved (s : TokenStream) (word : String) : Bool :=
  s.vocabulary.isReserved word || s.reserved.contains word

/-- Reserve a word, also for the tokens in the buffer. -/
def reserve (s : TokenStream) (word : String) : TokenStream :=
  { s with
    reserved := s.reserved.insert word
    buffer := s.buffer.map (Token.reserve (· == word)) }

/-- Withdraw a word reserved on this stream, also from the tokens in the buffer unless the
vocabulary reserves the word as well. -/
def release (s : TokenStream) (word : String) : TokenStream :=
  let rest := { s with reserved := s.reserved.erase word }
  if s.reserved.contains word ∧ !s.vocabulary.isReserved word then
    { rest with buffer := s.buffer.map (Token.release word) }
  else rest

def reserveAll (s : TokenStream) (words : List String) : TokenStream := words.foldl reserve s

def releaseAll (s : TokenStream) (words : List String) : TokenStream := words.foldl release s

/-- The end of input stands on the last line pulled. -/
def eof (s : TokenStream) : Token := .eof (max s.line 1)

/-- The token at a position of the buffer, or the end of input behind it. -/
def tokenAt (s : TokenStream) (k : Nat) : Token := s.buffer[k]?.getD s.eof

/-! ## Pulling lines -/

/-- Pull one line, if there is one. An undecodable line is passed over but not counted. -/
def pull : EStateM LexError TokenStream Unit := fun s =>
  match s.unread with
  | [] => .ok () s
  | .undecodable :: rest => .error (.undecodable (s.line + 1)) { s with unread := rest }
  | .text chars :: rest =>
    let line := s.line + 1
    match lineTokens s.vocabulary.isIgnored line chars with
    | .error e => .error e { s with unread := rest, line }
    | .ok tokens =>
      let classified := tokens.map (Token.reserve s.isReserved)
      .ok () { s with unread := rest, line, buffer := s.buffer ++ classified }

/-- Pull lines, at most one for each of `lines`, until more than `k` tokens are buffered. -/
def fillFrom (k : Nat) : List SourceLine → EStateM LexError TokenStream Unit
  | [] => pure ()
  | _ :: lines => do
    if k < (← get).buffer.length then
      pure ()
    else do
      pull
      fillFrom k lines

/-- Pull lines until more than `k` tokens are buffered or no line is left. -/
def fill (k : Nat) : EStateM LexError TokenStream Unit := do
  fillFrom k (← get).unread

/-- Pull one line for each of `lines`. -/
def pullFrom : List SourceLine → EStateM LexError TokenStream Unit
  | [] => pure ()
  | _ :: lines => do
    pull
    pullFrom lines

/-! ## Delivery -/

/-- The token `k` places ahead, left where it is. -/
def peek (k : Nat) : EStateM LexError TokenStream Token := do
  fill k
  return (← get).tokenAt k

/-- Deliver the next token; at the end of input deliver that again and again. -/
def read : EStateM LexError TokenStream Token := do
  fill 0
  let s ← get
  set { s with buffer := s.buffer.tail }
  return s.tokenAt 0

/-- Deliver all tokens that are left. -/
def tokens : EStateM LexError TokenStream (List Token) := do
  pullFrom (← get).unread
  let s ← get
  set { s with buffer := [] }
  return s.buffer

/-- Pass over buffered tokens. -/
def advance (s : TokenStream) (count : Nat) : TokenStream :=
  { s with buffer := s.buffer.drop count }

/-- An upper bound on the number of tokens still to be delivered. -/
def size (s : TokenStream) : Nat :=
  s.unread.foldr (fun l n => l.size + n) s.buffer.length

end TokenStream
end HandlerGrammar
