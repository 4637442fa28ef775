import HandlerGrammar.Decimal.Shortest
import HandlerGrammar.Lexeme.Basic
import HandlerGrammar.Text.Escape
import HandlerGrammar.Text.Quoted
import HandlerGrammar.Token
import HandlerGrammar.Vocabulary

/-! # Reading lexemes as tokens

Comments and ignored symbols give no token. Integers narrow to 32 bits where they fit and fail
beyond 64; a number with a fraction or an exponent is single where the single value, written
shortest, reads back as the same double. -/
namespace HandlerGrammar
set_option autoImplicit false

/-- Why a line gives no tokens. -/
inductive LexError where
  | unreadable (line : Nat) (fragment : String)
  | outOfRange (line : Nat) (literal : String)
  | undecodable (line : Nat)
  deriving DecidableEq, Repr

namespace LexError

def line : LexError → Nat
  | unreadable line _ | outOfRange line _ | undecodable line => line

def message : LexError → String
  | unreadable line fragment =>
    "bad token at line " ++ toString line ++ ": " ++ Text.quoted fragment
  | outOfRange line literal =>
    "number " ++ literal ++ " out of range at line " ++ toString line
  | undecodable line =>
    "failed to read line " ++ toString line ++ ": stream did not contain valid UTF-8"

end LexError

/-! ## Numbers -/

/-- Kind and value of a whole number, if it has 64 bits or less. -/
def wholeNumber? (n : Int) : Option (Kind × Value) :=
  if -2147483648 ≤ n ∧ n ≤ 2147483647 then some (.integer, .integer n)
  else if -9223372036854775808 ≤ n ∧ n ≤ 9223372036854775807 then some (.long, .long n)
  else none

/-- Whether the shortest decimal of a single magnitude denotes the given double magnitude. -/
def readsBack (single double : Nat) : Bool :=
  single < BinaryFormat.single.infinity &&
    match BinaryFormat.single.shortest single with
    | some x => BinaryFormat.double.round x == double
    | none => false

/-- Kind and value of a number with a fraction or an exponent. -/
def realNumber (x : Decimal) : Kind × Value :=
  let single := BinaryFormat.single.round x
  let double := BinaryFormat.double.round x
  if readsBack single double then
    (.float, .float (UInt32.ofNat (BinaryFormat.single.bits x.negative single)))
  else
    (.double, .double (UInt64.ofNat (BinaryFormat.double.bits x.negative double)))

/-! ## Tokens -/

/-- The text between the quotes of a string lexeme. -/
def unquote (cs : List Char) : List Char := cs.tail.dropLast

namespace Lexeme

/-- The token of a lexeme, with the kind that it has while no word is reserved. -/
def token? (isIgnored : String → Bool) (line : Nat) (l : Lexeme) :
    Except LexError (Option Token) :=
  let text := String.ofList l.text
  match l.category with
  | .comment => .ok none
  | .float =>
    let (kind, value) := realNumber (Decimal.ofNumeral l.text)
    .ok (some ⟨kind, line, text, value⟩)
  | .integer =>
    match wholeNumber? (Decimal.integer l.text) with
    | some (kind, value) => .ok (some ⟨kind, line, text, value⟩)
    | none => .error (.outOfRange line text)
  | .bool => .ok (some ⟨.bool, line, text, .bool (text == "true")⟩)
  | .string =>
    .ok (some ⟨.string, line, text, .text (String.ofList (Text.decode (unquote l.text)))⟩)
  | .word => .ok (some ⟨.identifier, line, text, .absent⟩)
  | .symbol => .ok (if isIgnored text then none else some ⟨.separator, line, text, .absent⟩)

/-- The tokens of the lexemes in order, or the error of the first lexeme that has one. -/
def tokens (isIgnored : String → Bool) (line : Nat) : List Lexeme → Except LexError (List Token)
  | [] => .ok []
  | l :: ls =>
    match l.token? isIgnored line with
    | .error e => .error e
    | .ok none => tokens isIgnored line ls
    | .ok (some t) => (tokens isIgnored line ls).map (t :: ·)

end Lexeme

/-- The tokens of a line, or the leftmost error on it. -/
def lineTokens (isIgnored : String → Bool) (line : Nat) (text : List Char) :
    Except LexError (List Token) :=
  let (lexemes, fault) := cut text
  match Lexeme.tokens isIgnored line lexemes, fault with
  | .error e, _ => .error e
  | .ok tokens, none => .ok tokens
  | .ok _, some fragment => .error (.unreadable line (String.ofList fragment))

end HandlerGrammar
