/-! # Escapes in string literals

The body of a literal is read from the left. A backslash and the character after it stand for one
character; `\u` takes four more characters when these denote a Unicode scalar value. -/
namespace HandlerGrammar.Text
set_option autoImplicit false

/-- The character that a backslash before `c` stands for. -/
def escaped (c : Char) : Char :=
  match c with
  | 'n' => '\n'
  | 't' => '\t'
  | 'r' => '\r'
  | 'b' => '\x08'
  | 'f' => '\x0c'
  | c => c

def hexDigit? (c : Char) : Option Nat :=
  if c.isDigit then some (c.toNat - '0'.toNat)
  else if 'a' ≤ c ∧ c ≤ 'f' then some (c.toNat - 'a'.toNat + 10)
  else if 'A' ≤ c ∧ c ≤ 'F' then some (c.toNat - 'A'.toNat + 10)
  else none

def hexNumber? (cs : List Char) : Option Nat :=
  cs.foldl (fun n? c => n?.bind fun n => (hexDigit? c).map (16 * n + ·)) (some 0)

/-- The scalar value that four characters denote. The number may carry a plus sign, which is then
one of the four; surrogates are no scalar values. -/
def scalar? (a b c d : Char) : Option Char :=
  let n? := if a = '+' then hexNumber? [b, c, d] else hexNumber? [a, b, c, d]
  n?.bind fun n => if h : n.isValidChar then some (Char.ofNatAux n h) else none

/-- The content of a literal with the body `cs`. A last backslash that escapes nothing stands for
itself. -/
def decode : List Char → List Char
  | '\\' :: 'u' :: a :: b :: c :: d :: rest =>
    match scalar? a b c d with
    | some x => x :: decode rest
    | none => 'u' :: decode (a :: b :: c :: d :: rest)
  | '\\' :: c :: rest => escaped c :: decode rest
  | c :: rest => c :: decode rest
  | [] => []

end HandlerGrammar.Text
