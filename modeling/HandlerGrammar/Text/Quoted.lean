/-! # Quoted text in messages

Text is shown between double quotes. The quote and the backslash are escaped by a backslash, line
feed, carriage return, tab and NUL have a letter, and other control characters are written by
their number in hexadecimal. -/
namespace HandlerGrammar.Text
set_option autoImplicit false

def isControl (c : Char) : Bool :=
  c.toNat < 0x20 || (0x7f ≤ c.toNat && c.toNat < 0xa0)

def quotedChar (c : Char) : List Char :=
  match c with
  | '"' => ['\\', '"']
  | '\\' => ['\\', '\\']
  | '\n' => ['\\', 'n']
  | '\r' => ['\\', 'r']
  | '\t' => ['\\', 't']
  | '\x00' => ['\\', '0']
  | c =>
    if isControl c then
      "\\u\x7b".toList ++ Nat.toDigits 16 c.toNat ++ "\x7d".toList
    else [c]

def quoted (s : String) : String :=
  "\"" ++ String.ofList (s.toList.flatMap quotedChar) ++ "\""

/-- A list of quoted texts in square brackets. -/
def quotedList (ss : List String) : String :=
  "[" ++ ", ".intercalate (ss.map quoted) ++ "]"

end HandlerGrammar.Text
