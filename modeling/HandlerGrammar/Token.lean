/-! # Tokens

A token is a classified piece of a source line: its kind, the line it stands on, its text as
written and the value that the text denotes. Numbers in binary formats are held by their bits. -/
namespace HandlerGrammar
set_option autoImplicit false

/-- What a token is. -/
inductive Kind where
  | integer | long | float | double | string | bool | identifier | reserved | separator | eof
  deriving DecidableEq, Repr

namespace Kind

def isNumber : Kind → Bool
  | integer | long | float | double => true
  | _ => false

def name : Kind → String
  | integer => "Integer"
  | long => "Long"
  | float => "Float"
  | double => "Double"
  | string => "String"
  | bool => "Bool"
  | identifier => "Identifier"
  | reserved => "Reserved"
  | separator => "Separator"
  | eof => "Eof"

end Kind

/-- What a token denotes; `absent` for words, separators and the end of input. -/
inductive Value where
  | integer (n : Int)
  | long (n : Int)
  | float (bits : UInt32)
  | double (bits : UInt64)
  | text (content : String)
  | bool (b : Bool)
  | absent
  deriving DecidableEq, Repr

structure Token where
  kind : Kind
  line : Nat
  text : String
  value : Value
  deriving DecidableEq, Repr

/-- The separators of the punctuation table. -/
def punctuation : List String :=
  ["\x7b", "\x7d", "[", "]", "(", ")", ":", ",", ";", ".", "=", "==", "!=", "<", ">", "<=", ">=",
   "&&", "||", "!", "->", "+", "-", "*", "/", "%", "?", "@", "#", "~", "^", "|", "&"]

def isPunctuation (text : String) : Bool := punctuation.contains text

namespace Token

/-- The token that stands for the end of input. -/
def eof (line : Nat) : Token := ⟨.eof, line, "", .absent⟩

def isEof (t : Token) : Bool := t.kind == .eof

/-- What literals are compared with: the content of a quoted token, the text of any other. -/
def word (t : Token) : String :=
  match t.value with
  | .text content => content
  | _ => t.text

/-- Whether the text is one of the fixed texts: a table separator or the end of input. -/
def isShared (t : Token) : Bool :=
  t.kind == .eof || t.kind == .separator && isPunctuation t.text

/-- The token as an error message shows it. -/
def describe (t : Token) : String :=
  match t.kind with
  | .eof => "end of input"
  | kind => kind.name ++ " `" ++ t.text ++ "`"

/-- The kind under `isReserved`: a quoted string or an identifier whose word is reserved becomes
a reserved word, every other token keeps its kind. -/
def reserve (isReserved : String → Bool) (t : Token) : Token :=
  match t.kind with
  | .string | .identifier => if isReserved t.word then { t with kind := .reserved } else t
  | _ => t

/-- The token with the kind that it has while no word is reserved: a reserved word is a string if it
was quoted and an identifier if not. -/
def lexical (t : Token) : Token :=
  match t.kind, t.value with
  | .reserved, .text _ => { t with kind := .string }
  | .reserved, _ => { t with kind := .identifier }
  | _, _ => t

/-- Take back the kind of a reserved word from a token that spells `word`. -/
def release (word : String) (t : Token) : Token :=
  if t.kind = .reserved ∧ t.word = word then t.lexical else t

end Token
end HandlerGrammar
