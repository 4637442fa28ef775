import HandlerGrammar.Token

/-! # Rules

A rule is a sequence of steps with an optional label. A step tests one token, refers to other rules
by their numbers, or regroups the nodes that the rule has matched so far. -/
namespace HandlerGrammar
set_option autoImplicit false

/-- Classes of tokens that a rule may ask for. A quoted reserved word is still a string. -/
inductive TokenClass where
  | number | string | bool | identifier | reserved
  deriving DecidableEq, Repr

namespace TokenClass

def accepts (c : TokenClass) (t : Token) : Bool :=
  match c with
  | number => t.kind.isNumber
  | string =>
    t.kind == .string ||
      t.kind == .reserved && (match t.value with | .text _ => true | _ => false)
  | bool => t.kind == .bool
  | identifier => t.kind == .identifier
  | reserved => t.kind == .reserved

def describe : TokenClass → String
  | number => "number"
  | string => "string"
  | bool => "boolean"
  | identifier => "identifier"
  | reserved => "reserved word"

end TokenClass

/-- A test of one token. -/
inductive Terminal where
  | separator (text : String)
  | keyword (word : String)
  | token (c : TokenClass)
  deriving DecidableEq, Repr

namespace Terminal

def accepts (x : Terminal) (t : Token) : Bool :=
  match x with
  | separator text => t.kind == .separator && t.text == text
  | keyword word => t.kind == .reserved && t.word == word
  | token c => c.accepts t

/-- The terminal as an expectation in an error message. -/
def describe : Terminal → String
  | separator text => "`" ++ text ++ "`"
  | keyword word => "`" ++ word ++ "`"
  | token c => c.describe

/-- Whether an accepted token becomes a leaf of the tree. -/
def isKept : Terminal → Bool
  | separator _ => false
  | keyword _ | token _ => true

/-- The text that alone is accepted. -/
def literal? : Terminal → Option String
  | separator text => some text
  | keyword word => some word
  | token _ => none

end Terminal

/-- The number of a rule. -/
abbrev RuleId := Nat

/-- * `terminal` takes one token;
* `rule` matches a rule;
* `optional` and `many` match a rule at most once or any number of times, judging by the next token
  whether to go on;
* `choice` matches the first of several rules that fits;
* `dispatch` does so after sorting out the rules that begin with another literal than the next
  token;
* `gather` takes no token and moves nodes matched so far under one new node. -/
inductive Step where
  | terminal (x : Terminal)
  | rule (id : RuleId)
  | optional (id : RuleId)
  | many (id : RuleId)
  | choice (ids : List RuleId)
  | dispatch (ids : List RuleId)
  | gather (label : String) (members : List String)
  deriving DecidableEq, Repr

namespace Step

def separator (text : String) : Step := terminal (.separator text)
def keyword (word : String) : Step := terminal (.keyword word)
def token (c : TokenClass) : Step := terminal (.token c)

/-- The rules that the step refers to. -/
def references : Step → List RuleId
  | rule id | optional id | many id => [id]
  | choice ids | dispatch ids => ids
  | terminal _ | gather _ _ => []

def keywords : Step → List String
  | terminal (.keyword word) => [word]
  | _ => []

end Step

/-- Matching a labelled rule makes one node; the nodes of any other rule go to the rule that refers
to it. -/
structure Rule where
  label? : Option String
  steps : List Step
  deriving DecidableEq, Repr

namespace Rule

def plain (steps : List Step) : Rule := ⟨none, steps⟩
def labeled (label : String) (steps : List Step) : Rule := ⟨some label, steps⟩

end Rule
end HandlerGrammar
