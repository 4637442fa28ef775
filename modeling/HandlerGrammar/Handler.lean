import HandlerGrammar.ParseTree
import HandlerGrammar.Text.Quoted

/-! # Handlers

A handler is a named action on parse trees. Its mode says what its value looks like in a document,
its chain under which other handlers it is nested: each entry is the parent of the next, the last
one the handler's own parent. -/
namespace HandlerGrammar
set_option autoImplicit false

/-- * `primary`: a scalar, with nothing nested in it;
* `wrapper`: a group of members that adds no syntax of its own where it is nested;
* `object`: members in braces;
* `array`: elements in square brackets. -/
inductive Mode where
  | primary | wrapper | object | array
  deriving DecidableEq, Repr

namespace Mode

def name : Mode → String
  | primary => "Primary"
  | wrapper => "Wrapper"
  | object => "Object"
  | array => "Array"

end Mode

/-- What is done with a matched node: it changes a context or fails with a message, and keeps what
it changed before it failed. -/
abbrev Action (C : Type) := ParseTree → EStateM String C Unit

/-- A list without the entries that repeat the one before them. -/
def collapseRepeats : List String → List String
  | a :: b :: rest => if a = b then collapseRepeats (b :: rest) else a :: collapseRepeats (b :: rest)
  | l => l

structure Handler (C : Type) where
  name : String
  mode : Mode
  chain : List String
  action : Action C

namespace Handler

variable {C : Type}

def parent? (h : Handler C) : Option String := h.chain.getLast?

def collapseChain (h : Handler C) : Handler C := { h with chain := collapseRepeats h.chain }

/-- The handler on one line, without its action. -/
def summary (h : Handler C) : String :=
  "BindMethod \x7b name: " ++ Text.quoted h.name ++ ", mode: " ++ h.mode.name ++
    ", prefix: " ++ Text.quotedList h.chain ++ ", .. \x7d"

/-- Whether a name can be given to a handler; `@` begins the labels of generic nodes. -/
def isValidName (name : String) : Bool := name.toList.head?.any (· ≠ '@')

end Handler

/-- Handlers with those nested in them, in order of names. -/
inductive HandlerTree (C : Type) where
  | node (handler : Handler C) (children : List (HandlerTree C))

namespace HandlerTree

variable {C : Type}

def handler : HandlerTree C → Handler C
  | node h _ => h

def children : HandlerTree C → List (HandlerTree C)
  | node _ children => children

def name (t : HandlerTree C) : String := t.handler.name

/-- The tree with the repeated entries of its own handler's chain left out. -/
def collapseChain : HandlerTree C → HandlerTree C
  | node h children => node h.collapseChain children

/-- Put a tree at its place in a list in order of names, instead of one of the same name. -/
def insertByName (t : HandlerTree C) : List (HandlerTree C) → List (HandlerTree C)
  | [] => [t]
  | u :: us =>
    if t.name < u.name then t :: u :: us
    else if u.name < t.name then u :: insertByName t us
    else t :: us

mutual
/-- The handlers of a tree, each before those nested in it. -/
def handlers : HandlerTree C → List (Handler C)
  | node h children => h :: handlersOf children

def handlersOf : List (HandlerTree C) → List (Handler C)
  | [] => []
  | t :: ts => handlers t ++ handlersOf ts
end

end HandlerTree
end HandlerGrammar
