import HandlerGrammar.Handler

/-! # Running handlers over a tree

A table holds actions by name. Over a tree it runs the action of each node whose label it knows,
after those of the nodes below it, and stops at the first failure. -/
namespace HandlerGrammar
set_option autoImplicit false

/-- The failure of an action on the node that starts on `line`. -/
structure HandlerFailure where
  name : String
  line : Nat
  reason : String
  deriving DecidableEq, Repr

namespace HandlerFailure

def message (e : HandlerFailure) : String :=
  "handler `" ++ e.name ++ "` failed at line " ++ toString e.line ++ ": " ++ e.reason

end HandlerFailure

/-- Actions by name, in order of names. -/
structure HandlerTable (C : Type) where
  entries : List (String × Action C)

namespace HandlerTable

variable {C : Type}

/-- Enter an action at its place, instead of an earlier one of the same name. -/
def insertEntry (name : String) (action : Action C) :
    List (String × Action C) → List (String × Action C)
  | [] => [(name, action)]
  | e :: es =>
    if name < e.1 then (name, action) :: e :: es
    else if e.1 < name then e :: insertEntry name action es
    else (name, action) :: es

def ofList (entries : List (String × Action C)) : HandlerTable C :=
  ⟨entries.foldl (fun es e => insertEntry e.1 e.2 es) []⟩

def action? (table : HandlerTable C) (name : String) : Option (Action C) :=
  table.entries.lookup name

def handles (table : HandlerTable C) (name : String) : Bool := (table.action? name).isSome

def names (table : HandlerTable C) : List String := table.entries.map (·.1)

/-- The table on one line, without the actions. -/
def summary (table : HandlerTable C) : String :=
  "AstTransformer \x7b handlers: " ++ Text.quotedList table.names ++ " \x7d"

/-- Run the action for the node's own label, if there is one. -/
def handle (table : HandlerTable C) (t : ParseTree) : EStateM HandlerFailure C Unit := fun c =>
  match t.label with
  | none => .ok () c
  | some name =>
    match table.action? name with
    | none => .ok () c
    | some action =>
      match action t c with
      | .ok _ c' => .ok () c'
      | .error reason c' => .error ⟨name, t.line, reason⟩ c'

mutual
/-- Run the actions for a node and all nodes below it. -/
def transform (table : HandlerTable C) : ParseTree → EStateM HandlerFailure C Unit
  | .leaf label token => table.handle (.leaf label token)
  | .branch label line children => do
    transformAll table children
    table.handle (.branch label line children)

def transformAll (table : HandlerTable C) : List ParseTree → EStateM HandlerFailure C Unit
  | [] => pure ()
  | t :: ts => do
    transform table t
    transformAll table ts
end

end HandlerTable
end HandlerGrammar
