import HandlerGrammar.Grammar.Basic
import HandlerGrammar.Handler

/-! # The grammar of documents

A forest of handlers describes documents: the value of a root, and inside it members written
`name : value` for the handlers nested there. A nested wrapper is no member itself; its members
stand among those of the container around it and are gathered under one node when the container
has matched. Containers without handlers of their own hold generic values. -/
namespace HandlerGrammar
set_option autoImplicit false

def objectLabel : String := "@object"
def arrayLabel : String := "@array"
def propertyLabel : String := "@property"

/-- An arena with the rules that are shared once some container needs them: those of scalars, of
generic values, of their lists of properties and of a property. -/
structure Draft where
  arena : Arena
  scalar? : Option RuleId
  value? : Option RuleId
  members? : Option RuleId
  property? : Option RuleId
  deriving DecidableEq, Repr

abbrev Drafting := EStateM BuildError Draft

namespace Draft

def empty : Draft := ⟨.empty, none, none, none, none⟩

def declare (name : String) : Drafting RuleId := fun d =>
  let (id, arena) := d.arena.declare name
  .ok id { d with arena }

def add (rule : Rule) : Drafting RuleId := fun d =>
  let (id, arena) := d.arena.add rule
  .ok id { d with arena }

def define (id : RuleId) (rule : Rule) : Drafting Unit := fun d =>
  match d.arena.define id rule with
  | .ok arena => .ok () { d with arena }
  | .error e => .error e d

/-! ## Shared rules -/

/-- One or more items between commas. -/
def list (item : RuleId) : Drafting RuleId := do
  let rest ← add (.plain [.separator ",", .rule item])
  add (.plain [.rule item, .many rest])

/-- A number, a string, a truth value or `null`. -/
def scalar : Drafting RuleId := do
  match (← get).scalar? with
  | some id => return id
  | none =>
    let number ← add (.plain [.token .number])
    let string ← add (.plain [.token .string])
    let bool ← add (.plain [.token .bool])
    let null ← add (.plain [.keyword "null"])
    let id ← add (.plain [.choice [number, string, bool, null]])
    modify ({ · with scalar? := some id })
    return id

/-- The body of generic values: an object, an array or a scalar. -/
def defineValue (value members scalar : RuleId) : Drafting Unit := do
  let object ← add (.labeled objectLabel
    [.separator "\x7b", .optional members, .separator "\x7d"])
  let elements ← list value
  let array ← add (.labeled arrayLabel [.separator "[", .optional elements, .separator "]"])
  define value (.plain [.choice [object, array, scalar]])

/-- A key, which may be any word, and a generic value. -/
def addProperty (value : RuleId) : Drafting RuleId := do
  let string ← add (.plain [.token .string])
  let identifier ← add (.plain [.token .identifier])
  let reserved ← add (.plain [.token .reserved])
  let key ← add (.plain [.choice [string, identifier, reserved]])
  add (.labeled propertyLabel [.rule key, .separator ":", .rule value])

def defineMembers (members property : RuleId) : Drafting Unit := do
  let rest ← add (.plain [.separator ",", .rule property])
  define members (.plain [.rule property, .many rest])

/-! The generic rules refer to each other, so those of values and of lists of properties are declared
before they are drafted, and kept from then on. -/

def declareValue : Drafting RuleId := do
  let value ← declare "@value"
  modify ({ · with value? := some value })
  return value

def declareMembers : Drafting RuleId := do
  let members ← declare "@members"
  modify ({ · with members? := some members })
  return members

mutual
/-- A generic value. -/
def value : Nat → Drafting RuleId
  | 0 => throw (.undefinedRule "@value")
  | depth + 1 => do
    match (← get).value? with
    | some id => return id
    | none =>
      let value ← declareValue
      let scalar ← scalar
      let members ← members depth
      defineValue value members scalar
      return value

/-- A generic property. The rule may have been drafted with that of its value. -/
def property : Nat → Drafting RuleId
  | 0 => throw (.undefinedRule "@property")
  | depth + 1 => do
    match (← get).property? with
    | some id => return id
    | none =>
      let value ← value depth
      match (← get).property? with
      | some id => return id
      | none =>
        let property ← addProperty value
        modify ({ · with property? := some property })
        return property

/-- One or more generic properties between commas. -/
def members : Nat → Drafting RuleId
  | 0 => throw (.undefinedRule "@members")
  | depth + 1 => do
    match (← get).members? with
    | some id => return id
    | none =>
      let members ← declareMembers
      let property ← property depth
      defineMembers members property
      return members
end

/-- How deep the generic rules can be drafted inside each other: past what is kept already, every
other of them declares one of the two rules that are declared first. -/
def genericDepth : Nat := 6

end Draft

/-! ## Handlers -/

namespace HandlerTree

variable {C : Type}

/-- The labels that a wrapper with the given children gathers. -/
def memberLabels (children : List (HandlerTree C)) : List String :=
  if children.isEmpty then [propertyLabel] else children.map name

mutual
/-- The wrappers nested in a container through wrappers only, inner ones first, with the labels
that each gathers. -/
def wrapperGroups : List (HandlerTree C) → List (String × List String)
  | [] => []
  | t :: ts => wrapperGroup t ++ wrapperGroups ts

def wrapperGroup : HandlerTree C → List (String × List String)
  | node h children =>
    if h.mode = .wrapper then wrapperGroups children ++ [(h.name, memberLabels children)]
    else []
end

/-- Members in braces, then the wrappers gathered from them. Without alternatives the members are
generic properties. -/
def container (children : List (HandlerTree C)) (alternatives : Drafting (List RuleId)) :
    Drafting RuleId := do
  let ids ← alternatives
  let members ←
    if ids.isEmpty then
      Draft.members Draft.genericDepth
    else do
      let member ← Draft.add (.plain [.dispatch ids])
      Draft.list member
  let gathers := (wrapperGroups children).map fun (label, labels) => Step.gather label labels
  Draft.add (.plain ([.separator "\x7b", .optional members, .separator "\x7d"] ++ gathers))

/-- The value of a handler with the given children, whose members `alternatives` drafts. -/
def value (mode : Mode) (children : List (HandlerTree C))
    (alternatives : Drafting (List RuleId)) : Drafting RuleId :=
  match mode with
  | .primary => Draft.scalar
  | .wrapper | .object => container children alternatives
  | .array => do
    let element ←
      if children.isEmpty then
        Draft.value Draft.genericDepth
      else
        container children alternatives
    let elements ← Draft.list element
    Draft.add (.plain [.separator "[", .optional elements, .separator "]"])

mutual
/-- The members that nested handlers offer, in order. -/
def alternatives : List (HandlerTree C) → Drafting (List RuleId)
  | [] => return []
  | t :: ts => do
    let first ← offered t
    let others ← alternatives ts
    return first ++ others

/-- The members that a nested handler offers: its own, or those of its children if it is a wrapper.
A wrapper without children offers a generic property. -/
def offered : HandlerTree C → Drafting (List RuleId)
  | node h children =>
    if h.mode = .wrapper then
      if children.isEmpty then do
        return [← Draft.property Draft.genericDepth]
      else
        alternatives children
    else do
      let value ← value h.mode children (alternatives children)
      let member ← Draft.add (.labeled h.name [.keyword h.name, .separator ":", .rule value])
      return [member]
end

/-- A document of a root. -/
def root : HandlerTree C → Drafting RuleId
  | node h children => do
    let value ← value h.mode children (alternatives children)
    Draft.add (.labeled h.name [.rule value])

/-- A document of any of the roots. -/
def entry (roots : List (HandlerTree C)) : Drafting RuleId := do
  match ← roots.mapM root with
  | [] => throw .noHandlers
  | [id] => return id
  | ids => Draft.add (.plain [.choice ids])

/-- The grammar of the documents that the roots describe. -/
def grammar (roots : List (HandlerTree C)) : Except BuildError Grammar :=
  match entry roots .empty with
  | .ok id d => d.arena.build id
  | .error e _ => .error e

end HandlerTree
end HandlerGrammar
