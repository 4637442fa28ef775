import HandlerGrammar.Grammar.Parse
import HandlerGrammar.HandlerTable
import HandlerGrammar.Registry.Ancestry
import HandlerGrammar.Registry.Assembly
import HandlerGrammar.Registry.Document

/-! # Registries

A registry collects handlers in batches until it is sorted, once, into the forest that the handlers'
chains describe. Of the forest a generated grammar is made: the grammar of its documents with the
table of its handlers. -/
namespace HandlerGrammar
set_option autoImplicit false

/-- A grammar of documents with the handlers for its nodes. -/
structure GeneratedGrammar (C : Type) where
  grammar : Grammar
  table : HandlerTable C

namespace GeneratedGrammar

variable {C : Type}

inductive Failure where
  | parse (e : ParseError)
  | handler (e : HandlerFailure)
  deriving DecidableEq, Repr

/-- Parse a stream and run the handlers over the tree. -/
def run (g : GeneratedGrammar C) : EStateM Failure (TokenStream × C) ParseTree := fun (s, c) =>
  match g.grammar.parse s with
  | .error e s' => .error (.parse e) (s', c)
  | .ok tree s' =>
    match g.table.transform tree c with
    | .error e c' => .error (.handler e) (s', c')
    | .ok _ c' => .ok tree (s', c')

end GeneratedGrammar

/-- Trees in order of names: each handler on its own before sorting, the forest after it. -/
structure Registry (C : Type) where
  trees : List (HandlerTree C)
  isSorted : Bool

namespace Registry

variable {C : Type}

def empty : Registry C := ⟨[], false⟩

/-- Check the names of a batch, none of which may be taken. -/
def checkNames (taken : List String) : List (Handler C) → Except BuildError Unit
  | [] => .ok ()
  | h :: hs =>
    if !Handler.isValidName h.name then .error (.invalidName h.name)
    else if taken.contains h.name then .error (.duplicateName h.name)
    else checkNames (h.name :: taken) hs

/-- Put handlers at their places among trees, with nothing nested in them. -/
def insertAll (batch : List (Handler C)) (ts : List (HandlerTree C)) : List (HandlerTree C) :=
  batch.foldl (fun ts h => (HandlerTree.node h []).insertByName ts) ts

/-- Register a batch of handlers, all of them or none. -/
def register (batch : List (Handler C)) : EStateM BuildError (Registry C) Unit := fun r =>
  if r.isSorted then .error .alreadySorted r
  else
    match checkNames (r.trees.map (·.name)) batch with
    | .error e => .error e r
    | .ok _ => .ok () { r with trees := insertAll batch r.trees }

/-- Sort the handlers into a forest. Chains lose their repeated entries first, and keep this even
if they turn out not to describe a forest. From then on the trees are in the pool that the forest is
assembled from, and should that fail, only what is assembled remains. -/
def sort : EStateM BuildError (Registry C) Unit := fun r =>
  if r.isSorted then .error .alreadySorted r
  else
    let trees := r.trees.map HandlerTree.collapseChain
    match acceptedParents (trees.map HandlerTree.handler) with
    | .error e => .error e ⟨trees, false⟩
    | .ok parents =>
      match Assembly.run parents ⟨trees, []⟩ with
      | .error e a => .error e ⟨a.forest, false⟩
      | .ok _ a => .ok () ⟨a.forest, true⟩

/-- The forest of a registry, sorted now if it is not yet. -/
def roots (r : Registry C) : Except BuildError (List (HandlerTree C)) :=
  if r.isSorted then .ok r.trees
  else
    match sort r with
    | .ok _ s => .ok s.trees
    | .error e _ => .error e

/-- The generated grammar of a registry. -/
def generate (r : Registry C) : Except BuildError (GeneratedGrammar C) := do
  let roots ← r.roots
  let grammar ← HandlerTree.grammar roots
  let handlers := HandlerTree.handlersOf roots
  return ⟨grammar, .ofList (handlers.map fun h => (h.name, h.action))⟩

end Registry
end HandlerGrammar
