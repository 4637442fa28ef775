import HandlerGrammar.BuildError
import HandlerGrammar.Handler

/-! # Assembling forests

A forest is put together from a pool of trees, each of which is taken out of it once. What waits in
the pool is found by its name, and what belongs below it is told by the list of direct parents. -/
namespace HandlerGrammar
set_option autoImplicit false

/-- Trees that wait for their place, and the forest made so far, both in order of names. -/
structure Assembly (C : Type) where
  pool : List (HandlerTree C)
  forest : List (HandlerTree C)

abbrev Assembling (C α : Type) := EStateM BuildError (Assembly C) α

namespace Assembly

variable {C : Type}

/-- Take the tree of a name out of the pool. -/
def take (name : String) : Assembling C (HandlerTree C) := fun a =>
  match a.pool.find? (·.name == name) with
  | none => .error (.duplicateName name) a
  | some t => .ok t { a with pool := a.pool.filter (·.name != name) }

/-- Nest a tree under another, which may not be primary. -/
def adopt (child : HandlerTree C) : HandlerTree C → Assembling C (HandlerTree C)
  | .node h children =>
    if h.mode = .primary then throw (.primaryParent child.name h.name)
    else return .node h (child.insertByName children)

/-- The names whose direct parent has the given one, in order. -/
def childrenOf (parents : List (String × String)) (name : String) : List String :=
  (parents.filter (·.2 == name)).map (·.1)

/-- Take the tree of a name with all trees that belong below it. Each level takes a tree out of the
pool, so at a depth of the pool's size there is none left at the bottom. -/
def assemble (parents : List (String × String)) : Nat → String → Assembling C (HandlerTree C)
  | 0, name => throw (.duplicateName name)
  | depth + 1, name => do
    let t ← take name
    (childrenOf parents name).foldlM (fun t child => do adopt (← assemble parents depth child) t) t

/-- Assemble the trees of some names into the forest. -/
def plant (parents : List (String × String)) (depth : Nat) : List String → Assembling C Unit
  | [] => return ()
  | name :: names => do
    let t ← assemble parents depth name
    modify fun a => { a with forest := t.insertByName a.forest }
    plant parents depth names

/-- Assemble the trees that have no parent. -/
def run (parents : List (String × String)) : Assembling C Unit := do
  let names := (← get).pool.map (·.name)
  plant parents names.length (names.filter fun name => (parents.lookup name).isNone)

end Assembly
end HandlerGrammar
