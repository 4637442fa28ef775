import HandlerGrammar.BuildError
import HandlerGrammar.Handler

/-! # Ancestry

Handlers name their ancestors, and the direct parents so named have to form a forest that agrees
with every chain. Parents are listed as pairs of a handler's name and its parent's, in order of the
former.

* `directParents`: the pairs, if every ancestor is known and no parent is primary;
* `findCycle`: the first cycle met in following parents;
* `brokenLink`: a neighbouring pair of a chain that no direct parent bears out;
* `acceptedParents`: the pairs, if nothing of this speaks against them. -/
namespace HandlerGrammar
set_option autoImplicit false

variable {C : Type}

def lookupHandler (handlers : List (Handler C)) (name : String) : Option (Handler C) :=
  handlers.find? (·.name == name)

/-- The direct parents of the given handlers among all `registered` ones. -/
def directParents (registered : List (Handler C)) :
    List (Handler C) → Except BuildError (List (String × String))
  | [] => .ok []
  | h :: hs =>
    match h.chain.find? (fun a => (lookupHandler registered a).isNone) with
    | some ancestor => .error (.unknownAncestor h.name ancestor)
    | none =>
      match h.parent? with
      | none => directParents registered hs
      | some parent =>
        if (lookupHandler registered parent).any (·.mode == .primary) then
          .error (.primaryParent h.name parent)
        else
          (directParents registered hs).map ((h.name, parent) :: ·)

/-! ## Cycles -/

/-- Follow parents from a name with the names on the way. The walk ends at a name without a parent
or at one already cleared, or it comes back to a name on its way and gives the cycle. -/
def climb (parents : List (String × String)) (cleared : List String) :
    Nat → List String → String → Except (List String) (List String)
  | 0, path, _ => .ok path
  | steps + 1, path, name =>
    if cleared.contains name then .ok path
    else if path.contains name then .error (path.dropWhile (· ≠ name) ++ [name])
    else
      match parents.lookup name with
      | none => .ok (path ++ [name])
      | some parent => climb parents cleared steps (path ++ [name]) parent

/-- The first cycle met from the given names. The names on a walk without one are cleared. -/
def findCycleFrom (parents : List (String × String)) (cleared : List String) :
    List String → Option (List String)
  | [] => none
  | start :: starts =>
    match climb parents cleared (parents.length + 1) [] start with
    | .error cycle => some cycle
    | .ok path => findCycleFrom parents (cleared ++ path) starts

/-- A cycle of parents, its first name repeated at its end. -/
def findCycle (parents : List (String × String)) : Option (List String) :=
  findCycleFrom parents [] (parents.map (·.1))

/-! ## Chains -/

/-- The first two neighbours of a chain of which the former is not the latter's parent. -/
def brokenLink (parents : List (String × String)) : List String → Option (String × String)
  | outer :: inner :: rest =>
    if parents.lookup inner = some outer then brokenLink parents (inner :: rest)
    else some (outer, inner)
  | _ => none

/-- Check the chains of the handlers in order. -/
def checkChains (parents : List (String × String)) : List (Handler C) → Except BuildError Unit
  | [] => .ok ()
  | h :: hs =>
    match brokenLink parents h.chain with
    | some (outer, inner) => .error (.ambiguous h.name outer inner)
    | none => checkChains parents hs

/-! ## All together -/

/-- The direct parents, or the first objection to the chains: unknown ancestors and primary parents,
then cycles, then chains that contradict the direct parents. -/
def acceptedParents (handlers : List (Handler C)) : Except BuildError (List (String × String)) := do
  let parents ← directParents handlers handlers
  match findCycle parents with
  | some path => throw (.cycle path)
  | none =>
    checkChains parents handlers
    return parents

end HandlerGrammar
