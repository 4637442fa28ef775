/-! # Errors in building a grammar

Some concern rules (a declared rule without a body, a second body, an unknown rule number), the
others the handlers from which a grammar is made. -/
namespace HandlerGrammar
set_option autoImplicit false

inductive BuildError where
  | duplicateName (name : String)
  | invalidName (name : String)
  | unknownAncestor (name ancestor : String)
  | cycle (path : List String)
  | ambiguous (child first second : String)
  | primaryParent (child parent : String)
  | alreadySorted
  | noHandlers
  | undefinedRule (name : String)
  | redefinedRule (name : String)
  | unknownRule (index : Nat)
  deriving DecidableEq, Repr

namespace BuildError

private def ticked (s : String) : String := "`" ++ s ++ "`"

def message : BuildError → String
  | duplicateName name => "handler name " ++ ticked name ++ " registered twice"
  | invalidName name => "invalid handler name " ++ ticked name
  | unknownAncestor name ancestor =>
    "handler " ++ ticked name ++ " refers to unknown prefix " ++ ticked ancestor
  | cycle path => "cyclic prefix dependency: " ++ " -> ".intercalate path
  | ambiguous child first second =>
    "handler " ++ ticked child ++ " is claimed by both " ++ ticked first ++ " and " ++
      ticked second
  | primaryParent child parent =>
    "handler " ++ ticked child ++ " cannot nest under primary handler " ++ ticked parent
  | alreadySorted => "dependency tree already sorted"
  | noHandlers => "no handlers registered"
  | undefinedRule name => "rule " ++ ticked name ++ " declared but never defined"
  | redefinedRule name => "rule " ++ ticked name ++ " defined twice"
  | unknownRule index => "unknown rule handle " ++ toString index

end BuildError
end HandlerGrammar
