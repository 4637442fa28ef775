import HandlerGrammar.BuildError
import HandlerGrammar.Grammar.Rule
import HandlerGrammar.WordSet

/-! # Grammars and the arenas they are built in

Rules are numbered in the order in which they enter an arena. A rule may be declared by name first
and defined later, so rules can refer to each other in cycles. A grammar is a closed arena: every
rule has a body and every number that is mentioned belongs to a rule. -/
namespace HandlerGrammar
set_option autoImplicit false

structure Slot where
  name : String
  rule? : Option Rule
  deriving DecidableEq, Repr

structure Arena where
  slots : List Slot
  deriving DecidableEq, Repr

structure NamedRule where
  name : String
  rule : Rule
  deriving DecidableEq, Repr

structure Grammar where
  rules : List NamedRule
  entry : RuleId
  /-- The words that the grammar tests for as keywords. -/
  keywords : WordSet
  deriving DecidableEq

namespace Arena

def empty : Arena := ⟨[]⟩

/-- A number for a rule whose body is still to come. -/
def declare (a : Arena) (name : String) : RuleId × Arena :=
  (a.slots.length, ⟨a.slots ++ [⟨name, none⟩]⟩)

/-- Enter a rule under its label, or under its number if it has none. -/
def add (a : Arena) (rule : Rule) : RuleId × Arena :=
  let name := rule.label?.getD ("rule#" ++ toString a.slots.length)
  (a.slots.length, ⟨a.slots ++ [⟨name, some rule⟩]⟩)

/-- Give a declared rule its body. -/
def define (a : Arena) (id : RuleId) (rule : Rule) : Except BuildError Arena :=
  match a.slots[id]? with
  | none => .error (.unknownRule id)
  | some ⟨name, some _⟩ => .error (.redefinedRule name)
  | some ⟨name, none⟩ => .ok ⟨a.slots.set id ⟨name, some rule⟩⟩

/-- The rules of the slots, or the name of the first one without a body. -/
def defined : List Slot → Except BuildError (List NamedRule)
  | [] => .ok []
  | ⟨name, none⟩ :: _ => .error (.undefinedRule name)
  | ⟨name, some rule⟩ :: slots => (defined slots).map (⟨name, rule⟩ :: ·)

/-- Close the arena. A rule without a body is reported first, then the entry, then the first number
that belongs to no rule. -/
def build (a : Arena) (entry : RuleId) : Except BuildError Grammar :=
  match defined a.slots with
  | .error e => .error e
  | .ok rules =>
    let steps := rules.flatMap (·.rule.steps)
    let mentioned := entry :: steps.flatMap Step.references
    match mentioned.find? (rules.length ≤ ·) with
    | some id => .error (.unknownRule id)
    | none => .ok ⟨rules, entry, WordSet.ofList (steps.flatMap Step.keywords)⟩

end Arena

namespace Grammar

def rule? (g : Grammar) (id : RuleId) : Option Rule := g.rules[id]?.map (·.rule)

def ruleName? (g : Grammar) (id : RuleId) : Option String := g.rules[id]?.map (·.name)

/-- The literal with which a rule begins, looked for through at most `depth` rules. -/
def leadingLiteralWithin (g : Grammar) : Nat → RuleId → Option String
  | 0, _ => none
  | depth + 1, id =>
    match g.rule? id with
    | some ⟨_, .terminal x :: _⟩ => x.literal?
    | some ⟨_, .rule inner :: _⟩ => g.leadingLiteralWithin depth inner
    | _ => none

/-- The separator or keyword with which a rule must begin, if it is fixed by the first steps of the
rule and of those it begins with. -/
def leadingLiteral (g : Grammar) (id : RuleId) : Option String :=
  g.leadingLiteralWithin g.rules.length id

/-- The rules that may match where the next token has the given word: those that begin with it as a
literal, then those that begin with no literal. -/
def candidates (g : Grammar) (ids : List RuleId) (word : String) : List RuleId :=
  ids.filter (g.leadingLiteral · = some word) ++ ids.filter (g.leadingLiteral · = none)

end Grammar
end HandlerGrammar
