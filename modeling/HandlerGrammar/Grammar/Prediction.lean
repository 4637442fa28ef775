import HandlerGrammar.Grammar.Basic
import HandlerGrammar.Grammar.Lookahead

/-! # Prediction from the next token

Whether a rule can start at a position is judged from the token there alone. A rule under
inspection is not inspected again inside itself: a way to start through it would be a longer way to
what the inspection finds anyway. -/
namespace HandlerGrammar.Grammar
set_option autoImplicit false

variable {σ : Type}

/-- Whether any of the rules can start, asking them in order. -/
def anyStarts (starts : RuleId → Match σ Bool) : List RuleId → Match σ Bool
  | [] => return false
  | id :: ids => do
    if ← starts id then
      return true
    else
      anyStarts starts ids

/-- Whether a sequence of steps can start. Steps that may take no token pass the question on, and a
sequence that takes no token can start anywhere. -/
def stepsStart (look : Lookahead σ) (starts : RuleId → Match σ Bool) (pos : Nat) :
    List Step → Match σ Bool
  | [] => return true
  | .terminal x :: _ => return (← test look pos x).isSome
  | .rule id :: _ => starts id
  | .optional id :: steps | .many id :: steps => do
    if ← starts id then
      return true
    else
      stepsStart look starts pos steps
  | .choice ids :: _ | .dispatch ids :: _ => anyStarts starts ids
  | .gather _ _ :: steps => stepsStart look starts pos steps

/-- Whether a rule can start, inspecting at most `depth` rules inside each other. -/
def startsWithin (g : Grammar) (look : Lookahead σ) (pos : Nat) :
    Nat → List RuleId → RuleId → Match σ Bool
  | 0, _, _ => throw .diverged
  | depth + 1, inspected, id =>
    match g.rule? id with
    | none => return false
    | some rule =>
      if inspected.contains id then
        return false
      else
        stepsStart look (g.startsWithin look pos depth (id :: inspected)) pos rule.steps

/-- Whether a rule can start at a position. -/
def starts (g : Grammar) (look : Lookahead σ) (id : RuleId) (pos : Nat) : Match σ Bool :=
  g.startsWithin look pos (g.rules.length + 1) [] id

end HandlerGrammar.Grammar
