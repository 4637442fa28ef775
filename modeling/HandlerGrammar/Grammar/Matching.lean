import HandlerGrammar.Grammar.Prediction
import HandlerGrammar.ParseTree

/-! # Matching rules

A rule is matched step by step from a position on. An optional or repeated rule that prediction
lets in must match; a choice keeps the first rule that matches. Each function takes the match of a
referenced rule as an argument, and `matchRule` ties the knot to a given depth. -/
namespace HandlerGrammar
set_option autoImplicit false

/-- What was matched: the nodes made and the position behind. -/
structure Matched where
  nodes : List ParseTree
  next : Nat

namespace Grammar

variable {σ : Type}

/-- Take one token. -/
def matchTerminal (look : Lookahead σ) (x : Terminal) (pos : Nat) : Match σ Matched := do
  match ← test look pos x with
  | some t => return ⟨if x.isKept then [.leaf none t] else [], pos + 1⟩
  | none => throw .mismatch

/-- Match the first of several rules that fits. -/
def matchFirst (matchRef : RuleId → Nat → Match σ Matched) (pos : Nat) :
    List RuleId → Match σ Matched
  | [] => throw .mismatch
  | id :: ids => fun p =>
    match matchRef id pos p with
    | .error .mismatch p' => matchFirst matchRef pos ids p'
    | outcome => outcome

/-- Match one of several rules. With none to try a key is missing. -/
def matchChoice (matchRef : RuleId → Nat → Match σ Matched) (ids : List RuleId) (pos : Nat) :
    Match σ Matched :=
  if ids.isEmpty then refuse pos "a known key" else matchFirst matchRef pos ids

/-- Match a rule as often as it can start, at most `count` times. A match that takes no token is
the last one. -/
def matchMany (starts : Nat → Match σ Bool) (matchOne : Nat → Match σ Matched) :
    Nat → Nat → Match σ Matched
  | 0, _ => throw .diverged
  | count + 1, pos => do
    if ← starts pos then
      let one ← matchOne pos
      if one.next = pos then
        return one
      else
        let others ← matchMany starts matchOne count one.next
        return ⟨one.nodes ++ others.nodes, others.next⟩
    else
      return ⟨[], pos⟩

/-- Match the steps that take tokens; regrouping is left to `matchSteps`. -/
def matchStep (g : Grammar) (look : Lookahead σ) (matchRef : RuleId → Nat → Match σ Matched)
    (count : Nat) (step : Step) (pos : Nat) : Match σ Matched :=
  match step with
  | .terminal x => matchTerminal look x pos
  | .rule id => matchRef id pos
  | .optional id => do
    if ← g.starts look id pos then
      matchRef id pos
    else
      return ⟨[], pos⟩
  | .many id => matchMany (g.starts look id) (matchRef id) count pos
  | .choice ids => matchChoice matchRef ids pos
  | .dispatch ids => do
    let t ← tokenAt look pos
    matchChoice matchRef (g.candidates ids t.word) pos
  | .gather _ _ => return ⟨[], pos⟩

/-- Match a sequence of steps after what has been matched already. -/
def matchSteps (g : Grammar) (look : Lookahead σ) (matchRef : RuleId → Nat → Match σ Matched)
    (count line : Nat) : List Step → Matched → Match σ Matched
  | [], m => return m
  | .gather label members :: steps, m =>
    g.matchSteps look matchRef count line steps
      { m with nodes := ParseTree.gather label members line m.nodes }
  | step :: steps, m => do
    let one ← g.matchStep look matchRef count step m.next
    g.matchSteps look matchRef count line steps ⟨m.nodes ++ one.nodes, one.next⟩

/-- The nodes of a rule that matched from `line` on. -/
def ruleNodes (rule : Rule) (line : Nat) (nodes : List ParseTree) : List ParseTree :=
  match rule.label? with
  | some label => [.labeled label line nodes]
  | none => nodes

/-- Match a rule, with at most `depth` rules inside each other. -/
def matchRule (g : Grammar) (look : Lookahead σ) : Nat → RuleId → Nat → Match σ Matched
  | 0, _, _ => throw .diverged
  | depth + 1, id, pos =>
    match g.rule? id with
    | none => refuse pos ("rule " ++ toString id)
    | some rule => do
      let line := (← tokenAt look pos).line
      let m ← g.matchSteps look (g.matchRule look depth) depth line rule.steps ⟨[], pos⟩
      return { m with nodes := ruleNodes rule line m.nodes }

end Grammar
end HandlerGrammar
