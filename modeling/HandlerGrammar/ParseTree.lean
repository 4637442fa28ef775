import HandlerGrammar.Token

/-! # Parse trees

A leaf holds a token, a branch its children; either may carry a label.

* `labeled`: the node of a labelled rule, a lone unlabelled leaf taking the label itself;
* `gather`: regrouping of the nodes with certain labels under one new branch;
* `fold`: evaluation from the leaves up. -/
namespace HandlerGrammar
set_option autoImplicit false

inductive ParseTree where
  | leaf (label : Option String) (token : Token)
  | branch (label : Option String) (line : Nat) (children : List ParseTree)

namespace ParseTree

def label : ParseTree → Option String
  | leaf label _ | branch label _ _ => label

/-- The line on which the node starts. -/
def line : ParseTree → Nat
  | leaf _ token => token.line
  | branch _ line _ => line

def children : ParseTree → List ParseTree
  | leaf _ _ => []
  | branch _ _ children => children

def token? : ParseTree → Option Token
  | leaf _ token => some token
  | branch _ _ _ => none

/-- The first child with the label. -/
def child? (t : ParseTree) (label : String) : Option ParseTree :=
  t.children.find? (·.label == some label)

/-- The node for what a rule labelled `label` matched from `line` on. -/
def labeled (label : String) (line : Nat) : List ParseTree → ParseTree
  | [leaf none token] => leaf (some label) token
  | children => branch (some label) line children

/-! ## Folds -/

mutual
/-- The value of a node from its token or from the values of its children. -/
def fold {α : Type} (onLeaf : Option String → Token → α)
    (onBranch : Option String → Nat → List α → α) : ParseTree → α
  | leaf label token => onLeaf label token
  | branch label line children => onBranch label line (foldAll onLeaf onBranch children)

def foldAll {α : Type} (onLeaf : Option String → Token → α)
    (onBranch : Option String → Nat → List α → α) : List ParseTree → List α
  | [] => []
  | t :: ts => fold onLeaf onBranch t :: foldAll onLeaf onBranch ts
end

/-- The tokens of the leaves from left to right. -/
def tokens : ParseTree → List Token :=
  fold (fun _ token => [token]) (fun _ _ parts => parts.flatten)

/-- The labels of the labelled nodes, those below a node before its own. -/
def labels : ParseTree → List String :=
  fold (fun label _ => label.toList) (fun label _ parts => parts.flatten ++ label.toList)

/-! ## Regrouping -/

/-- Whether a node carries one of the labels. -/
def isMember (members : List String) (t : ParseTree) : Bool :=
  t.label.any members.contains

/-- Move the nodes labelled by `members` under a new branch, which takes the place of the first of
them. Without any, the new branch is empty, stands last and starts on `line`. -/
def gather (label : String) (members : List String) (line : Nat) (nodes : List ParseTree) :
    List ParseTree :=
  let moved := nodes.filter (isMember members)
  let before := nodes.takeWhile (!isMember members ·)
  let after := (nodes.dropWhile (!isMember members ·)).filter (!isMember members ·)
  before ++ branch (some label) ((moved.head?.map ParseTree.line).getD line) moved :: after

end ParseTree
end HandlerGrammar
