import HandlerGrammar.Grammar.Matching
import HandlerGrammar.TokenStream

/-! # Parsing a token stream

The entry rule has to match all tokens of the stream. Tokens are consumed only on success, and the
grammar's keywords stay reserved only on success: a parse that fails releases the words that it
reserved. -/
namespace HandlerGrammar
set_option autoImplicit false

/-- Why a parse has no tree. A mismatch holds the token at the frontier and what was expected in its
place. -/
inductive ParseError where
  | lexical (e : LexError)
  | mismatch (token : Token) (expected : List String)
  | diverged
  deriving DecidableEq, Repr

namespace ParseError

def message : ParseError → String
  | lexical e => e.message
  | mismatch token expected =>
    "unexpected " ++ token.describe ++ " at line " ++ toString token.line ++ ", expected " ++
      " or ".intercalate expected
  | diverged => "matching does not terminate"

end ParseError

namespace Grammar

/-- The tree for the nodes of a whole match: a single node is the tree itself. -/
def treeOf (line : Nat) : List ParseTree → ParseTree
  | [t] => t
  | nodes => .branch none line nodes

/-- Match the entry rule and the end of input behind it, and give the tree with the number of
tokens matched. -/
def matchAll {σ : Type} (g : Grammar) (look : Lookahead σ) (depth : Nat) :
    Match σ (ParseTree × Nat) := do
  let m ← g.matchRule look depth g.entry 0
  let last ← tokenAt look m.next
  if last.isEof then
    let first ← tokenAt look 0
    return (treeOf first.line m.nodes, m.next)
  else
    refuse m.next "end of input"

/-- The error of a match that stopped, read off the source where the frontier stands. -/
def errorOf {σ : Type} (look : Lookahead σ) (stop : Stop) (p : Progress σ) : ParseError × σ :=
  match stop with
  | .lexical e => (.lexical e, p.source)
  | .diverged => (.diverged, p.source)
  | .mismatch =>
    match look p.frontier.position p.source with
    | .ok t source => (.mismatch t p.frontier.expected, source)
    | .error e source => (.lexical e, source)

/-- A depth that no terminating match of `size` tokens exceeds: rules inside each other differ in
number or position, and a repetition takes a token each time but the last. -/
def depthFor (g : Grammar) (size : Nat) : Nat :=
  g.rules.length * (size + 1) + size + 3

/-- Parse all that is left of a stream. -/
def parse (g : Grammar) : EStateM ParseError TokenStream ParseTree := fun s =>
  let added := g.keywords.words.filter (!s.isReserved ·)
  let start : Progress TokenStream := ⟨s.reserveAll added, .start⟩
  match g.matchAll TokenStream.peek (g.depthFor s.size) start with
  | .ok (tree, count) p => .ok tree (p.source.advance count)
  | .error stop p =>
    let (e, s') := errorOf TokenStream.peek stop p
    .error e (s'.releaseAll added)

end Grammar
end HandlerGrammar
