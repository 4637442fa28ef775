import HandlerGrammar.Grammar.Rule
import HandlerGrammar.Lexeme.Reading

/-! # Looking ahead while matching

Matching reads tokens by position from a source that it looks into and never consumes. The frontier
remembers the furthest position at which a token was refused and what was expected there. -/
namespace HandlerGrammar
set_option autoImplicit false

/-- Looking into a source of tokens `k` places ahead; the source may change by it, as when lines
are pulled. -/
abbrev Lookahead (σ : Type) := Nat → EStateM LexError σ Token

/-- The furthest refusal: its position and the expectations recorded there, first one first. -/
structure Frontier where
  position : Nat
  expected : List String
  deriving DecidableEq, Repr

namespace Frontier

def start : Frontier := ⟨0, []⟩

/-- Record an expectation. One behind the frontier is forgotten, one beyond moves it there. -/
def expect (f : Frontier) (pos : Nat) (what : String) : Frontier :=
  if pos < f.position then f
  else if f.position < pos then ⟨pos, [what]⟩
  else if f.expected.contains what then f
  else ⟨pos, f.expected ++ [what]⟩

end Frontier

/-- Why a match ends without a result. -/
inductive Stop where
  | mismatch
  | lexical (e : LexError)
  /-- The depth that every terminating match keeps within was exceeded. -/
  | diverged
  deriving DecidableEq, Repr

/-- A match in progress. -/
structure Progress (σ : Type) where
  source : σ
  frontier : Frontier

abbrev Match (σ α : Type) := EStateM Stop (Progress σ) α

variable {σ α : Type}

/-- The token at a position. -/
def tokenAt (look : Lookahead σ) (pos : Nat) : Match σ Token := fun p =>
  match look pos p.source with
  | .ok t source => .ok t { p with source }
  | .error e source => .error (.lexical e) { p with source }

def expect (pos : Nat) (what : String) : Match σ Unit :=
  modify fun p => { p with frontier := p.frontier.expect pos what }

/-- Fail for want of something at a position. -/
def refuse (pos : Nat) (what : String) : Match σ α := do
  expect pos what
  throw .mismatch

/-- Test the token at a position and record the expectation if it is refused. -/
def test (look : Lookahead σ) (pos : Nat) (x : Terminal) : Match σ (Option Token) := do
  let t ← tokenAt look pos
  if x.accepts t then
    return some t
  else
    expect pos x.describe
    return none

end HandlerGrammar
