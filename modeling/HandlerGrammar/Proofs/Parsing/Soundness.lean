import HandlerGrammar.Proofs.Matching.ContextFree
import HandlerGrammar.Proofs.Parsing.Session

/-! # Parses are sound

Whatever has been asked of a stream before, a parse that succeeds takes all tokens that were still
to come, these are derived from the entry rule in the context-free reading of the grammar, and the
tree is read off a derivation of them.

* `Grammar.parse_taken`: the tokens that a parse takes and their derivation;
* `parse_sound`: the tokens taken and the tree. -/
namespace HandlerGrammar
open Text
set_option autoImplicit false

/-- A parse that succeeds takes the tokens still to come, with the keywords of the grammar reserved,
by a derivation whose nodes make the tree. -/
theorem Grammar.parse_taken {g : Grammar} {s s' : TokenStream} (hs : s.Classified)
    {tree : ParseTree} (h : g.parse s = .ok tree s') :
    let taken := s.pending.map (Token.reserve fun w => s.isReserved w || g.keywords.contains w)
    let shown := fun k => taken[k]?.getD (.eof (max s.lastLine 1))
    s'.pending = [] ∧ ∃ d, Derives g shown [.rule g.entry] [d] 0 taken.length ∧
      d.tokens = taken ∧ tree = Grammar.treeOf (shown 0).line d.nodes := by
  intro taken shown
  have htaken : (g.prepared s).upcoming = taken := Grammar.upcoming_prepared hs
  have hshown : (g.prepared s).shown = shown := by
    funext k
    rw [shown_prepared g hs, htaken]
  obtain ⟨d, hd, htokens, htree⟩ := Grammar.parse_derives hs h
  rw [hshown, htaken] at hd
  rw [htaken] at htokens
  rw [hshown] at htree
  refine ⟨?_, d, hd, htokens, htree⟩
  rw [← TokenStream.scanned_view, (Grammar.left_by_ok hs h).2]
  rfl

/-- A parse that succeeds takes the tokens still to come, with the keywords of the grammar reserved.
They have a derivation from the entry rule, and the nodes of that make the tree. -/
theorem parse_sound (g : Grammar) (v : Vocabulary) (bytes : List UInt8) (before : List Request)
    {tree : ParseTree} {s' : TokenStream}
    (h : g.parse (attend before (.ofBytes v bytes)).2 = .ok tree s') :
    let s := (attend before (.ofBytes v bytes)).2
    let taken := s.pending.map (Token.reserve fun w => s.isReserved w || g.keywords.contains w)
    let shown := fun k => taken[k]?.getD (.eof (max s.lastLine 1))
    s'.pending = [] ∧ Yields g [.rule g.entry] taken ∧
    ∃ d, Derives g shown [.rule g.entry] [d] 0 taken.length ∧ d.tokens = taken ∧
      tree = Grammar.treeOf (shown 0).line d.nodes := by
  intro s taken shown
  obtain ⟨hempty, d, hd, htokens, htree⟩ :=
    Grammar.parse_taken (classified_attend v bytes before) h
  have hyields := hd.yields
  rw [Derivation.tokensOf, Derivation.tokensOf, List.append_nil, htokens] at hyields
  exact ⟨hempty, hyields, d, hd, htokens, htree⟩

/-! ## An example -/

/-- Parentheses, with the same inside them or nothing. -/
def parensRule : Rule := .labeled "parens" [.separator "(", .optional 0, .separator ")"]

def parensGrammar : Grammar := ⟨[⟨"parens", parensRule⟩], 0, WordSet.ofList []⟩

/-- The text `(())`. -/
def parensSource : List UInt8 := [40, 40, 41, 41]

theorem parse_sound_sample : ∃ tree s',
    parensGrammar.parse (attend [.call (.peek 1)] (.ofBytes .standard parensSource)).2 = .ok tree s' ∧
    s'.pending = [] ∧ ∃ taken, taken.map Token.text = ["(", "(", ")", ")"] ∧
      Yields parensGrammar [.rule 0] taken := by
  obtain ⟨tree, hparse⟩ := parensGrammar.parse_of_isOk
    (s := (attend [.call (.peek 1)] (.ofBytes .standard parensSource)).2) (by decide +kernel)
  obtain ⟨hpending, hyields, -⟩ :=
    parse_sound parensGrammar .standard parensSource [.call (.peek 1)] hparse
  exact ⟨tree, _, hparse, hpending, _, by decide +kernel, hyields⟩

end HandlerGrammar
