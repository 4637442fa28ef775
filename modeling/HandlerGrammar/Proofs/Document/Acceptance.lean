import HandlerGrammar.Proofs.Document.Drafting
import HandlerGrammar.Proofs.Document.Matching
import HandlerGrammar.Proofs.Matching.Parsing
import HandlerGrammar.Proofs.Registry.Sorting

/-! # Generated grammars accept the declared language

The grammar generated from a forest accepts a source exactly if its tokens, with the words reserved
that the grammar tests for, make up a document of the forest.

* `LaidOut.parse_iff`: the parses that succeed in a grammar laid out by a plan;
* `generate_laidOut`: a registry that sorts generates such a grammar;
* `generate_accepts_iff`: both together, for fresh streams. -/
namespace HandlerGrammar
open Text
set_option autoImplicit false

variable {C : Type}

/-- Where no line to come is faulty, a parse succeeds exactly if the upcoming tokens are a phrase of
the part that the entry describes. -/
theorem LaidOut.parse_iff {g : Grammar} {plan : List (Part C)} (h : LaidOut g plan) {p : Part C}
    (hentry : plan[g.entry]? = some p) (hp : p.isItem = true) {s : TokenStream} (hs : s.Classified)
    (hfaults : s.faults = []) :
    (∃ tree s', g.parse s = .ok tree s') ↔ Phrase p (g.prepared s).upcoming := by
  constructor
  · rintro ⟨tree, s', hparse⟩
    obtain ⟨d, hd, htokens, -⟩ := Grammar.parse_derives hs hparse
    rw [← htokens]
    exact h.phrase hentry hd
  · intro hphrase
    have hprepared := Grammar.prepared_classified (g := g) hs
    have hnofault : (g.prepared s).faults = [] :=
      (TokenStream.reserveAll_spec hs _).2.2.1.trans hfaults
    have hlook : Shows _ TokenStream.peek (g.prepared s).shown (fun _ => False) :=
      (TokenStream.shows_peek hprepared).mono fun e ⟨l, hl, _⟩ => by
        rw [hnofault] at hl
        cases hl
    have hreads : Reads (g.prepared s).shown 0 (g.prepared s).upcoming := by
      refine reads_iff.mpr fun i hi => ?_
      rw [Nat.zero_add, TokenStream.shown, List.getElem?_eq_getElem hi]
      rfl
    have hcompletes : Completes _ (g.matchRule TokenStream.peek (g.depthFor s.size) g.entry 0)
        (0 + (g.prepared s).upcoming.length) :=
      (h.completes (hlook.mono fun _ => False.elim) hphrase).item hp hentry hreads
    have hends := Grammar.ends_of_depthFor h.acyclic (hlook.mono fun _ => False.elim)
      (fun k hk => (TokenStream.shown_isEof hprepared k).mpr hk) g.entry
      (Nat.le_trans (TokenStream.length_upcoming _) (Nat.le_of_eq (g.size_prepared s)))
    refine Grammar.parse_succeeds hs hfaults ((hcompletes.and hends).mono ?_ ?_)
    · rintro m ⟨hnext, -⟩
      rw [hnext, Nat.zero_add]
    · rintro e ⟨he, hne⟩
      exact hne he

/-! ## Generated grammars -/

/-- A registry that sorts into a forest with a root generates a grammar that a plan lays out, with
the documents of the forest for its entry. -/
theorem generate_laidOut {r : Registry C} {roots : List (HandlerTree C)} (hroots : r.roots = .ok roots)
    (hne : roots ≠ []) :
    ∃ gg plan, r.generate = .ok gg ∧ LaidOut gg.grammar plan ∧
      plan[gg.grammar.entry]? = some (HandlerTree.entryPart roots) ∧
      gg.table = .ofList ((HandlerTree.handlersOf roots).map fun h => (h.name, h.action)) := by
  obtain ⟨g, plan, hg, hlaid, hentry⟩ := grammar_laidOut hne
  refine ⟨⟨g, .ofList ((HandlerTree.handlersOf roots).map fun h => (h.name, h.action))⟩, plan, ?_,
    hlaid, hentry, rfl⟩
  rw [Registry.generate, hroots]
  change (HandlerTree.grammar roots >>= _) = _
  rw [hg]
  rfl

theorem laidOut_of_generate {r : Registry C} {roots : List (HandlerTree C)}
    (hroots : r.roots = .ok roots) (hne : roots ≠ []) {gg : GeneratedGrammar C}
    (hgg : r.generate = .ok gg) : ∃ plan, LaidOut gg.grammar plan ∧
      plan[gg.grammar.entry]? = some (HandlerTree.entryPart roots) ∧
      gg.table = .ofList ((HandlerTree.handlersOf roots).map fun h => (h.name, h.action)) := by
  obtain ⟨gg', plan, hgg', h⟩ := generate_laidOut hroots hne
  obtain rfl : gg = gg' := Except.ok.inj (hgg.symm.trans hgg')
  exact ⟨plan, h⟩

theorem phrase_entryPart {roots : List (HandlerTree C)} {ts : List Token} :
    Phrase (HandlerTree.entryPart roots) ts ↔ Phrase (.document roots) ts := by
  match roots with
  | [] => exact Iff.rfl
  | t :: t' :: roots => exact Iff.rfl
  | [t] =>
    constructor
    · exact fun h => .choice (List.mem_singleton_self _) h
    · intro h
      cases h with
      | choice hq h =>
        rw [List.mem_singleton.mp hq] at h
        exact h

/-- The grammar generated from any forest accepts the sources whose tokens are a document of the
forest, and no others. -/
theorem generate_accepts_iff (r : Registry C) (roots : List (HandlerTree C))
    (hroots : r.roots = .ok roots) (hne : roots ≠ []) :
    ∃ gg, r.generate = .ok gg ∧ ∀ (v : Vocabulary) (bytes : List UInt8),
      let lines := readings v.isIgnored 0 (sourceLines bytes)
      let isReserved := fun w => v.isReserved w || gg.grammar.keywords.contains w
      scanErrors lines = [] →
        ((∃ tree s', gg.grammar.parse (.ofBytes v bytes) = .ok tree s') ↔
          Phrase (.document roots) ((scannedTokens lines).map (Token.reserve isReserved))) := by
  obtain ⟨gg, plan, hgg, hlaid, hentry, -⟩ := generate_laidOut hroots hne
  refine ⟨gg, hgg, ?_⟩
  intro v bytes lines isReserved hscan
  have hs : (TokenStream.ofBytes v bytes).Classified := TokenStream.classified_ofLines v _
  have hitem : (HandlerTree.entryPart roots).isItem = true := by
    match roots with
    | [] => rfl
    | [t] => rfl
    | t :: t' :: roots => rfl
  have hupcoming : (gg.grammar.prepared (.ofBytes v bytes)).upcoming =
      (scannedTokens lines).map (Token.reserve isReserved) := by
    have hr : (fun w => (TokenStream.ofBytes v bytes).isReserved w ||
        gg.grammar.keywords.contains w) = isReserved := by
      funext w
      simp [TokenStream.isReserved, TokenStream.ofBytes, TokenStream.ofLines, isReserved]
    rw [Grammar.upcoming_prepared hs, hr]
    rfl
  rw [hlaid.parse_iff hentry hitem hs hscan, hupcoming, phrase_entryPart]

open Registry in
theorem generate_accepts_iff_sample :
    sampleRegistry.roots = .ok sampleRoots ∧ sampleRoots ≠ [] ∧
    ∃ gg, sampleRegistry.generate = .ok gg ∧ ∀ (v : Vocabulary) (bytes : List UInt8),
      let lines := readings v.isIgnored 0 (sourceLines bytes)
      let isReserved := fun w => v.isReserved w || gg.grammar.keywords.contains w
      scanErrors lines = [] →
        ((∃ tree s', gg.grammar.parse (.ofBytes v bytes) = .ok tree s') ↔
          Phrase (.document sampleRoots) ((scannedTokens lines).map (Token.reserve isReserved))) :=
  ⟨sampleRegistry_roots, List.cons_ne_nil _ _,
    generate_accepts_iff sampleRegistry sampleRoots sampleRegistry_roots (List.cons_ne_nil _ _)⟩

end HandlerGrammar
