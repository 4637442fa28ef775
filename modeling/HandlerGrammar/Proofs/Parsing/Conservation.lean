import HandlerGrammar.Proofs.Document.Language
import HandlerGrammar.Proofs.Matching.Assembly
import HandlerGrammar.Proofs.Parsing.Soundness

/-! # Parse trees conserve tokens

A token taken by a keyword or a token class becomes one leaf, a separator none. From there on nodes
are spliced, labelled, gathered and put under a root, and none of this loses or doubles a leaf; only
gathering changes the order of leaves.

* `Derivation.tests`, `Derivation.kept`: the tests passed on the way, and the tokens that become
  leaves;
* `Derivation.isInfix_tokens`: an instance took its tokens in one stretch;
* `Derives.tokens_assemble`, `Gatherless.tokens_assemble`: the leaves that a rule collects;
* `leaves_conserved`: the leaves of a parse tree. -/
namespace HandlerGrammar
open ParseTree
set_option autoImplicit false

namespace Derivation

mutual
/-- The tests passed with the tokens taken by them, from left to right. -/
def tests : Derivation → List (Terminal × Token)
  | token x t => [(x, t)]
  | rule _ _ _ parts => testsOf parts
  | gather _ _ => []

def testsOf : List Derivation → List (Terminal × Token)
  | [] => []
  | d :: ds => tests d ++ testsOf ds
end

/-- The tokens taken by keywords and token classes. -/
def keptOf (ds : List Derivation) : List Token := ((testsOf ds).filter (·.1.isKept)).map Prod.snd

def kept (d : Derivation) : List Token := (d.tests.filter (·.1.isKept)).map Prod.snd

theorem keptOf_cons (d : Derivation) (ds : List Derivation) :
    keptOf (d :: ds) = d.kept ++ keptOf ds := by
  simp only [keptOf, kept, testsOf, List.filter_append, List.map_append]

theorem kept_token (x : Terminal) (t : Token) :
    kept (token x t) = if x.isKept then [t] else [] := by
  cases hx : x.isKept <;> simp [kept, tests, hx]

theorem tokens_produced_token (x : Terminal) (t : Token) :
    (produced (token x t)).flatMap ParseTree.tokens = kept (token x t) := by
  rw [kept_token, produced]
  split <;> simp

mutual
/-- The tokens of an instance stand together among those of the derivation. -/
theorem isInfix_tokens {d i : Derivation} (h : i ∈ d.instances) : i.tokens <:+: d.tokens := by
  match d with
  | token _ _ | gather _ _ => cases h
  | rule id body line parts =>
    rcases List.mem_cons.mp h with rfl | h
    · exact List.infix_refl _
    · exact isInfix_tokensOf h

theorem isInfix_tokensOf {ds : List Derivation} {i : Derivation} (h : i ∈ instancesOf ds) :
    i.tokens <:+: tokensOf ds := by
  match ds with
  | [] => cases h
  | d :: ds =>
    rcases List.mem_append.mp h with h | h
    · exact (isInfix_tokens h).trans (List.prefix_append _ _).isInfix
    · exact (isInfix_tokensOf h).trans (List.suffix_append _ _).isInfix
end

theorem tokens_ruleNodes (body : Rule) (line : Nat) (nodes : List ParseTree) :
    (Grammar.ruleNodes body line nodes).flatMap ParseTree.tokens =
      nodes.flatMap ParseTree.tokens := by
  unfold Grammar.ruleNodes
  split
  · simp [tokens_labeled]
  · rfl

end Derivation

open Derivation

section
variable {g : Grammar} {toks : Nat → Token} {steps : List Step} {ds : List Derivation} {a b : Nat}

/-! ## Tests and tokens -/

theorem Derives.tests_tokens (h : Derives g toks steps ds a b) :
    (testsOf ds).map Prod.snd = tokensOf ds := by
  induction h with
  | nil a => rfl
  | token _ _ ih =>
    rw [testsOf, List.map_append, ih]
    rfl
  | rule _ _ _ ihbody ihrest =>
    rw [testsOf, List.map_append, ihrest, tests, ihbody]
    rfl
  | skip _ ih | take _ ih | done _ ih | again _ ih | choice _ _ ih | dispatch _ _ ih => exact ih
  | gather _ ih => exact ih

theorem Derives.tests_accept (h : Derives g toks steps ds a b) :
    ∀ test ∈ testsOf ds, test.1.accepts test.2 = true := by
  induction h with
  | nil a => exact fun _ hmem => nomatch hmem
  | token hx _ ih => exact List.forall_mem_cons.mpr ⟨hx, ih⟩
  | rule _ _ _ ihbody ihrest =>
    exact fun test hmem => (List.mem_append.mp hmem).elim (ihbody test) (ihrest test)
  | skip _ ih | take _ ih | done _ ih | again _ ih | choice _ _ ih | dispatch _ _ ih => exact ih
  | gather _ ih => exact ih

theorem Terminal.isKept_iff {x : Terminal} {t : Token} (h : x.accepts t = true) :
    x.isKept = true ↔ t.kind ≠ .separator := by
  refine ⟨fun hx => kind_of_isKept hx h, fun hk => ?_⟩
  cases x with
  | separator text => exact absurd (beq_iff_eq.mp (Bool.and_eq_true_iff.mp h).1) hk
  | keyword word => rfl
  | token c => rfl

/-- Which tokens are kept shows in their kinds. -/
theorem Derives.keptOf_eq (h : Derives g toks steps ds a b) :
    keptOf ds = (tokensOf ds).filter (·.kind != .separator) := by
  rw [← h.tests_tokens, List.filter_map, keptOf]
  refine congrArg _ (List.filter_congr fun test hmem => ?_)
  rw [Bool.eq_iff_iff, Terminal.isKept_iff (h.tests_accept test hmem)]
  simp

/-! ## Leaves -/

/-- The leaves that a rule has collected are, up to their order, those that it had and the tokens
kept since. -/
theorem Derives.tokens_assemble (h : Derives g toks steps ds a b) (line : Nat)
    (nodes : List ParseTree) : ((Derivation.assemble line ds nodes).flatMap ParseTree.tokens).Perm
      (nodes.flatMap ParseTree.tokens ++ keptOf ds) := by
  induction h generalizing line nodes with
  | nil a => simp [Derivation.assemble, keptOf, testsOf]
  | @token x steps ds a b _ _ ih =>
    rw [keptOf_cons, ← List.append_assoc, ← tokens_produced_token, ← List.flatMap_append]
    exact ih line (nodes ++ produced (.token x (toks a)))
  | @rule id body steps parts ds a b c _ _ _ ihbody ihrest =>
    have hinside := ihbody (toks a).line []
    refine (ihrest line _).trans ?_
    rw [extend, keptOf_cons, ← List.append_assoc, List.flatMap_append, tokens_ruleNodes]
    exact (hinside.append_left _).append_right _
  | skip _ ih | take _ ih | done _ ih | again _ ih | choice _ _ ih | dispatch _ _ ih =>
    exact ih line nodes
  | @gather label members steps ds a b _ ih =>
    exact (ih line _).trans (tokens_gather.append_right _)

/-- No rule regroups nodes. -/
def Grammar.Gatherless (g : Grammar) : Prop :=
  ∀ id body, g.rule? id = some body → ∀ step ∈ body.steps, step.group? = none

/-- Without regrouping the leaves stand in the order of the tokens. -/
theorem Grammar.Gatherless.tokens_assemble (hg : g.Gatherless)
    (h : Derives g toks steps ds a b) (hsteps : ∀ step ∈ steps, step.group? = none) (line : Nat)
    (nodes : List ParseTree) : (Derivation.assemble line ds nodes).flatMap ParseTree.tokens =
      nodes.flatMap ParseTree.tokens ++ keptOf ds := by
  have hlater : ∀ {step step' : Step} {steps : List Step}, step'.group? = none →
      (∀ s ∈ step :: steps, s.group? = none) → ∀ s ∈ step' :: steps, s.group? = none :=
    fun hstep hsteps => List.forall_mem_cons.mpr ⟨hstep, (List.forall_mem_cons.mp hsteps).2⟩
  induction h generalizing line nodes with
  | nil a => simp [Derivation.assemble, keptOf, testsOf]
  | @token x steps ds a b _ _ ih =>
    rw [keptOf_cons, ← List.append_assoc, ← tokens_produced_token, ← List.flatMap_append]
    exact ih (List.forall_mem_cons.mp hsteps).2 line (nodes ++ produced (.token x (toks a)))
  | @rule id body steps parts ds a b c hid _ _ ihbody ihrest =>
    have hinside := ihbody (hg id body hid) (toks a).line []
    refine (ihrest (List.forall_mem_cons.mp hsteps).2 line _).trans ?_
    rw [extend, keptOf_cons, ← List.append_assoc, List.flatMap_append, tokens_ruleNodes, hinside]
    rfl
  | skip _ ih | done _ ih => exact ih (List.forall_mem_cons.mp hsteps).2 line nodes
  | take _ ih | choice _ _ ih | dispatch _ _ ih => exact ih (hlater rfl hsteps) line nodes
  | again _ ih => exact ih (List.forall_mem_cons.mpr ⟨rfl, hsteps⟩) line nodes
  | gather _ _ => cases (List.forall_mem_cons.mp hsteps).1

theorem tokens_treeOf (line : Nat) (nodes : List ParseTree) :
    (Grammar.treeOf line nodes).tokens = nodes.flatMap ParseTree.tokens := by
  unfold Grammar.treeOf
  split
  · simp
  · simp

end

/-! ## The leaves of a parse tree -/

/-- A parse that succeeds takes the tokens still to come, each by a test of its derivation. The leaves
of the tree are, up to their order, the tokens taken by keywords and token classes, which are those
taken that are no separators. Without regrouping they stand in the order of the source. -/
theorem leaves_conserved (g : Grammar) (v : Vocabulary) (bytes : List UInt8)
    (before : List Request) {tree : ParseTree} {s' : TokenStream}
    (h : g.parse (attend before (.ofBytes v bytes)).2 = .ok tree s') :
    let s := (attend before (.ofBytes v bytes)).2
    let taken := s.pending.map (Token.reserve fun w => s.isReserved w || g.keywords.contains w)
    let shown := fun k => taken[k]?.getD (.eof (max s.lastLine 1))
    s'.pending = [] ∧
    ∃ d, Derives g shown [.rule g.entry] [d] 0 taken.length ∧
      tree = Grammar.treeOf (shown 0).line d.nodes ∧
      d.tests.map Prod.snd = taken ∧ (∀ test ∈ d.tests, test.1.accepts test.2 = true) ∧
      tree.tokens.Perm d.kept ∧ d.kept = taken.filter (·.kind != .separator) ∧
      (g.Gatherless → tree.tokens = d.kept) := by
  intro s taken shown
  obtain ⟨hempty, d, hd, htokens, rfl⟩ :=
    Grammar.parse_taken (classified_attend v bytes before) h
  have htests : testsOf [d] = d.tests := List.append_nil _
  have hkept : keptOf [d] = d.kept := by rw [keptOf, htests, kept]
  have hall : tokensOf [d] = taken := (List.append_nil _).trans htokens
  have hnodes : assemble (shown 0).line [d] [] = d.nodes := by
    cases hd with
    | rule _ _ hnil => rfl
  refine ⟨hempty, d, hd, rfl, ?_, ?_, ?_, ?_, fun hg => ?_⟩
  · rw [← htests, hd.tests_tokens, hall]
  · rw [← htests]
    exact hd.tests_accept
  · have hperm := hd.tokens_assemble (shown 0).line []
    rw [hnodes, hkept] at hperm
    rw [tokens_treeOf]
    exact hperm
  · rw [← hkept, hd.keptOf_eq, hall]
  · have heq := hg.tokens_assemble hd (by simp [Step.group?]) (shown 0).line []
    rw [hnodes, hkept] at heq
    rw [tokens_treeOf]
    exact heq

/-! ## An example -/

/-- Flags and counts in any order with a semicolon behind them, the flags gathered. -/
def flagsGrammar : Grammar where
  rules := [⟨"settings", .labeled "settings" [.many 1, .separator ";", .gather "flags" ["flag"]]⟩,
    ⟨"rule#1", .plain [.choice [2, 3]]⟩, ⟨"flag", .labeled "flag" [.token .bool]⟩,
    ⟨"count", .labeled "count" [.token .number]⟩]
  entry := 0
  keywords := WordSet.ofList []

/-- The text `true 1 true;`. -/
def flagsSource : List UInt8 := [116, 114, 117, 101, 32, 49, 32, 116, 114, 117, 101, 59]

/-- Gathering moves the second flag in front of the count, and the semicolon is no leaf. -/
theorem leaves_conserved_sample : ∃ tree s',
    flagsGrammar.parse (attend [] (.ofBytes .standard flagsSource)).2 = .ok tree s' ∧
    tree.tokens.map Token.text = ["true", "true", "1"] ∧
    ∃ taken : List Token, taken.map Token.text = ["true", "1", "true", ";"] ∧
      tree.tokens.Perm (taken.filter (·.kind != .separator)) := by
  obtain ⟨tree, hparse⟩ := flagsGrammar.parse_of_isOk
    (s := (attend [] (.ofBytes .standard flagsSource)).2) (by decide +kernel)
  obtain ⟨-, d, -, -, -, -, hperm, hkept, -⟩ :=
    leaves_conserved flagsGrammar .standard flagsSource [] hparse
  have htexts : (flagsGrammar.outcome (attend [] (.ofBytes .standard flagsSource)).2).1.map
      (·.tokens.map Token.text) = .ok ["true", "true", "1"] := by decide +kernel
  rw [Grammar.outcome_of_parse_ok hparse] at htexts
  refine ⟨tree, _, hparse, Except.ok.inj htexts, _, ?_, hkept ▸ hperm⟩
  decide +kernel

end HandlerGrammar
