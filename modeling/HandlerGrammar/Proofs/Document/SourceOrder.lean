import HandlerGrammar.Proofs.Document.Containers
import HandlerGrammar.Proofs.Document.MemberOrder
import HandlerGrammar.Proofs.Parsing.Conservation
import HandlerGrammar.Proofs.Parsing.LineOrder

/-! # The order of tokens in a document's tree

Leaves stand in the order of their tokens but for the gathering of wrappers. A container whose
wrappers each have their members side by side keeps it, and if all containers do, the tokens of
every node come in the order of the source. Members of a wrapper with others between them do not.

* `LaidOut.tokens_nodes`: the tokens in the nodes of an instance;
* `tokens_in_source_order`: for the trees of generated grammars;
* `divided_members_swap`: a document whose tokens come in another order. -/
namespace HandlerGrammar
open Derivation HandlerTree ParseTree
set_option autoImplicit false

variable {C : Type}

theorem Derivation.keptOf_eq_flatMap (ds : List Derivation) : keptOf ds = ds.flatMap kept := by
  induction ds with
  | nil => rfl
  | cons d ds ih => rw [keptOf_cons, ih, List.flatMap_cons]

section
variable {g : Grammar} {plan : List (Part C)} {roots : List (HandlerTree C)} {toks : Nat → Token}

/-- Where gathering leaves the members of all containers in their places, the tokens of the nodes
are those kept, in their order. -/
theorem LaidOut.tokens_nodes (h : LaidOut g plan) {steps : List Step} {ds : List Derivation}
    {a b : Nat} (hd : Derives g toks steps ds a b) :
    ∀ id body line parts, .rule id body line parts ∈ ds → ∀ p, plan[id]? = some p →
      p.Within roots →
      (∀ j ∈ (Derivation.rule id body line parts).instances, ∀ ts, j.IsBody plan ts →
        openedAll ((nestedWrappers ts).map HandlerTree.name) j.nodes = j.matched) →
      (Derivation.rule id body line parts).nodes.flatMap ParseTree.tokens = keptOf parts := by
  refine hd.forall_rules
    (P := fun id body line parts => ∀ p, plan[id]? = some p → p.Within roots →
      (∀ j ∈ (Derivation.rule id body line parts).instances, ∀ ts, j.IsBody plan ts →
        openedAll ((nestedWrappers ts).map HandlerTree.name) j.nodes = j.matched) →
      (Derivation.rule id body line parts).nodes.flatMap ParseTree.tokens = keptOf parts) ?_
  intro id body parts a b hbody hparts ih p hid hp hordered
  have hlayout := h.layout hid hbody
  -- the tokens that the parts give
  have hmatched : (Derivation.rule id body (toks a).line parts).matched.flatMap ParseTree.tokens =
      keptOf parts := by
    rw [keptOf_eq_flatMap, matched, List.flatMap_assoc]
    refine List.flatMap_congr fun d hmem => ?_
    cases d with
    | token x t => exact tokens_produced_token x t
    | gather label members => rfl
    | rule id' body' line' parts' =>
      obtain ⟨q, hq, hqp⟩ := hlayout.references id' (hparts.referenced _ _ _ _ hmem)
      refine ih id' body' line' parts' hmem q hq (hp.parts q hqp) fun j hj => ?_
      exact hordered j (List.mem_cons_of_mem _ (instances_subset hmem hj))
  have hplain : p.groups = [] →
      (Derivation.rule id body (toks a).line parts).nodes.flatMap ParseTree.tokens = keptOf parts := by
    intro hgroups
    rw [hlayout.nodes hparts, hgroups, tokens_ruleNodes]
    exact hmatched
  cases p with
  | braces label? groups q =>
    rcases hp with heq | ⟨t, -, heq⟩
    · cases heq
      exact hplain rfl
    · rw [heq] at hid
      rw [← hmatched, ← hordered _ (List.mem_cons_self ..) t.children hid, tokens_openedAll]
  | _ => exact hplain rfl

end

/-- Whatever has been asked of a stream before, in the derivation of a parse with a generated grammar
a container has its members in their places when the wrappers are opened again exactly if no
wrapper's members have others between them. Where that holds of all containers in an instance, its
nodes give the tokens taken, separators apart, in the order of the source, and so does every node
among or below them: the lines of its tokens never decrease. -/
theorem tokens_in_source_order {r : Registry C} (hr : r.Reached) {gg : GeneratedGrammar C}
    (hgg : r.generate = .ok gg) (v : Vocabulary) (bytes : List UInt8) (before : List Request)
    {tree : ParseTree} {s' : TokenStream}
    (hparse : gg.grammar.parse (attend before (.ofBytes v bytes)).2 = .ok tree s') :
    ∃ roots plan d, Parses r gg (attend before (.ofBytes v bytes)).2 tree roots plan d ∧
      LinesAscend d.tokens ∧
      (∀ i ∈ d.instances, ∀ ts, i.IsBody plan ts →
        (openedAll ((nestedWrappers ts).map HandlerTree.name) i.nodes = i.matched ↔
          Undivided ts i.matched)) ∧
      ∀ i ∈ d.instances,
        (∀ j ∈ i.instances, ∀ ts, j.IsBody plan ts → Undivided ts j.matched) →
          i.nodes.flatMap ParseTree.tokens = i.tokens.filter (·.kind != .separator) ∧
          ∀ path n, Occurs i.nodes path n → n.tokens.Sublist i.tokens ∧ LinesAscend n.tokens := by
  have hs := classified_attend v bytes before
  obtain ⟨roots, plan, d, hd⟩ := parses_of_parse hgg hs hparse
  have hnested := hr.wellNested hd.sorted
  have hwithin := hd.laidOut.within_instances hd.entry Part.within_entryPart hd.derives
  have hinstance := fun i (hi : i ∈ d.instances) =>
    hd.derives.of_instance i (List.mem_append_left _ hi)
  have hascend : LinesAscend d.tokens := by
    rw [hd.tokens, Grammar.upcoming_prepared hs]
    exact (linesAscend_attend v bytes before).reserve _
  have hplaces : ∀ i ∈ d.instances, ∀ ts, i.IsBody plan ts →
      (openedAll ((nestedWrappers ts).map HandlerTree.name) i.nodes = i.matched ↔
        Undivided ts i.matched) := by
    intro i hi ts hbody
    obtain ⟨id, body, parts, a, b, rfl, hrule, hparts⟩ := hinstance i hi
    obtain ⟨p, hp, hforest⟩ := hwithin _ _ _ _ hi
    obtain rfl : p = .container ts := Option.some.inj (hp.symm.trans hbody)
    obtain ⟨t, ht, rfl⟩ := hforest.exists_tree
    rw [hd.laidOut.container_nodes hp hrule hparts]
    exact hnested.openedAll_eq_iff ht _ (hd.laidOut.container_members hp hrule hparts)
  refine ⟨roots, plan, d, hd, hascend, hplaces, fun i hi hundivided => ?_⟩
  obtain ⟨id, body, parts, a, b, rfl, hrule, hparts⟩ := hinstance i hi
  obtain ⟨p, hp, hforest⟩ := hwithin _ _ _ _ hi
  have htokens := hd.laidOut.tokens_nodes (.rule hrule hparts (.nil b)) _ _ _ _
    (List.mem_singleton_self _) p hp hforest fun j hj ts hbody =>
      (hplaces j (instances_trans hi hj) ts hbody).mpr (hundivided j hj ts hbody)
  rw [hparts.keptOf_eq] at htokens
  refine ⟨htokens, fun path n hn => ?_⟩
  have hsub : n.tokens.Sublist (tokensOf parts) := by
    have hinfix := hn.isInfix_tokens
    rw [htokens] at hinfix
    exact hinfix.sublist.trans List.filter_sublist
  exact ⟨hsub, hascend.sublist (hsub.trans (isInfix_tokens hi).sublist)⟩

/-! ## Divided members -/

/-- The text `{"name":1,"size":2,"name":3}` on three lines, one for each member. -/
def dividedSource : List UInt8 :=
  [123, 34, 110, 97, 109, 101, 34, 58, 49, 44, 10, 34, 115, 105, 122, 101, 34, 58, 50, 44, 10,
    34, 110, 97, 109, 101, 34, 58, 51, 125]

open Registry in
theorem dividedSource_parsed : ∃ gg tree s', sampleRegistry.generate = .ok gg ∧
    gg.grammar.parse (attend [] (.ofBytes .standard dividedSource)).2 = .ok tree s' ∧
    tree.tokens.map Token.word = ["name", "1", "name", "3", "size", "2"] ∧
    tree.tokens.map Token.line = [1, 1, 3, 3, 2, 2] := by
  have hsome : (sampleRegistry.parsed? dividedSource).map (fun p =>
      (p.2.tokens.map Token.word, p.2.tokens.map Token.line)) =
        some (["name", "1", "name", "3", "size", "2"], [1, 1, 3, 3, 2, 2]) := by
    decide +kernel
  obtain ⟨⟨gg, tree⟩, hparsed, htokens⟩ := Option.map_eq_some_iff.mp hsome
  obtain ⟨hgg, s', hparse⟩ := parsed?_eq_some hparsed
  obtain ⟨hwords, hlines⟩ := Prod.mk.inj htokens
  exact ⟨gg, tree, s', hgg, hparse, hwords, hlines⟩

open Registry in
/-- The tokens of the tree are out of order, so in some container the members of a wrapper have
others between them. -/
theorem tokens_in_source_order_sample : sampleRegistry.Reached ∧ ∃ gg tree s',
    sampleRegistry.generate = .ok gg ∧
    gg.grammar.parse (attend [] (.ofBytes .standard dividedSource)).2 = .ok tree s' ∧
    ∃ (roots : List (HandlerTree Unit)) (plan : List (Part Unit)) (d : Derivation),
      Parses sampleRegistry gg (attend [] (.ofBytes .standard dividedSource)).2 tree roots plan d ∧
      ∃ i ∈ d.instances, ∃ ts, i.IsBody plan ts ∧ ¬ Undivided ts i.matched := by
  obtain ⟨gg, tree, s', hgg, hparse, -, hlines⟩ := dividedSource_parsed
  obtain ⟨roots, plan, d, hd, -, -, hordered⟩ :=
    tokens_in_source_order sampleRegistry_reached hgg .standard dividedSource [] hparse
  refine ⟨sampleRegistry_reached, gg, tree, s', hgg, hparse, roots, plan, d, hd, ?_⟩
  by_contra hall
  have hself : d ∈ d.instances := by
    have hderives := hd.derives
    cases hderives with
    | rule _ _ _ => exact List.mem_cons_self ..
  obtain ⟨-, hnodes⟩ := hordered d hself fun j hj ts hbody => by
    by_contra hdivided
    exact hall ⟨j, hj, ts, hbody, hdivided⟩
  rw [hd.nodes] at hnodes
  have hascend := (hnodes [] tree (.top (List.mem_singleton_self tree))).2.lines
  rw [hlines] at hascend
  exact absurd hascend (by decide)

open Registry in
/-- The second `name` goes to the wrapper that holds the first, in front of the `size` between them:
the tokens of the tree come in another order than those of the source. -/
theorem divided_members_swap : sampleRegistry.Reached ∧ ∃ gg tree s',
    sampleRegistry.generate = .ok gg ∧
    gg.grammar.parse (.ofBytes .standard dividedSource) = .ok tree s' ∧
    tree.tokens.map Token.word = ["name", "1", "name", "3", "size", "2"] ∧
    tree.tokens.map Token.line = [1, 1, 3, 3, 2, 2] ∧ ¬ LinesAscend tree.tokens := by
  obtain ⟨gg, tree, s', hgg, hparse, hwords, hlines⟩ := dividedSource_parsed
  refine ⟨sampleRegistry_reached, gg, tree, s', hgg, hparse, hwords, hlines, fun hascend => ?_⟩
  have hpairs := hascend.lines
  rw [hlines] at hpairs
  exact absurd hpairs (by decide)

end HandlerGrammar
