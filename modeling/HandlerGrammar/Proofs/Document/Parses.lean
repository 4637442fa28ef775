import HandlerGrammar.Proofs.Document.Acceptance
import HandlerGrammar.Proofs.Document.Parts
import HandlerGrammar.Proofs.Stream.Delivery

/-! # Parses with generated grammars

A parse that succeeds with the grammar generated from a registry derives all upcoming tokens from
the entry, and the derivation makes one node, the tree.

* `LaidOut.entry_nodes`: the node of a document;
* `Parses`: what a parse with a generated grammar goes back to;
* `parses_of_parse`: every parse that succeeds does so;
* `Registry.parsed?`: generating and parsing in one. -/
namespace HandlerGrammar
open Derivation HandlerTree ParseTree
set_option autoImplicit false

variable {C : Type}

/-- A document of a forest makes one node, named after one of the roots. -/
theorem LaidOut.entry_nodes {g : Grammar} {plan : List (Part C)} (h : LaidOut g plan)
    {roots : List (HandlerTree C)} {toks : Nat → Token} {id : RuleId}
    (hid : plan[id]? = some (entryPart roots)) {d : Derivation} {a b : Nat}
    (hd : Derives g toks [.rule id] [d] a b) :
    ∃ n, d.nodes = [n] ∧ ∃ t ∈ roots, n.label = some t.name := by
  have hroot : ∀ {id : RuleId} {t : HandlerTree C} {d : Derivation} {ds : List Derivation} {a b : Nat},
      plan[id]? = some (.root t) → Derives g toks [.rule id] (d :: ds) a b →
      ds = [] ∧ ∃ n, d.nodes = [n] ∧ n.label = some t.name := by
    intro id t d ds a b hid hd
    obtain ⟨value, -, hrule⟩ := h.root_rule hid
    cases hd with
    | rule hbody _ hnil =>
      cases hnil
      obtain rfl := Option.some.inj (hrule.symm.trans hbody)
      exact ⟨rfl, _, rfl, label_labeled _ _ _⟩
  match roots with
  | [t] =>
    obtain ⟨-, n, hn, hlabel⟩ := hroot hid hd
    exact ⟨n, hn, t, List.mem_singleton_self t, hlabel⟩
  | [] =>
    obtain ⟨body, hbody, hlayout⟩ := h.rules id _ hid
    cases hlayout with
    | choice hne _ => exact absurd rfl hne
  | t :: t' :: roots =>
    obtain ⟨body, hrule, hlayout⟩ := h.rules id _ hid
    cases hlayout with
    | @choice _ ids _ hids =>
      cases hd with
      | rule hbody hparts hnil =>
        cases hnil
        obtain rfl := Option.some.inj (hrule.symm.trans hbody)
        cases hparts with
        | @choice id' _ _ parts _ _ hmem hparts =>
          obtain ⟨q, hq, hplan⟩ := hids.part_of_mem hmem
          obtain ⟨u, hu, rfl⟩ := List.mem_map.mp hq
          cases hparts with
          | rule hbody' hinner hnil =>
            have hsingle := hroot hplan (.rule hbody' hinner hnil)
            cases hnil
            obtain ⟨-, n, hn, hlabel⟩ := hsingle
            exact ⟨n, hn, u, hu, hlabel⟩

/-- A tree as the parse of the stream's tokens with the grammar generated from a registry: the
derivation of the tokens, from a plan of the grammar for the forest that the registry sorts into. -/
structure Parses (r : Registry C) (gg : GeneratedGrammar C) (s : TokenStream) (tree : ParseTree)
    (roots : List (HandlerTree C)) (plan : List (Part C)) (d : Derivation) : Prop where
  sorted : r.roots = .ok roots
  laidOut : LaidOut gg.grammar plan
  entry : plan[gg.grammar.entry]? = some (entryPart roots)
  table : gg.table = .ofList ((handlersOf roots).map fun h => (h.name, h.action))
  derives : Derives gg.grammar (gg.grammar.prepared s).shown [.rule gg.grammar.entry] [d] 0
    (gg.grammar.prepared s).upcoming.length
  tokens : d.tokens = (gg.grammar.prepared s).upcoming
  nodes : d.nodes = [tree]

theorem parses_of_parse {r : Registry C} {gg : GeneratedGrammar C} (hgg : r.generate = .ok gg)
    {s s' : TokenStream} (hs : s.Classified) {tree : ParseTree}
    (hparse : gg.grammar.parse s = .ok tree s') : ∃ roots plan d, Parses r gg s tree roots plan d := by
  obtain ⟨d, hd, htokens, htree⟩ := Grammar.parse_derives hs hparse
  cases hroots : r.roots with
  | error e =>
    rw [Registry.generate, hroots] at hgg
    cases hgg
  | ok roots =>
    by_cases hne : roots = []
    · subst hne
      rw [Registry.generate, hroots] at hgg
      cases hgg
    · obtain ⟨plan, hlaid, hentry, htable⟩ := laidOut_of_generate hroots hne hgg
      obtain ⟨n, hnodes, -⟩ := hlaid.entry_nodes hentry hd
      obtain rfl : tree = n := by rw [htree, hnodes]; rfl
      exact ⟨roots, plan, d, hroots, hlaid, hentry, htable, hd, htokens, hnodes⟩

/-- After any calls on a fresh stream its tokens are classified. -/
theorem classified_serve (v : Vocabulary) (bytes : List UInt8) (calls : List Call) :
    (serve calls (.ofBytes v bytes)).2.Classified :=
  (TokenStream.serves_serve calls (TokenStream.classified_ofLines v _)).classified

/-! ## An example -/

/-- The grammar that the registry generates with the tree of a source, if it accepts the source. -/
def Registry.parsed? (r : Registry C) (bytes : List UInt8) :
    Option (GeneratedGrammar C × ParseTree) :=
  match r.generate with
  | .error _ => none
  | .ok gg =>
    match gg.grammar.parse (serve [] (.ofBytes .standard bytes)).2 with
    | .error _ _ => none
    | .ok tree _ => some (gg, tree)

theorem Registry.parsed?_eq_some {r : Registry C} {bytes : List UInt8} {gg : GeneratedGrammar C}
    {tree : ParseTree} (h : r.parsed? bytes = some (gg, tree)) : r.generate = .ok gg ∧
      ∃ s', gg.grammar.parse (serve [] (.ofBytes .standard bytes)).2 = .ok tree s' := by
  unfold Registry.parsed? at h
  cases hgg : r.generate with
  | error e => rw [hgg] at h; cases h
  | ok gg' =>
    rw [hgg] at h
    dsimp only at h
    cases hparse : gg'.grammar.parse (serve [] (.ofBytes .standard bytes)).2 with
    | error e s' => rw [hparse] at h; cases h
    | ok tree' s' =>
      rw [hparse] at h
      cases h
      exact ⟨rfl, s', hparse⟩

/-- The text `{"name":1,"size":2,"name":3}`. -/
def sampleSource : List UInt8 :=
  [123, 34, 110, 97, 109, 101, 34, 58, 49, 44, 34, 115, 105, 122, 101, 34, 58, 50, 44, 34, 110, 97,
    109, 101, 34, 58, 51, 125]

end HandlerGrammar
