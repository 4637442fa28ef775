import HandlerGrammar.Proofs.Parsing.Foresight
import HandlerGrammar.Proofs.Transform.NormalForm

/-! # What a repetition adds

A repetition goes round until prediction refuses the rule or a round takes no token. It adds the
nodes of its rounds, those of an idle last round too, so a labelled rule that can match nothing
leaves an empty node at the end.

* `Round`, `Rounds`: the rounds that a repetition makes, without a bound on their number;
* `matchMany_ok_iff`: a repetition adds the nodes of its rounds;
* `Rounds.split`: only the last round can be idle;
* `Derives.idle_nodes`: what a rule makes of no tokens;
* `repetition_nodes`: the nodes of the rounds that took tokens, then those of the idle one;
* `idle_round_kept`: a list of one number with an item too many. -/
namespace HandlerGrammar
open ParseTree Derivation TokenStream
set_option autoImplicit false

/-- A match of the repeated rule. -/
structure Round where
  start : Nat
  matched : Matched

namespace Round

def next (r : Round) : Nat := r.matched.next

def nodes (r : Round) : List ParseTree := r.matched.nodes

/-- Whether the round took a token. -/
def isTaking (r : Round) : Bool := r.start < r.next

end Round

section
variable {σ : Type} {starts : Nat → Match σ Bool} {matchOne : Nat → Match σ Matched}

/-- The rounds made from a position and a state on, with the position and the state behind them. -/
inductive Rounds (starts : Nat → Match σ Bool) (matchOne : Nat → Match σ Matched) :
    Nat → Progress σ → List Round → Nat → Progress σ → Prop
  | refused {pos : Nat} {p q : Progress σ} :
      starts pos p = .ok false q → Rounds starts matchOne pos p [] pos q
  | idle {pos : Nat} {p p' q : Progress σ} {one : Matched} :
      starts pos p = .ok true p' → matchOne pos p' = .ok one q → one.next = pos →
      Rounds starts matchOne pos p [⟨pos, one⟩] pos q
  | further {pos last : Nat} {p p' p'' q : Progress σ} {one : Matched} {rounds : List Round} :
      starts pos p = .ok true p' → matchOne pos p' = .ok one p'' → one.next ≠ pos →
      Rounds starts matchOne one.next p'' rounds last q →
      Rounds starts matchOne pos p (⟨pos, one⟩ :: rounds) last q

namespace Grammar

theorem rounds_of_matchMany {count pos : Nat} {p q : Progress σ} {m : Matched}
    (h : matchMany starts matchOne count pos p = .ok m q) :
    ∃ rounds, Rounds starts matchOne pos p rounds m.next q ∧ m.nodes = rounds.flatMap Round.nodes := by
  induction count generalizing pos p m with
  | zero => cases h
  | succ count ih =>
    obtain ⟨b, p', hb, h⟩ := bind_ok h
    cases b with
    | false =>
      cases h
      exact ⟨[], .refused hb, rfl⟩
    | true =>
      obtain ⟨one, p'', hone, h⟩ := bind_ok h
      split at h
      · next hnext =>
        cases h
        refine ⟨[⟨pos, m⟩], ?_, (List.flatMap_singleton _ _).symm⟩
        have hidle := Rounds.idle hb hone hnext
        rwa [← hnext] at hidle ⊢
      · next hnext =>
        obtain ⟨others, q', hothers, h⟩ := bind_ok h
        cases h
        obtain ⟨rounds, hrounds, hnodes⟩ := ih hothers
        refine ⟨⟨pos, one⟩ :: rounds, .further hb hone hnext hrounds, ?_⟩
        rw [List.flatMap_cons, ← hnodes]
        rfl

theorem bind_eq_of_ok {α β : Type} {m : Match σ α} {f : α → Match σ β} {p q : Progress σ} {a : α}
    (h : m p = .ok a q) : (m >>= f) p = f a q := by
  change EStateM.bind m f p = _
  unfold EStateM.bind
  rw [h]

theorem matchMany_of_rounds {pos last : Nat} {p q : Progress σ} {rounds : List Round}
    (h : Rounds starts matchOne pos p rounds last q) :
    ∃ count, matchMany starts matchOne count pos p = .ok ⟨rounds.flatMap Round.nodes, last⟩ q := by
  induction h with
  | refused hb =>
    refine ⟨1, ?_⟩
    rw [matchMany, bind_eq_of_ok hb]
    rfl
  | @idle pos p p' q one hb hone hnext =>
    refine ⟨1, ?_⟩
    rw [matchMany, bind_eq_of_ok hb, if_pos rfl, bind_eq_of_ok hone, if_pos hnext,
      List.flatMap_singleton]
    subst hnext
    rfl
  | further hb hone hnext _ ih =>
    obtain ⟨count, hothers⟩ := ih
    refine ⟨count + 1, ?_⟩
    rw [matchMany, bind_eq_of_ok hb, if_pos rfl, bind_eq_of_ok hone, if_neg hnext,
      bind_eq_of_ok hothers]
    rfl

/-- Whatever number of rounds it is allowed, a repetition that succeeds has made its rounds. -/
theorem matchMany_ok_iff {pos : Nat} {p q : Progress σ} {m : Matched} :
    (∃ count, matchMany starts matchOne count pos p = .ok m q) ↔
      ∃ rounds, Rounds starts matchOne pos p rounds m.next q ∧
        m.nodes = rounds.flatMap Round.nodes := by
  constructor
  · rintro ⟨count, h⟩
    exact rounds_of_matchMany h
  · rintro ⟨rounds, h, hnodes⟩
    obtain ⟨nodes, next⟩ := m
    obtain rfl : nodes = rounds.flatMap Round.nodes := hnodes
    exact matchMany_of_rounds h

end Grammar

/-! ## Idle rounds -/

/-- Only the last round can end where it began. -/
theorem Rounds.split {pos last : Nat} {p q : Progress σ} {rounds : List Round}
    (h : Rounds starts matchOne pos p rounds last q) :
    ∃ taking idle, rounds = taking ++ idle ∧ (∀ r ∈ taking, r.next ≠ r.start) ∧
      (idle = [] ∨ ∃ r, idle = [r] ∧ r.start = last ∧ r.next = last) := by
  induction h with
  | refused _ => exact ⟨[], [], rfl, by simp, Or.inl rfl⟩
  | idle _ _ hnext => exact ⟨[], _, rfl, by simp, Or.inr ⟨_, rfl, rfl, hnext⟩⟩
  | further _ _ hnext _ ih =>
    obtain ⟨taking, idle, rfl, htaking, hidle⟩ := ih
    exact ⟨_ :: taking, idle, rfl, List.forall_mem_cons.mpr ⟨hnext, htaking⟩, hidle⟩

theorem Rounds.derived {I : σ → Prop} {E : Stop → Prop} {g : Grammar} {toks : Nat → Token}
    {id : RuleId} (hstarts : ∀ pos, Ensures I (starts pos) (fun _ => True) E)
    (hone : ∀ pos, Ensures I (matchOne pos) (g.RuleDerived toks id pos) E)
    {pos last : Nat} {p q : Progress σ} {rounds : List Round}
    (h : Rounds starts matchOne pos p rounds last q) (hp : I p.source) :
    ∀ r ∈ rounds, g.RuleDerived toks id r.start r.matched := by
  -- a round leaves a source on which the next one keeps its contract
  have hround : ∀ {pos : Nat} {p p' p'' : Progress σ} {b : Bool} {one : Matched}, I p.source →
      starts pos p = .ok b p' → matchOne pos p' = .ok one p'' →
      I p''.source ∧ g.RuleDerived toks id pos one := by
    intro pos p p' p'' b one hp hb hmatch
    have hp' := hstarts pos p hp
    rw [hb] at hp'
    have hp'' := hone pos p' hp'.1
    rw [hmatch] at hp''
    exact hp''
  induction h with
  | refused _ => simp
  | idle hb hmatch _ => simpa using (hround hp hb hmatch).2
  | further hb hmatch _ _ ih =>
    obtain ⟨hp'', hderived⟩ := hround hp hb hmatch
    exact List.forall_mem_cons.mpr ⟨hderived, ih hp''⟩

end

/-- What a rule makes of no tokens: nothing unless labels are given in it, and one empty branch if it
has a label itself. -/
theorem Derives.idle_nodes {g : Grammar} {toks : Nat → Token} {id : RuleId} {d : Derivation}
    {a : Nat} (h : Derives g toks [.rule id] [d] a a) :
    d.nodes.flatMap ParseTree.tokens = [] ∧ (d.nodes = [] ↔ d.instances.flatMap own = []) ∧
    ∀ label, d.label? = some label → ∃ line children, d.nodes = [branch (some label) line children] := by
  have htaken : tokensOf [d] = [] := by
    have hlength := h.reads.2
    exact List.length_eq_zero_iff.mp (by omega)
  have hnone : d.nodes.flatMap ParseTree.tokens = [] := by
    have hperm := h.tokens_assemble 0 []
    rw [h.keptOf_eq, htaken] at hperm
    cases h with
    | rule _ _ _ => exact List.perm_nil.mp hperm
  have hlabels : d.nodes.flatMap labels = [] ↔ d.instances.flatMap own = [] := by
    simp only [List.eq_nil_iff_forall_not_mem, ← List.count_eq_zero]
    exact forall_congr' fun x => by rw [count_nodes, countOwn]
  refine ⟨hnone, ⟨fun hnil => hlabels.mp (by rw [hnil]; rfl), fun hown => ?_⟩, fun label hlabel => ?_⟩
  · have hleaves := d.normal_nodes.eq_leaves (hlabels.mpr hown)
    rw [hnone] at hleaves
    exact hleaves
  · cases h with
    | @rule _ body _ parts _ _ _ _ _ _ _ =>
      have hbody : body.label? = some label := hlabel
      have hnodes : (Derivation.rule id body (toks a).line parts).nodes =
          [labeled label (toks a).line (Derivation.assemble (toks a).line parts [])] := by
        simp only [Derivation.nodes, Grammar.ruleNodes, hbody]
      rw [hnodes] at hnone ⊢
      unfold labeled at hnone ⊢
      split
      · next hlone =>
        rw [hlone] at hnone
        simp at hnone
      · exact ⟨_, _, rfl⟩

/-! ## Repetitions on a stream -/

/-- Whatever has been asked of a stream before and wherever matching stands on it, a repetition that
succeeds adds the nodes of its rounds: first those of the rounds that took tokens, then those of the
idle round, if one ended it. An idle round leaves no leaves. It leaves nothing at all exactly if no
label is given in it, and if the repeated rule has a label it leaves one empty node with that. -/
theorem repetition_nodes (g : Grammar) (v : Vocabulary) (bytes : List UInt8) (before : List Request)
    (depth count : Nat) (id : RuleId) (pos : Nat) (f : Frontier) {m : Matched}
    {q : Progress TokenStream}
    (h : g.matchStep peek (g.matchRule peek depth) count (.many id) pos
      ⟨(attend before (.ofBytes v bytes)).2, f⟩ = .ok m q) :
    let s := (attend before (.ofBytes v bytes)).2
    ∃ taking idle : List Round,
      Rounds (g.starts peek id) (g.matchRule peek depth id) pos ⟨s, f⟩ (taking ++ idle) m.next q ∧
      m.nodes = taking.flatMap Round.nodes ++ idle.flatMap Round.nodes ∧
      (∀ r ∈ taking, r.isTaking = true) ∧
      (idle = [] ∨ ∃ r d, idle = [r] ∧ r.start = m.next ∧ r.next = m.next ∧
        Derives g s.shown [.rule id] [d] m.next m.next ∧ r.nodes = d.nodes ∧
        r.nodes.flatMap ParseTree.tokens = [] ∧
        (r.nodes = [] ↔ d.instances.flatMap own = []) ∧
        ∀ body label, g.rule? id = some body → body.label? = some label →
          ∃ line children, r.nodes = [branch (some label) line children]) := by
  intro s
  have hs : s.Classified := classified_attend v bytes before
  have hshows : Shows (fun s' => ∃ es, Pulls s es s') peek s.shown (fun _ => True) :=
    (shows_peek hs).mono fun _ _ => trivial
  obtain ⟨rounds, hrounds, hnodes⟩ := Grammar.rounds_of_matchMany h
  have hderived := hrounds.derived
    (fun pos => (Grammar.ensures_starts (hshows pos) id).result fun _ _ => trivial)
    (Grammar.matchRule_derives hshows trivial trivial depth id) ⟨[], .refl s⟩
  obtain ⟨taking, idle, rfl, htaking, hidle⟩ := hrounds.split
  refine ⟨taking, idle, hrounds, hnodes.trans List.flatMap_append, fun r hr => ?_, ?_⟩
  · obtain ⟨d, hd, -⟩ := hderived r (List.mem_append_left _ hr)
    have hle : r.start ≤ r.next := hd.le
    have hne := htaking r hr
    exact decide_eq_true (by omega)
  · refine hidle.imp_right ?_
    rintro ⟨r, rfl, hstart, hnext⟩
    obtain ⟨d, hd, hr⟩ := hderived r (List.mem_append_right _ (List.mem_singleton_self r))
    have hidle : Derives g s.shown [.rule id] [d] m.next m.next := by
      rw [← hstart] at hnext ⊢
      rwa [← hnext] at hd ⊢
    have hnodes : r.nodes = d.nodes := hr
    obtain ⟨htokens, hnil, hlabeled⟩ := hidle.idle_nodes
    refine ⟨r, d, rfl, hstart, hnext, hidle, hnodes, hnodes ▸ htokens, hnodes ▸ hnil, ?_⟩
    intro body label hbody hlabel
    cases hd with
    | rule hid _ _ =>
      obtain rfl := Option.some.inj (hbody.symm.trans hid)
      exact hnodes ▸ hlabeled label hlabel

/-- A list of items, an item being a number or nothing. -/
def itemsGrammar : Grammar where
  rules := [⟨"rule#0", .plain [.token .number]⟩, ⟨"item", .labeled "item" [.optional 0]⟩,
    ⟨"list", .labeled "list" [.many 1]⟩]
  entry := 2
  keywords := WordSet.ofList []

/-- The arena calls that build it. -/
def itemsArena : Arena :=
  (((Arena.empty.add (.plain [.token .number])).2.add (.labeled "item" [.optional 0])).2.add
    (.labeled "list" [.many 1])).2

/-- The text `1 2`: two rounds take a number each, and the third takes none. -/
theorem repetition_nodes_sample : ∃ m q,
    itemsGrammar.matchStep peek (itemsGrammar.matchRule peek 3) 3 (.many 1) 0
      ⟨(attend [] (.ofBytes .standard [49, 32, 50])).2, .start⟩ = .ok m q ∧ m.next = 2 ∧
    ∃ taking idle : List Round,
      m.nodes = taking.flatMap Round.nodes ++ idle.flatMap Round.nodes ∧
      ∀ r ∈ taking, r.isTaking = true := by
  have hnext : ((itemsGrammar.matchStep peek (itemsGrammar.matchRule peek 3) 3 (.many 1) 0).run'
      ⟨(attend [] (.ofBytes .standard [49, 32, 50])).2, .start⟩).map Matched.next = some 2 := by
    decide +kernel
  obtain ⟨m, hm, hnext⟩ := Option.map_eq_some_iff.mp hnext
  obtain ⟨q, hmatch⟩ := ok_of_run' hm
  obtain ⟨taking, idle, -, hnodes, htaking, -⟩ :=
    repetition_nodes itemsGrammar .standard [49, 32, 50] [] 3 3 1 0 .start hmatch
  exact ⟨m, q, hmatch, hnext, taking, idle, hnodes, htaking⟩

/-! ## An item too many -/

/-- The progress that a match leaves, whether it succeeds or not. -/
def progressAfter {σ α : Type} (m : Match σ α) (p : Progress σ) : Progress σ :=
  match m p with
  | .ok _ q | .error _ q => q

theorem ok_of_map_run' {σ α β : Type} {m : Match σ α} {p : Progress σ} {f : α → β} {b : β}
    (h : (m.run' p).map f = some b) : ∃ a, m p = .ok a (progressAfter m p) ∧ f a = b := by
  obtain ⟨a, ha, hb⟩ := Option.map_eq_some_iff.mp h
  obtain ⟨q, hq⟩ := ok_of_run' ha
  exact ⟨a, by rw [progressAfter, hq], hb⟩

/-- The start of the text `1`. -/
def itemsStart : Progress TokenStream := ⟨.ofBytes .standard [49], .start⟩

/-- Where the first round leaves the text `1`. -/
def itemsBehind : Progress TokenStream :=
  progressAfter (itemsGrammar.matchRule peek 3 1 0)
    (progressAfter (itemsGrammar.starts peek 1 0) itemsStart)

/-- One round takes the number, and another one takes no token and leaves a node. -/
theorem items_rounds : ∃ nodes node q,
    Rounds (itemsGrammar.starts peek 1) (itemsGrammar.matchRule peek 3 1) 0 itemsStart
      [⟨0, nodes, 1⟩, ⟨1, [node], 1⟩] 1 q := by
  have hstarts : ((itemsGrammar.starts peek 1 0).run' itemsStart).map id = some true := by
    decide +kernel
  have hmatch : ((itemsGrammar.matchRule peek 3 1 0).run'
      (progressAfter (itemsGrammar.starts peek 1 0) itemsStart)).map Matched.next = some 1 := by
    decide +kernel
  have hstarts' : ((itemsGrammar.starts peek 1 1).run' itemsBehind).map id = some true := by
    decide +kernel
  have hmatch' : ((itemsGrammar.matchRule peek 3 1 1).run'
      (progressAfter (itemsGrammar.starts peek 1 1) itemsBehind)).map
      (fun m => (m.next, m.nodes.length)) = some (1, 1) := by
    decide +kernel
  obtain ⟨_, hb, rfl⟩ := ok_of_map_run' hstarts
  obtain ⟨⟨nodes, next⟩, hone, hnext⟩ := ok_of_map_run' hmatch
  obtain rfl : next = 1 := hnext
  obtain ⟨_, hb', rfl⟩ := ok_of_map_run' hstarts'
  obtain ⟨⟨nodes', next'⟩, hother, hresult⟩ := ok_of_map_run' hmatch'
  obtain ⟨hnext', hlength⟩ := Prod.mk.inj hresult
  obtain rfl : next' = 1 := hnext'
  obtain ⟨node, rfl⟩ := List.length_eq_one_iff.mp hlength
  exact ⟨nodes, node, _, .further hb hone one_ne_zero (.idle hb' hother rfl)⟩

/-- With the text `1` the repetition adds more than the nodes of the rounds that took tokens, and the
list has an item behind the one that holds the number. -/
theorem idle_round_kept :
    itemsArena.build 2 = .ok itemsGrammar ∧
    (∃ count m q rounds,
      itemsGrammar.matchStep peek (itemsGrammar.matchRule peek 3) count (.many 1) 0
        ⟨.ofBytes .standard [49], .start⟩ = .ok m q ∧
      Rounds (itemsGrammar.starts peek 1) (itemsGrammar.matchRule peek 3 1) 0
        ⟨.ofBytes .standard [49], .start⟩ rounds m.next q ∧
      m.nodes ≠ (rounds.filter Round.isTaking).flatMap Round.nodes) ∧
    ∃ tree s', itemsGrammar.parse (.ofBytes .standard [49]) = .ok tree s' ∧
      tree.children.map (fun n => (n.label, n.tokens.map Token.text)) =
        [(some "item", ["1"]), (some "item", [])] := by
  refine ⟨by decide +kernel, ?_, ?_⟩
  · obtain ⟨nodes, node, q, hrounds⟩ := items_rounds
    obtain ⟨count, hmatch⟩ := Grammar.matchMany_of_rounds hrounds
    refine ⟨count, _, q, _, hmatch, hrounds, fun heq => ?_⟩
    have hlength : (nodes ++ ([node] ++ [])).length = (nodes ++ []).length :=
      congrArg List.length heq
    simp at hlength
  · obtain ⟨tree, hparse⟩ := itemsGrammar.parse_of_isOk
      (s := .ofBytes .standard [49]) (by decide +kernel)
    have hitems : (itemsGrammar.outcome (.ofBytes .standard [49])).1.map
        (·.children.map fun n => (n.label, n.tokens.map Token.text)) =
        .ok [(some "item", ["1"]), (some "item", [])] := by decide +kernel
    rw [Grammar.outcome_of_parse_ok hparse] at hitems
    exact ⟨tree, _, hparse, Except.ok.inj hitems⟩

end HandlerGrammar
