import HandlerGrammar.Proofs.Document.Parts

/-! # What nodes a part makes of its tokens

A phrase says which tokens a part consists of. Here the nodes that its rule makes of them are told as
well, again without regard to rules and matching.

* `Part.made`: the nodes of a part from those matched inside it;
* `Forms`: the tokens of a part with its nodes, `Forms.phrase`: they are a phrase;
* `LaidOut.forms`: what a derivation takes and makes. -/
namespace HandlerGrammar
open Derivation HandlerTree ParseTree
set_option autoImplicit false

variable {C : Type}

/-- The nodes of a part that begins on `line`: those matched, gathered and put under its label. -/
def Part.made (p : Part C) (line : Nat) (nodes : List ParseTree) : List ParseTree :=
  Grammar.ruleNodes ⟨p.label?, []⟩ line (gatherAll line p.groups nodes)

theorem Part.made_alternatives {p : Part C} (h : p.alternatives ≠ []) (line : Nat)
    (nodes : List ParseTree) : p.made line nodes = nodes := by
  cases p with
  | key | scalar | generic | member _ | document _ => rfl
  | _ => exact absurd rfl h

/-- The tokens are written as the part asks for and make the nodes. -/
inductive Forms : Part C → List Token → List ParseTree → Prop
  | token {x : Terminal} {t : Token} : x.isKept = true → x.accepts t = true →
      Forms (.token x) [t] [.leaf none t]
  | choice {p q : Part C} {ts : List Token} {ns : List ParseTree} : q ∈ p.alternatives →
      Forms q ts ns → Forms p ts ns
  | property {k c : Token} {ts : List Token} {ns ms : List ParseTree} : Forms .key [k] ns →
      (Terminal.separator ":").accepts c = true → Forms .generic ts ms →
      Forms .property (k :: c :: ts) (Part.made (C := C) .property k.line (ns ++ ms))
  | keyed {h : HandlerTree C} {k c : Token} {ts : List Token} {ns : List ParseTree} :
      (Terminal.keyword h.name).accepts k = true → (Terminal.separator ":").accepts c = true →
      Forms (Part.valueOf h) ts ns →
      Forms (.keyed h) (k :: c :: ts) ((Part.keyed h).made k.line (.leaf none k :: ns))
  | root {h : HandlerTree C} {t : Token} {ts : List Token} {ns : List ParseTree} :
      ts.head? = some t → Forms (Part.valueOf h) ts ns →
      Forms (.root h) ts ((Part.root h).made t.line ns)
  | braces {label? : Option String} {groups : List (String × List String)} {p : Part C}
      {l r : Token} {ts : List Token} {ns : List ParseTree} :
      (Terminal.separator "\x7b").accepts l = true → Forms (.optional (.items p)) ts ns →
      (Terminal.separator "\x7d").accepts r = true →
      Forms (.braces label? groups p) (l :: (ts ++ [r])) ((Part.braces label? groups p).made l.line ns)
  | brackets {label? : Option String} {p : Part C} {l r : Token} {ts : List Token}
      {ns : List ParseTree} :
      (Terminal.separator "[").accepts l = true → Forms (.optional (.items p)) ts ns →
      (Terminal.separator "]").accepts r = true →
      Forms (.brackets label? p) (l :: (ts ++ [r])) ((Part.brackets label? p).made l.line ns)
  | items {p : Part C} {ts us : List Token} {ns ms : List ParseTree} : Forms p ts ns →
      Forms (.rest p) us ms → Forms (.items p) (ts ++ us) (ns ++ ms)
  | next {p : Part C} {c : Token} {ts : List Token} {ns : List ParseTree} :
      (Terminal.separator ",").accepts c = true → Forms p ts ns → Forms (.next p) (c :: ts) ns
  | last {p : Part C} : Forms (.rest p) [] []
  | further {p : Part C} {ts us : List Token} {ns ms : List ParseTree} : Forms (.next p) ts ns →
      Forms (.rest p) us ms → Forms (.rest p) (ts ++ us) (ns ++ ms)
  | absent {p : Part C} : Forms (.optional p) [] []
  | present {p : Part C} {ts : List Token} {ns : List ParseTree} : Forms p ts ns →
      Forms (.optional p) ts ns

theorem Forms.phrase {p : Part C} {ts : List Token} {ns : List ParseTree} (h : Forms p ts ns) :
    Phrase p ts := by
  induction h with
  | token hx ht => exact .token hx ht
  | choice hq _ ih => exact .choice hq ih
  | property _ hc _ ihkey ihvalue => exact .property ihkey hc ihvalue
  | keyed hk hc _ ih => exact .keyed hk hc ih
  | root _ _ ih => exact .root ih
  | braces hl _ hr ih => exact .braces hl ih hr
  | brackets hl _ hr ih => exact .brackets hl ih hr
  | items _ _ ihfirst ihrest => exact .items ihfirst ihrest
  | next hc _ ih => exact .next hc ih
  | last => exact .last
  | further _ _ ihfirst ihrest => exact .further ihfirst ihrest
  | absent => exact .absent
  | present _ ih => exact .present ih

/-- Keys and scalars are single tokens of some kinds. -/
theorem Part.token_of_leaf {p q : Part C} (hp : p = .key ∨ p = .scalar) (hq : q ∈ p.alternatives) :
    ∃ x, q = .token x ∧ x.isKept = true := by
  rcases hp with rfl | rfl
  all_goals
    simp only [Part.alternatives, List.mem_cons, List.not_mem_nil, or_false] at hq
    rcases hq with rfl | rfl | rfl | rfl <;> exact ⟨_, rfl, rfl⟩

/-- A key or a scalar is one token of a kind that may stand there, and makes one leaf. -/
theorem Forms.leaf {p : Part C} {ts : List Token} {ns : List ParseTree} (h : Forms p ts ns)
    (hp : p = .key ∨ p = .scalar) : ∃ t, ts = [t] ∧ ns = [.leaf none t] ∧
      ∃ x, .token x ∈ p.alternatives ∧ x.accepts t = true := by
  cases h with
  | choice hq h =>
    obtain ⟨x, rfl, -⟩ := Part.token_of_leaf hp hq
    cases h with
    | token _ ht => exact ⟨_, rfl, rfl, x, hq, ht⟩
    | choice hq _ => cases hq
  | _ => rcases hp with hp | hp <;> cases hp

theorem forms_leaf_iff {p : Part C} (hp : p = .key ∨ p = .scalar) {t : Token} :
    Forms p [t] [.leaf none t] ↔ ∃ x, .token x ∈ p.alternatives ∧ x.accepts t = true := by
  constructor
  · intro h
    obtain ⟨t', ht, -, haccepts⟩ := h.leaf hp
    obtain rfl := (List.cons.inj ht).1
    exact haccepts
  · rintro ⟨x, hx, ht⟩
    obtain ⟨x', heq, hkept⟩ := Part.token_of_leaf hp hx
    obtain rfl := Part.token.inj heq
    exact .choice hx (.token hkept ht)

/-! ## Derivations form their parts -/

theorem Layout.made {plan : List (Part C)} {p : Part C} {body : Rule} (h : Layout plan p body)
    {g : Grammar} {toks : Nat → Token} {id : RuleId} {line : Nat} {parts : List Derivation}
    {a b : Nat} (hd : Derives g toks body.steps parts a b) :
    (Derivation.rule id body line parts).nodes = p.made line (parts.flatMap produced) := by
  rw [h.nodes hd, Part.made, ← h.label?]
  rfl

namespace Derivation

@[simp] theorem tokensOf_nil : tokensOf [] = [] := rfl

@[simp] theorem tokensOf_token (x : Terminal) (t : Token) (ds : List Derivation) :
    tokensOf (.token x t :: ds) = t :: tokensOf ds := rfl

@[simp] theorem tokensOf_rule (id : RuleId) (body : Rule) (line : Nat) (parts ds : List Derivation) :
    tokensOf (.rule id body line parts :: ds) = tokensOf parts ++ tokensOf ds := rfl

theorem produced_kept {x : Terminal} (hx : x.isKept = true) (t : Token) (ds : List Derivation) :
    (token x t :: ds).flatMap produced = .leaf none t :: ds.flatMap produced := by
  rw [List.flatMap_cons, produced, if_pos hx]
  rfl

@[simp] theorem produced_separator (text : String) (t : Token) (ds : List Derivation) :
    (token (.separator text) t :: ds).flatMap produced = ds.flatMap produced := rfl

@[simp] theorem produced_rule (id : RuleId) (body : Rule) (line : Nat) (parts ds : List Derivation) :
    (rule id body line parts :: ds).flatMap produced =
      (rule id body line parts).nodes ++ ds.flatMap produced := rfl

end Derivation

section
variable {g : Grammar} {toks : Nat → Token}

/-- Regrouping takes no token and adds no node. -/
theorem gathers_empty {groups : List (String × List String)} {ds : List Derivation} {a b : Nat}
    (h : Derives g toks (groups.map fun group => .gather group.1 group.2) ds a b) :
    tokensOf ds = [] ∧ ds.flatMap produced = [] := by
  constructor
  · have hspells := h.spells (L := fun _ _ => True) fun _ _ _ _ _ => trivial
    exact spells_gathers hspells
  · refine h.produced_nil fun s hs => ?_
    obtain ⟨group, -, rfl⟩ := List.mem_map.mp hs
    rfl

/-- A single reference is matched by one instance. -/
theorem Derives.single {id : RuleId} {ds : List Derivation} {a b : Nat}
    (h : Derives g toks [.rule id] ds a b) :
    ∃ body parts, ds = [.rule id body (toks a).line parts] := by
  cases h with
  | rule _ _ hnil =>
    cases hnil
    exact ⟨_, _, rfl⟩

theorem forms_rest {p : Part C} {id : RuleId} {ds : List Derivation} {a b : Nat}
    (h : Derives g toks [.many id] ds a b)
    (hnext : ∀ body line parts, .rule id body line parts ∈ ds →
      Forms (.next p) (tokensOf parts) (Derivation.rule id body line parts).nodes) :
    Forms (.rest p) (tokensOf ds) (ds.flatMap produced) := by
  induction ds generalizing a with
  | nil => exact .last
  | cons d ds ih =>
    cases h with
    | done h => cases h
    | again h =>
      cases h with
      | rule hid hbody hrest =>
        exact .further (hnext _ _ _ (List.mem_cons_self ..))
          (ih hrest fun body line parts hmem => hnext _ _ _ (List.mem_cons_of_mem _ hmem))

/-- What stands behind an opening delimiter: items or none, and the closing delimiter. -/
theorem forms_enclosed {p : Part C} {items : RuleId} {close : String}
    (groups : List (String × List String)) {ds : List Derivation} {a b : Nat}
    (h : Derives g toks (.optional items :: .terminal (.separator close) ::
      groups.map fun group => .gather group.1 group.2) ds a b)
    (hitems : ∀ body line parts, .rule items body line parts ∈ ds →
      Forms (.items p) (tokensOf parts) (Derivation.rule items body line parts).nodes) :
    ∃ ts r, tokensOf ds = ts ++ [r] ∧ (Terminal.separator close).accepts r = true ∧
      Forms (.optional (.items p)) ts (ds.flatMap produced) := by
  cases h with
  | skip h =>
    cases h with
    | token hr h =>
      obtain ⟨htokens, hnodes⟩ := gathers_empty h
      refine ⟨[], _, ?_, hr, ?_⟩
      · rw [tokensOf_token, htokens, List.nil_append]
      · rw [produced_separator, hnodes]
        exact .absent
  | take h =>
    cases h with
    | @rule _ _ _ parts _ _ _ _ _ _ h =>
      cases h with
      | token hr h =>
        obtain ⟨htokens, hnodes⟩ := gathers_empty h
        refine ⟨tokensOf parts, _, ?_, hr, .present ?_⟩
        · rw [tokensOf_rule, tokensOf_token, htokens]
        · rw [produced_rule, produced_separator, hnodes, List.append_nil]
          exact hitems _ _ _ (.head _)

variable {plan : List (Part C)}

/-- What an instance of a rule takes and makes, from what the instances inside it do. -/
theorem LaidOut.forms_body (h : LaidOut g plan) {id : RuleId} {body : Rule} {p : Part C}
    (hid : plan[id]? = some p) (hbody : g.rule? id = some body) {parts : List Derivation} {a b : Nat}
    (hd : Derives g toks body.steps parts a b)
    (hinside : ∀ id' body' line' parts' q, .rule id' body' line' parts' ∈ parts →
      plan[id']? = some q → Forms q (tokensOf parts') (Derivation.rule id' body' line' parts').nodes) :
    Forms p (tokensOf parts) (Derivation.rule id body (toks a).line parts).nodes := by
  have hlayout := h.layout hid hbody
  rw [hlayout.made hd]
  obtain ⟨hreads, -⟩ := hd.reads
  have halternative : ∀ {ids : List RuleId} {id' : RuleId}, Assigns plan ids p.alternatives →
      id' ∈ ids → Derives g toks [.rule id'] parts a b →
      Forms p (tokensOf parts) (parts.flatMap produced) := by
    intro ids id' hids hmem hd
    obtain ⟨body', parts', rfl⟩ := hd.single
    obtain ⟨q, hq, hplan⟩ := hids.part_of_mem hmem
    rw [tokensOf_rule, tokensOf_nil, List.append_nil, produced_rule, List.flatMap_nil,
      List.append_nil]
    exact .choice hq (hinside _ _ _ _ q (.head _) hplan)
  -- the tokens and nodes are read off the derivation, whose shape the steps of the rule give
  cases hlayout with
  | token hx =>
    cases hd with
    | token ht hnil =>
      cases hnil
      rw [produced_kept hx]
      exact .token hx ht
  | choice hne hids =>
    rw [Part.made_alternatives hne]
    cases hd with
    | choice hmem hd => exact halternative hids hmem hd
  | dispatch hids =>
    cases hd with
    | dispatch hmem hd => exact halternative hids hmem hd
  | property hkey hvalue =>
    cases hd with
    | rule _ _ hd =>
      cases hd with
      | token hc hd =>
        obtain ⟨vbody, vparts, rfl⟩ := hd.single
        have hks := hinside _ _ _ _ .key (.head _) hkey
        have hvs := hinside _ _ _ _ .generic (.tail _ (.tail _ (.head _))) hvalue
        obtain ⟨k, hk, -, -⟩ := hks.leaf (Or.inl rfl)
        rw [hk] at hks
        simp only [tokensOf_rule, tokensOf_token, tokensOf_nil, hk, List.singleton_append,
          List.append_nil, produced_rule, produced_separator, List.flatMap_nil] at hreads ⊢
        rw [hreads.1] at hks ⊢
        exact .property hks hc hvs
  | keyed hvalue =>
    cases hd with
    | token hk hd =>
      cases hd with
      | token hc hd =>
        obtain ⟨vbody, vparts, rfl⟩ := hd.single
        have hvs := hinside _ _ _ _ _ (.tail _ (.tail _ (.head _))) hvalue
        rw [produced_kept rfl]
        simp only [tokensOf_rule, tokensOf_token, tokensOf_nil, List.append_nil, produced_rule,
          produced_separator, List.flatMap_nil]
        exact .keyed hk hc hvs
  | root hvalue =>
    obtain ⟨vbody, vparts, rfl⟩ := hd.single
    have hvs := hinside _ _ _ _ _ (.head _) hvalue
    rw [tokensOf_rule, tokensOf_nil, List.append_nil] at hreads ⊢
    rw [produced_rule, List.flatMap_nil, List.append_nil]
    have hne := hvs.phrase.shape.of_valueOf.nonempty
    obtain ⟨t, ts, hts⟩ := List.exists_cons_of_ne_nil hne
    rw [hts] at hreads
    rw [hreads.1] at hvs ⊢
    exact .root (by rw [hts]; rfl) hvs
  | braces hitems =>
    cases hd with
    | token hl hd =>
      obtain ⟨ts, r, htokens, hr, hforms⟩ := forms_enclosed _ hd fun body' line' parts' hmem =>
        hinside _ body' line' parts' _ (.tail _ hmem) hitems
      rw [tokensOf_token, htokens, produced_separator]
      exact .braces hl hforms hr
  | brackets hitems =>
    cases hd with
    | token hl hd =>
      obtain ⟨ts, r, htokens, hr, hforms⟩ := forms_enclosed [] hd
        fun body' line' parts' hmem => hinside _ body' line' parts' _ (.tail _ hmem) hitems
      rw [tokensOf_token, htokens, produced_separator]
      exact .brackets hl hforms hr
  | items _ hitem hnext =>
    cases hd with
    | rule _ _ hd =>
      have hfirst := hinside _ _ _ _ _ (.head _) hitem
      have hrest := forms_rest hd fun body' line' parts' hmem =>
        hinside _ body' line' parts' _ (.tail _ hmem) hnext
      exact .items hfirst hrest
  | next _ hitem =>
    cases hd with
    | token hc hd =>
      obtain ⟨vbody, vparts, rfl⟩ := hd.single
      have hvs := hinside _ _ _ _ _ (.tail _ (.head _)) hitem
      simp only [tokensOf_rule, tokensOf_token, tokensOf_nil, List.append_nil, produced_rule,
        produced_separator, List.flatMap_nil]
      exact .next hc hvs

/-- A derivation of a rule takes the tokens of its part and makes the nodes of that. -/
theorem LaidOut.forms (h : LaidOut g plan) {id : RuleId} {p : Part C} (hid : plan[id]? = some p)
    {d : Derivation} {a b : Nat} (hd : Derives g toks [.rule id] [d] a b) :
    Forms p d.tokens d.nodes := by
  have hall := hd.forall_rules
    (P := fun id body line parts => ∀ p, plan[id]? = some p →
      Forms p (tokensOf parts) (Derivation.rule id body line parts).nodes)
    fun id body parts a b hbody hparts ih p hid => h.forms_body hid hbody hparts
      fun id' body' line' parts' q hmem hq => ih id' body' line' parts' hmem q hq
  obtain ⟨body, parts, hsingle⟩ := hd.single
  obtain rfl := (List.cons.inj hsingle).1
  exact hall id body _ parts (List.mem_singleton_self _) p hid

end
end HandlerGrammar
