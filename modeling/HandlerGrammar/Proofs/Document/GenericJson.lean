import HandlerGrammar.Proofs.Document.Formation
import HandlerGrammar.Proofs.Document.Parses

/-! # Generic JSON

A root without handlers nested in it takes any value of its mode: scalars, and objects and arrays of
generic values. Of this part of the language the tokens tell how they are to be read: each list ends
where its delimiters close, each value is told by its first token.

* `Part.IsJson`: the parts of generic JSON, `Part.isJson_root`: those of a root without children;
* `Forms.single`: a property and a value make one node each;
* `Phrase.split`: where a property or a value ends;
* `Forms.unique`: the nodes are determined by the tokens;
* `Grammar.input`: the tokens that a parse is given;
* `forms_of_parse`: what a parse has made of them, for a root without children. -/
namespace HandlerGrammar
open HandlerTree ParseTree
set_option autoImplicit false

variable {C : Type}

namespace Part

/-- What generic objects and arrays hold. -/
def IsEntry (p : Part C) : Prop := p = .property ∨ p = .generic

/-- The parts of generic JSON, with the labels under which they stand. -/
def IsJson : Part C → Prop
  | key | scalar | generic | property => True
  | braces label? groups p => (label? = none ∨ label? = some objectLabel) ∧ groups = [] ∧ p = .property
  | brackets label? p => (label? = none ∨ label? = some arrayLabel) ∧ p = .generic
  | items p | next p | rest p => p.IsEntry
  | optional p => ∃ q : Part C, p = .items q ∧ q.IsEntry
  | root t => t.children = []
  | token _ | member _ | keyed _ | document _ => False

theorem IsEntry.isJson {p : Part C} (h : p.IsEntry) : p.IsJson := by
  rcases h with rfl | rfl <;> exact trivial

/-- Nothing is regrouped in generic JSON. -/
theorem IsJson.groups {p : Part C} (h : p.IsJson) : p.groups = [] := by
  cases p with
  | braces label? groups p => exact h.2.1
  | _ => rfl

theorem isJson_alternative {q : Part C} (h : q ∈ alternatives (.generic : Part C)) : q.IsJson := by
  simp only [alternatives, List.mem_cons, List.not_mem_nil, or_false] at h
  rcases h with rfl | rfl | rfl
  · exact ⟨Or.inr rfl, rfl, rfl⟩
  · exact ⟨Or.inr rfl, rfl⟩
  · exact trivial

/-- Of the parts of generic JSON with alternatives, all but the simplest are generic values. -/
theorem IsJson.of_alternatives {p q : Part C} (h : p.IsJson) (hq : q ∈ p.alternatives) :
    (p = .key ∨ p = .scalar) ∨ p = .generic := by
  cases p with
  | key => exact Or.inl (Or.inl rfl)
  | scalar => exact Or.inl (Or.inr rfl)
  | generic => exact Or.inr rfl
  | member children => exact h.elim
  | document roots => exact h.elim
  | _ => cases hq

theorem isJson_braces {label? : Option String} {groups : List (String × List String)} {p : Part C}
    (h : (braces label? groups p).IsJson) : (optional (items p)).IsJson :=
  ⟨p, rfl, Or.inl h.2.2⟩

theorem isJson_brackets {label? : Option String} {p : Part C} (h : (brackets label? p).IsJson) :
    (optional (items p)).IsJson :=
  ⟨p, rfl, Or.inr h.2⟩

theorem isJson_optional {p : Part C} (h : (optional p).IsJson) : p.IsJson := by
  obtain ⟨q, rfl, hq⟩ := h
  exact hq

theorem isJson_valueOf {t : HandlerTree C} (h : t.children = []) : (valueOf t).IsJson := by
  unfold valueOf
  rw [h]
  cases t.handler.mode with
  | primary => exact trivial
  | wrapper | object => exact ⟨Or.inl rfl, rfl, rfl⟩
  | array => exact ⟨Or.inl rfl, rfl⟩

theorem isJson_root (h : Handler C) : (root (.node h [])).IsJson := rfl

end Part

theorem forall_mem_enclosed {P : Token → Prop} {l r : Token} {ts : List Token} :
    (∀ t ∈ l :: (ts ++ [r]), P t) ↔ P l ∧ (∀ t ∈ ts, P t) ∧ P r := by
  rw [List.forall_mem_cons, List.forall_mem_append, List.forall_mem_singleton]

/-! ## Where entries end -/

theorem reads_getD (ts us : List Token) (t : Token) :
    Reads (fun k => (ts ++ us)[k]?.getD t) 0 ts := by
  refine reads_iff.mpr fun i hi => ?_
  rw [Nat.zero_add, List.getElem?_append_left hi, List.getElem?_eq_getElem hi]
  rfl

/-- No property and no value goes on behind its end. -/
theorem Phrase.split {p : Part C} (hp : p.IsEntry) {ts us xs ys : List Token} (h : Phrase p ts)
    (h' : Phrase p us) (heq : ts ++ xs = us ++ ys) : ts = us ∧ xs = ys := by
  have hts := reads_getD ts xs (.eof 1)
  have hus := reads_getD us ys (.eof 1)
  rw [← heq] at hus
  have hlen : ts.length = us.length := by
    rcases hp with rfl | rfl
    · exact MemberShaped.length_eq h.shape h'.shape hts hus
    · exact Delimited.length_eq h.shape h'.shape hts hus
  exact List.append_inj heq hlen

theorem Phrase.split_next {p : Part C} (hp : p.IsEntry) {ts us xs ys : List Token}
    (h : Phrase (.next p) ts) (h' : Phrase (.next p) us) (heq : ts ++ xs = us ++ ys) :
    ts = us ∧ xs = ys := by
  cases h with
  | choice hq _ => cases hq
  | next _ h =>
    cases h' with
    | choice hq _ => cases hq
    | next _ h' =>
      obtain ⟨rfl, htail⟩ := List.cons.inj heq
      obtain ⟨rfl, rfl⟩ := h.split hp h' htail
      exact ⟨rfl, rfl⟩

theorem Phrase.items_ne_nil {p : Part C} (hp : p.IsEntry) {ts : List Token}
    (h : Phrase (.items p) ts) : ts ≠ [] := by
  cases h with
  | choice hq _ => cases hq
  | @items _ ts us h _ =>
    have hne : ts ≠ [] := by
      rcases hp with rfl | rfl
      · obtain ⟨k, c, vs, rfl, -⟩ := h.shape
        exact List.cons_ne_nil _ _
      · exact Delimited.nonempty h.shape
    exact List.append_ne_nil_of_left_ne_nil hne us

/-- The text of the separator with which tokens begin, or `none` within if they begin with another
token. -/
def opening? (ts : List Token) : Option (Option String) :=
  ts.head?.map fun t => if t.kind = .separator then some t.text else none

theorem opening?_of_accepts {text : String} {t : Token}
    (h : (Terminal.separator text).accepts t = true) (ts : List Token) :
    opening? (t :: ts) = some (some text) := by
  simp only [Terminal.accepts, Bool.and_eq_true, beq_iff_eq] at h
  simp [opening?, h.1, h.2]

theorem opening?_object {ts : List Token} (h : Phrase (.object : Part C) ts) :
    opening? ts = some (some "\x7b") := by
  cases h with
  | choice hq _ => cases hq
  | braces hl _ _ => exact opening?_of_accepts hl _

theorem opening?_array {ts : List Token} (h : Phrase (.array : Part C) ts) :
    opening? ts = some (some "[") := by
  cases h with
  | choice hq _ => cases hq
  | brackets hl _ _ => exact opening?_of_accepts hl _

theorem opening?_scalar {ts : List Token} (h : Phrase (.scalar : Part C) ts) :
    opening? ts = some none := by
  cases h with
  | choice hq h =>
    obtain ⟨x, rfl, -⟩ := Part.token_of_leaf (Or.inr rfl) hq
    cases h with
    | choice hq _ => cases hq
    | token hx ht => simp [opening?, kind_of_isKept hx ht]

/-- The first token tells objects, arrays and scalars apart. -/
theorem generic_alternative_unique {p q : Part C} (hp : p ∈ Part.alternatives (.generic : Part C))
    (hq : q ∈ Part.alternatives (.generic : Part C)) {ts : List Token} (h : Phrase p ts)
    (h' : Phrase q ts) : p = q := by
  have hopening : ∀ {p : Part C}, p ∈ Part.alternatives (.generic : Part C) → Phrase p ts →
      p = .object ∧ opening? ts = some (some "\x7b") ∨ p = .array ∧ opening? ts = some (some "[") ∨
        p = .scalar ∧ opening? ts = some none := by
    intro p hp h
    simp only [Part.alternatives, List.mem_cons, List.not_mem_nil, or_false] at hp
    rcases hp with rfl | rfl | rfl
    · exact Or.inl ⟨rfl, opening?_object h⟩
    · exact Or.inr (Or.inl ⟨rfl, opening?_array h⟩)
    · exact Or.inr (Or.inr ⟨rfl, opening?_scalar h⟩)
  rcases hopening hp h with ⟨rfl, ho⟩ | ⟨rfl, ho⟩ | ⟨rfl, ho⟩
  all_goals
    rcases hopening hq h' with ⟨rfl, ho'⟩ | ⟨rfl, ho'⟩ | ⟨rfl, ho'⟩
    all_goals first | rfl | simp [ho] at ho'

/-! ## Nodes -/

theorem Part.made_of_label {p : Part C} {label : String} (h : p.label? = some label) (line : Nat)
    (nodes : List ParseTree) :
    p.made line nodes = [labeled label line (gatherAll line p.groups nodes)] := by
  rw [Part.made, h]
  rfl

/-- A property and a value make one node each. -/
theorem Forms.single {p : Part C} (hp : p.IsEntry) {ts : List Token} {ns : List ParseTree}
    (h : Forms p ts ns) : ∃ n, ns = [n] := by
  rcases hp with rfl | rfl
  · cases h with
    | choice hq _ => cases hq
    | property _ _ _ => exact ⟨_, Part.made_of_label rfl _ _⟩
  · cases h with
    | choice hq h =>
      simp only [Part.alternatives, List.mem_cons, List.not_mem_nil, or_false] at hq
      rcases hq with rfl | rfl | rfl
      · cases h with
        | choice hq _ => cases hq
        | braces _ _ _ => exact ⟨_, Part.made_of_label rfl _ _⟩
      · cases h with
        | choice hq _ => cases hq
        | brackets _ _ _ => exact ⟨_, Part.made_of_label rfl _ _⟩
      · obtain ⟨t, -, rfl, -⟩ := h.leaf (Or.inr rfl)
        exact ⟨_, rfl⟩

/-- The tokens of generic JSON can be read in one way only. -/
theorem Forms.unique {p : Part C} (hp : p.IsJson) {ts : List Token} {ns : List ParseTree}
    (h : Forms p ts ns) : ∀ us ms, Forms p us ms → us = ts → ms = ns := by
  induction h with
  | token _ _ => exact hp.elim
  | @choice p q ts ns hq h ih =>
    intro us ms h' heq
    subst heq
    rcases hp.of_alternatives hq with hleaf | rfl
    · obtain ⟨t, ht, rfl, -⟩ := (Forms.choice hq h).leaf hleaf
      obtain ⟨t', ht', rfl, -⟩ := h'.leaf hleaf
      rw [ht] at ht'
      cases ht'
      rfl
    · cases h' with
      | choice hq' h' =>
        obtain rfl := generic_alternative_unique hq hq' h.phrase h'.phrase
        exact ih (Part.isJson_alternative hq) _ _ h' rfl
  | property _ _ _ ihkey ihvalue =>
    intro us ms h' heq
    cases h' with
    | choice hq _ => cases hq
    | property hkey _ hvalue =>
      cases heq
      rw [ihkey trivial _ _ hkey rfl, ihvalue trivial _ _ hvalue rfl]
  | keyed _ _ _ _ => exact hp.elim
  | root hhead _ ih =>
    intro us ms h' heq
    cases h' with
    | choice hq _ => cases hq
    | root hhead' h' =>
      subst heq
      obtain rfl := Option.some.inj (hhead.symm.trans hhead')
      rw [ih (Part.isJson_valueOf hp) _ _ h' rfl]
  | braces _ _ _ ih =>
    intro us ms h' heq
    cases h' with
    | choice hq _ => cases hq
    | braces _ h' _ =>
      obtain ⟨rfl, htail⟩ := List.cons.inj heq
      obtain ⟨rfl, -⟩ := List.append_inj' htail rfl
      rw [ih (Part.isJson_braces hp) _ _ h' rfl]
  | brackets _ _ _ ih =>
    intro us ms h' heq
    cases h' with
    | choice hq _ => cases hq
    | brackets _ h' _ =>
      obtain ⟨rfl, htail⟩ := List.cons.inj heq
      obtain ⟨rfl, -⟩ := List.append_inj' htail rfl
      rw [ih (Part.isJson_brackets hp) _ _ h' rfl]
  | items h _ ihfirst ihrest =>
    intro us ms h' heq
    cases h' with
    | choice hq _ => cases hq
    | items hfirst hrest =>
      obtain ⟨rfl, rfl⟩ := hfirst.phrase.split hp h.phrase heq
      rw [ihfirst hp.isJson _ _ hfirst rfl, ihrest hp _ _ hrest rfl]
  | next _ _ ih =>
    intro us ms h' heq
    cases h' with
    | choice hq _ => cases hq
    | next _ h' =>
      cases heq
      exact ih hp.isJson _ _ h' rfl
  | last =>
    intro us ms h' heq
    cases h' with
    | choice hq _ => cases hq
    | last => rfl
    | further hnext _ =>
      cases hnext with
      | choice hq _ => cases hq
      | next _ _ => cases heq
  | further h _ ihnext ihrest =>
    intro us ms h' heq
    cases h' with
    | choice hq _ => cases hq
    | last =>
      cases h with
      | choice hq _ => cases hq
      | next _ _ => cases heq
    | further hnext hrest =>
      obtain ⟨rfl, rfl⟩ := hnext.phrase.split_next hp h.phrase heq
      rw [ihnext hp _ _ hnext rfl, ihrest hp _ _ hrest rfl]
  | absent =>
    intro us ms h' heq
    cases h' with
    | choice hq _ => cases hq
    | absent => rfl
    | present h' =>
      obtain ⟨q, rfl, hq⟩ := hp
      exact absurd heq (h'.phrase.items_ne_nil hq)
  | present h ih =>
    intro us ms h' heq
    cases h' with
    | choice hq _ => cases hq
    | absent =>
      obtain ⟨q, rfl, hq⟩ := hp
      exact absurd heq.symm (h.phrase.items_ne_nil hq)
    | present h' => exact ih (Part.isJson_optional hp) _ _ h' heq

/-! ## Parses -/

/-- The words that are reserved while the stream is parsed. -/
def Grammar.reserves (g : Grammar) (s : TokenStream) (w : String) : Bool :=
  s.isReserved w || g.keywords.contains w

/-- The tokens that a parse of the stream is given: all that are still to come. -/
def Grammar.input (g : Grammar) (s : TokenStream) : List Token :=
  s.pending.map (Token.reserve (g.reserves s))

/-- A parse with the grammar of a root without children makes one node of all its input. -/
theorem forms_of_parse {r : Registry C} {h : Handler C} (hroots : r.roots = .ok [.node h []])
    {gg : GeneratedGrammar C} (hgg : r.generate = .ok gg) {s s' : TokenStream} (hs : s.Classified)
    {tree : ParseTree} (hparse : gg.grammar.parse s = .ok tree s') :
    Forms (.root (.node h [])) (gg.grammar.input s) [tree] := by
  obtain ⟨roots, plan, d, hp⟩ := parses_of_parse hgg hs hparse
  obtain rfl := Except.ok.inj (hroots.symm.trans hp.sorted)
  have hforms := hp.laidOut.forms hp.entry hp.derives
  rw [hp.tokens, hp.nodes, Grammar.upcoming_prepared hs] at hforms
  exact hforms

/-! ## An example -/

namespace Registry

/-- A root that takes any array. -/
def listHandler : Handler Unit := ⟨"list", .array, [], fun _ => pure ()⟩

def listRegistry : Registry Unit := left (register [listHandler] .empty)

theorem listRegistry_roots : listRegistry.roots = .ok [.node listHandler []] := rfl

/-- The lone token in a stream's tree under the generated grammar, if it is accepted and that is a
labelled leaf. -/
def leaf? (r : Registry C) (s : TokenStream) : Option (Option String × Token) :=
  match r.generate with
  | .error _ => none
  | .ok gg =>
    match gg.grammar.parse s with
    | .ok (.leaf label t) _ => some (label, t)
    | _ => none

theorem leaf?_eq_some {r : Registry C} {gg : GeneratedGrammar C} (hgg : r.generate = .ok gg)
    (s : TokenStream) (label : Option String) (t : Token) (h : r.leaf? s = some (label, t)) :
    ∃ l, gg.grammar.parse s = .ok (.leaf label t) l := by
  rw [leaf?, hgg] at h
  dsimp only at h
  split at h
  · next label' t' l hparse =>
    cases h
    exact ⟨l, hparse⟩
  · cases h

end Registry

/-- The text `["a"]`. -/
def listSource : List UInt8 := [91, 34, 97, 34, 93]

end HandlerGrammar
