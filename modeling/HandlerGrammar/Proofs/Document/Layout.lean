import HandlerGrammar.Proofs.Document.Language
import HandlerGrammar.Proofs.Matching.Termination

/-! # Grammars laid out by parts

In the grammar of a forest every rule describes one part of the documents. A plan lists these parts
by the numbers of the rules; what a rule looks like follows from its part.

* `Layout`: the rule for a part, `Layout.references`: the rules that it refers to;
* `LaidOut`: a grammar all of whose rules follow a plan;
* `LaidOut.acyclic`: no rule leads back to itself;
* `LaidOut.begins`, `LaidOut.not_begins`: a rule begins with the first token of every phrase of its
  part, and with no closing delimiter;
* `LaidOut.leadingLiteral_keyed`, `LaidOut.leadingLiteral_property`: what dispatch goes by;
* `LaidOut.phrase`: a rule derives only phrases of its part. -/
namespace HandlerGrammar
open Derivation
set_option autoImplicit false

variable {C : Type}

/-- The rules with the given numbers describe the given parts, in order. -/
def Assigns (plan : List (Part C)) (ids : List RuleId) (parts : List (Part C)) : Prop :=
  ids.map (plan[·]?) = parts.map some

section
variable {plan : List (Part C)} {ids : List RuleId} {parts : List (Part C)}

@[simp] theorem assigns_nil : Assigns plan [] parts ↔ parts = [] := by
  cases parts <;> simp [Assigns]

@[simp] theorem assigns_cons {id : RuleId} {p : Part C} :
    Assigns plan (id :: ids) (p :: parts) ↔ plan[id]? = some p ∧ Assigns plan ids parts := by
  simp [Assigns]

theorem Assigns.part_of_mem (h : Assigns plan ids parts) {id : RuleId} (hid : id ∈ ids) :
    ∃ q ∈ parts, plan[id]? = some q := by
  have hmem : plan[id]? ∈ parts.map some := h ▸ List.mem_map_of_mem hid
  obtain ⟨q, hq, hsome⟩ := List.mem_map.mp hmem
  exact ⟨q, hq, hsome.symm⟩

theorem Assigns.id_of_mem (h : Assigns plan ids parts) {q : Part C} (hq : q ∈ parts) :
    ∃ id ∈ ids, plan[id]? = some q := by
  have hmem : some q ∈ ids.map (plan[·]?) := h ▸ List.mem_map_of_mem hq
  obtain ⟨id, hid, hsome⟩ := List.mem_map.mp hmem
  exact ⟨id, hid, hsome⟩

end

/-- Whether a part may be an item of a list. -/
def Part.isItem : Part C → Bool
  | items _ | next _ | rest _ | optional _ => false
  | _ => true

def Part.isNext : Part C → Bool
  | next _ => true
  | _ => false

theorem Part.isNext_of_isItem {p : Part C} (h : p.isItem = true) : p.isNext = false := by
  cases p with
  | next q => cases h
  | _ => rfl

/-- The rule for a part, where `plan` tells the parts of the rules that it refers to. -/
inductive Layout (plan : List (Part C)) : Part C → Rule → Prop
  | token {x : Terminal} : x.isKept = true → Layout plan (.token x) (.plain [.terminal x])
  | choice {p : Part C} {ids : List RuleId} : p.alternatives ≠ [] →
      Assigns plan ids p.alternatives → Layout plan p (.plain [.choice ids])
  | dispatch {children : List (HandlerTree C)} {ids : List RuleId} :
      Assigns plan ids (Part.offers children) →
      Layout plan (.member children) (.plain [.dispatch ids])
  | property {key value : RuleId} : plan[key]? = some .key → plan[value]? = some .generic →
      Layout plan .property
        (.labeled propertyLabel [.rule key, .terminal (.separator ":"), .rule value])
  | keyed {t : HandlerTree C} {value : RuleId} : plan[value]? = some (Part.valueOf t) →
      Layout plan (.keyed t) (.labeled t.name
        [.terminal (.keyword t.name), .terminal (.separator ":"), .rule value])
  | root {t : HandlerTree C} {value : RuleId} : plan[value]? = some (Part.valueOf t) →
      Layout plan (.root t) (.labeled t.name [.rule value])
  | braces {label? : Option String} {groups : List (String × List String)} {p : Part C}
      {items : RuleId} : plan[items]? = some (.items p) →
      Layout plan (.braces label? groups p) ⟨label?,
        [.terminal (.separator "\x7b"), .optional items, .terminal (.separator "\x7d")] ++
          groups.map fun group => .gather group.1 group.2⟩
  | brackets {label? : Option String} {p : Part C} {items : RuleId} :
      plan[items]? = some (.items p) →
      Layout plan (.brackets label? p) ⟨label?,
        [.terminal (.separator "["), .optional items, .terminal (.separator "]")]⟩
  | items {p : Part C} {item next : RuleId} : p.isItem = true → plan[item]? = some p →
      plan[next]? = some (.next p) →
      Layout plan (.items p) (.plain [.rule item, .many next])
  | next {p : Part C} {item : RuleId} : p.isItem = true → plan[item]? = some p →
      Layout plan (.next p) (.plain [.terminal (.separator ","), .rule item])

/-- The parts that a part consists of. -/
def Part.parts : Part C → List (Part C)
  | property => [.key, .generic]
  | keyed t | root t => [valueOf t]
  | braces _ _ p | brackets _ p => [.items p]
  | items p => [p, .next p]
  | next p => [p]
  | p => p.alternatives

theorem references_gathers (groups : List (String × List String)) :
    (groups.map fun group => Step.gather group.1 group.2).flatMap Step.references = [] := by
  induction groups with
  | nil => rfl
  | cons group groups ih => exact ih

theorem Layout.references {plan : List (Part C)} {p : Part C} {body : Rule} (h : Layout plan p body) :
    ∀ id ∈ body.steps.flatMap Step.references, ∃ q, plan[id]? = some q ∧ q ∈ p.parts := by
  have hone : ∀ {id : RuleId} {q : Part C}, plan[id]? = some q → q ∈ p.parts →
      ∀ id' ∈ [id], ∃ q, plan[id']? = some q ∧ q ∈ p.parts := by
    intro id q hq hmem id' hid
    rw [List.mem_singleton.mp hid]
    exact ⟨q, hq, hmem⟩
  have htwo : ∀ {id id' : RuleId} {q q' : Part C}, plan[id]? = some q → plan[id']? = some q' →
      q ∈ p.parts → q' ∈ p.parts → ∀ j ∈ [id, id'], ∃ q, plan[j]? = some q ∧ q ∈ p.parts := by
    intro id id' q q' hq hq' hmem hmem' j hj
    rcases List.mem_cons.mp hj with rfl | hj
    · exact ⟨q, hq, hmem⟩
    · exact hone hq' hmem' j hj
  have hids : ∀ {ids : List RuleId} {parts : List (Part C)}, Assigns plan ids parts →
      parts ⊆ p.parts → ∀ id ∈ ids ++ [], ∃ q, plan[id]? = some q ∧ q ∈ p.parts := by
    intro ids parts hids hsub id hid
    rw [List.append_nil] at hid
    obtain ⟨q, hmem, hq⟩ := hids.part_of_mem hid
    exact ⟨q, hq, hsub hmem⟩
  have halternatives : p.alternatives ⊆ p.parts := by
    cases p with
    | property | keyed _ | root _ | braces _ _ _ | brackets _ _ | items _ | next _ =>
      exact List.nil_subset _
    | _ => exact List.Subset.refl _
  cases h with
  | token _ => exact fun id hid => nomatch hid
  | choice _ h => exact hids h halternatives
  | dispatch h => exact hids h halternatives
  | property hkey hvalue => exact htwo hkey hvalue (by simp [Part.parts]) (by simp [Part.parts])
  | keyed hvalue => exact hone hvalue (by simp [Part.parts])
  | root hvalue => exact hone hvalue (by simp [Part.parts])
  | @braces label? groups p items hitems =>
    intro id hid
    rw [List.flatMap_append, references_gathers, List.append_nil] at hid
    exact hone hitems (by simp [Part.parts]) id hid
  | brackets hitems => exact hone hitems (by simp [Part.parts])
  | items _ hitem hnext => exact htwo hitem hnext (by simp [Part.parts]) (by simp [Part.parts])
  | next _ hitem => exact hone hitem (by simp [Part.parts])

/-- Every rule of the grammar is the rule for its part of the plan. -/
structure LaidOut (g : Grammar) (plan : List (Part C)) : Prop where
  length : plan.length = g.rules.length
  rules : ∀ id p, plan[id]? = some p → ∃ body, g.rule? id = some body ∧ Layout plan p body

theorem LaidOut.layout {g : Grammar} {plan : List (Part C)} (h : LaidOut g plan) {id : RuleId}
    {p : Part C} {body : Rule} (hid : plan[id]? = some p) (hbody : g.rule? id = some body) :
    Layout plan p body := by
  obtain ⟨body', hbody', hlayout⟩ := h.rules id p hid
  obtain rfl : body = body' := Option.some.inj (hbody.symm.trans hbody')
  exact hlayout

theorem LaidOut.part {g : Grammar} {plan : List (Part C)} (h : LaidOut g plan) {id : RuleId}
    {body : Rule} (hbody : g.rule? id = some body) :
    ∃ p, plan[id]? = some p ∧ Layout plan p body := by
  have hlt : id < plan.length := h.length ▸ Grammar.lt_of_rule? hbody
  exact ⟨plan[id], List.getElem?_eq_getElem hlt, h.layout (List.getElem?_eq_getElem hlt) hbody⟩

/-- With a part, all that it consists of is laid out. -/
theorem LaidOut.exists_part {g : Grammar} {plan : List (Part C)} (h : LaidOut g plan) {id : RuleId}
    {p q : Part C} (hid : plan[id]? = some p) (hq : q ∈ p.parts) : ∃ id' : RuleId, plan[id']? = some q := by
  obtain ⟨body, -, hlayout⟩ := h.rules id p hid
  cases hlayout with
  | token _ => cases hq
  | choice hne hids =>
    have hparts : p.parts = p.alternatives := by cases p <;> first | rfl | exact absurd rfl hne
    rw [hparts] at hq
    obtain ⟨id', -, hid'⟩ := hids.id_of_mem hq
    exact ⟨id', hid'⟩
  | dispatch hids =>
    obtain ⟨id', -, hid'⟩ := hids.id_of_mem hq
    exact ⟨id', hid'⟩
  | property hkey hvalue =>
    simp only [Part.parts, List.mem_cons, List.not_mem_nil, or_false] at hq
    rcases hq with rfl | rfl
    · exact ⟨_, hkey⟩
    · exact ⟨_, hvalue⟩
  | keyed hvalue | root hvalue =>
    rw [List.mem_singleton.mp hq]
    exact ⟨_, hvalue⟩
  | braces hitems | brackets hitems =>
    rw [List.mem_singleton.mp hq]
    exact ⟨_, hitems⟩
  | items _ hitem hnext =>
    simp only [Part.parts, List.mem_cons, List.not_mem_nil, or_false] at hq
    rcases hq with rfl | rfl
    · exact ⟨_, hitem⟩
    · exact ⟨_, hnext⟩
  | next _ hitem =>
    rw [List.mem_singleton.mp hq]
    exact ⟨_, hitem⟩

/-! ## How rules begin -/

/-- A closing brace or bracket. -/
def Closes (t : Token) : Prop :=
  (Terminal.separator "\x7d").accepts t = true ∨ (Terminal.separator "]").accepts t = true

theorem Closes.weight {t : Token} (h : Closes t) : t.weight = -1 := by
  rcases h with h | h
  · exact weight_of_separator h
  · exact weight_of_separator h

/-- How many rules a part may pass before its first token. -/
def Part.rank : Part C → Nat
  | token _ | braces _ _ _ | brackets _ _ | keyed _ | next _ => 0
  | key | scalar => 1
  | generic | property | root _ => 2
  | member _ | document _ => 3
  | items p | rest p | optional p => p.rank + 1

theorem Part.rank_valueOf (t : HandlerTree C) :
    (valueOf t).rank < 2 ∧ (valueOf t).isItem = true := by
  unfold valueOf
  cases t.handler.mode <;> exact ⟨by simp [container, rank], rfl⟩

theorem Part.rank_alternative {p q : Part C} (h : q ∈ p.alternatives) :
    q.rank < p.rank ∧ q.isItem = true := by
  cases p with
  | scalar | key =>
    simp only [alternatives, List.mem_cons, List.not_mem_nil, or_false] at h
    rcases h with rfl | rfl | rfl | rfl <;> exact ⟨by simp [rank], rfl⟩
  | generic =>
    simp only [alternatives, List.mem_cons, List.not_mem_nil, or_false] at h
    rcases h with rfl | rfl | rfl <;> exact ⟨by simp [object, array, rank], rfl⟩
  | member children =>
    rcases mem_offers h with rfl | ⟨t, -, rfl⟩ <;> exact ⟨by simp [rank], rfl⟩
  | document roots =>
    obtain ⟨t, -, rfl⟩ := List.mem_map.mp h
    exact ⟨by simp [rank], rfl⟩
  | _ => cases h

/-- Steps that are never passed over without matching something. -/
def Step.isFirm : Step → Bool
  | terminal _ | rule _ | choice _ | dispatch _ => true
  | optional _ | many _ | gather _ _ => false

theorem Grammar.not_nullable_of_firm {g : Grammar} {step : Step} {rest : List Step}
    (hfirm : step.isFirm = true) (h : ∀ id ∈ step.references, ¬ g.Nullable (.rule id :: rest)) :
    ¬ g.Nullable (step :: rest) := by
  intro hnull
  cases hnull with
  | rule hbody hnull hrest => exact h _ (List.mem_singleton_self _) (.rule hbody hnull hrest)
  | choice hid hnull => exact h _ hid hnull
  | dispatch hid hnull => exact h _ hid hnull
  | _ => cases hfirm

theorem stepsBegin_of_firm {L : RuleId → Prop} {t : Token} {step : Step} {rest : List Step}
    (hfirm : step.isFirm = true) (h : StepsBegin L t (step :: rest)) :
    (∃ x, step = .terminal x ∧ x.accepts t = true) ∨ ∃ id ∈ step.references, L id := by
  cases step with
  | terminal x => exact Or.inl ⟨x, rfl, h⟩
  | rule id => exact Or.inr ⟨id, List.mem_singleton_self id, h⟩
  | choice ids => exact Or.inr h
  | dispatch ids => exact Or.inr h
  | _ => cases hfirm

/-- A rule begins with a test, which no closing delimiter passes unless a comma is asked for, or
with parts of lower rank. -/
structure Layout.Head (plan : List (Part C)) (p : Part C) (step : Step) : Prop where
  firm : step.isFirm = true
  opens : ∀ x, step = .terminal x → p.isNext = false → ∀ t, x.accepts t = true → ¬ Closes t
  lower : ∀ id ∈ step.references, ∃ q, plan[id]? = some q ∧ q.rank < p.rank ∧ q.isItem = true

theorem Layout.head {plan : List (Part C)} {p : Part C} {body : Rule} (h : Layout plan p body) :
    ∃ step rest, body.steps = step :: rest ∧ Layout.Head plan p step := by
  have hopen : ∀ {text : String}, text = "\x7b" ∨ text = "[" → ∀ t,
      (Terminal.separator text).accepts t = true → ¬ Closes t := by
    intro text htext t ht hclose
    have hw := weight_of_separator ht
    rw [if_pos htext, hclose.weight] at hw
    omega
  have hkept : ∀ {x : Terminal}, x.isKept = true → ∀ t, x.accepts t = true → ¬ Closes t := by
    intro x hx t ht hclose
    have hw := weight_of_isKept hx ht
    rw [hclose.weight] at hw
    omega
  have htest : ∀ {x : Terminal},
      (p.isNext = false → ∀ t, x.accepts t = true → ¬ Closes t) → Head plan p (.terminal x) := by
    intro x hx
    exact ⟨rfl, fun x' hx' => Step.terminal.inj hx' ▸ hx, fun _ hid => nomatch hid⟩
  have hids : ∀ {ids : List RuleId}, Assigns plan ids p.alternatives → ∀ id ∈ ids,
      ∃ q, plan[id]? = some q ∧ q.rank < p.rank ∧ q.isItem = true := by
    intro ids hids id hid
    obtain ⟨q, hq, hsome⟩ := hids.part_of_mem hid
    exact ⟨q, hsome, Part.rank_alternative hq⟩
  have hrule : ∀ {id : RuleId} {q : Part C}, plan[id]? = some q → q.rank < p.rank →
      q.isItem = true → Head plan p (.rule id) := by
    intro id q hq hrank hitem
    refine ⟨rfl, fun x hx => (nomatch hx), fun id' hid => ?_⟩
    obtain rfl : id' = id := List.mem_singleton.mp hid
    exact ⟨q, hq, hrank, hitem⟩
  cases h with
  | token hx => exact ⟨_, _, rfl, htest fun _ => hkept hx⟩
  | choice _ h => exact ⟨_, _, rfl, rfl, fun x hx => (nomatch hx), hids h⟩
  | dispatch h => exact ⟨_, _, rfl, rfl, fun x hx => (nomatch hx), hids h⟩
  | property hkey _ => exact ⟨_, _, rfl, hrule hkey (by simp [Part.rank]) rfl⟩
  | keyed _ => exact ⟨_, _, rfl, htest fun _ => hkept rfl⟩
  | root hvalue => exact ⟨_, _, rfl, hrule hvalue (Part.rank_valueOf _).1 (Part.rank_valueOf _).2⟩
  | braces _ => exact ⟨_, _, rfl, htest fun _ => hopen (Or.inl rfl)⟩
  | brackets _ => exact ⟨_, _, rfl, htest fun _ => hopen (Or.inr rfl)⟩
  | items hp hitem _ => exact ⟨_, _, rfl, hrule hitem (by simp [Part.rank]) hp⟩
  | next _ _ => exact ⟨_, _, rfl, htest fun hnext => Bool.noConfusion hnext⟩

section
variable {g : Grammar} {plan : List (Part C)}

theorem LaidOut.not_nullable (h : LaidOut g plan) {id : RuleId} {p : Part C}
    (hid : plan[id]? = some p) (rest : List Step) : ¬ g.Nullable (.rule id :: rest) := by
  induction hn : p.rank using Nat.strongRecOn generalizing id p rest with
  | ind n ih =>
    intro hnull
    cases hnull with
    | rule hbody hnull _ =>
      obtain ⟨step, rest, hsteps, hhead⟩ := (h.layout hid hbody).head
      rw [hsteps] at hnull
      refine Grammar.not_nullable_of_firm hhead.firm (fun id' hmem => ?_) hnull
      obtain ⟨q, hq, hrank, -⟩ := hhead.lower id' hmem
      exact ih q.rank (hn ▸ hrank) hq rest rfl

theorem LaidOut.acyclic (h : LaidOut g plan) : g.Acyclic := by
  refine Grammar.acyclic_of_rank (fun id => (plan[id]?).elim 0 Part.rank) fun a b hlead => ?_
  obtain ⟨body, before, step, after, hbody, hsteps, hnull, hmem⟩ := hlead
  obtain ⟨p, hp, hlayout⟩ := h.part hbody
  obtain ⟨first, rest, hfirst, hhead⟩ := hlayout.head
  rw [hsteps] at hfirst
  cases before with
  | nil =>
    obtain ⟨rfl, rfl⟩ := List.cons.inj hfirst
    obtain ⟨q, hq, hrank, -⟩ := hhead.lower b hmem
    simpa [hp, hq] using hrank
  | cons first' before =>
    obtain ⟨rfl, rfl⟩ := List.cons.inj hfirst
    refine absurd hnull (Grammar.not_nullable_of_firm hhead.firm fun id hid => ?_)
    obtain ⟨q, hq, -⟩ := hhead.lower id hid
    exact h.not_nullable hq before

/-- No closing delimiter begins a part, the further items of a list apart. -/
theorem LaidOut.not_begins (h : LaidOut g plan) {id : RuleId} {p : Part C} {t : Token}
    (hid : plan[id]? = some p) (hp : p.isNext = false) (ht : Closes t) : ¬ g.Begins t id := by
  induction hn : p.rank using Nat.strongRecOn generalizing id p with
  | ind n ih =>
    intro hbegins
    obtain ⟨body, hbody, hsteps⟩ := Grammar.begins_iff.mp hbegins
    obtain ⟨step, rest, heq, hhead⟩ := (h.layout hid hbody).head
    rw [heq] at hsteps
    rcases stepsBegin_of_firm hhead.firm hsteps with ⟨x, hx, haccepts⟩ | ⟨id', hmem, hbegins'⟩
    · exact hhead.opens x hx hp t haccepts ht
    · obtain ⟨q, hq, hrank, hitem⟩ := hhead.lower id' hmem
      exact ih q.rank (hn ▸ hrank) hq (Part.isNext_of_isItem hitem) rfl hbegins'

/-! ## Rules by part -/

section
variable (h : LaidOut g plan) {id : RuleId} {p : Part C}
include h

theorem LaidOut.token_rule {x : Terminal} (hid : plan[id]? = some (.token x)) :
    g.rule? id = some (.plain [.terminal x]) := by
  obtain ⟨body, hbody, hlayout⟩ := h.rules id _ hid
  cases hlayout with
  | choice hne _ => exact absurd rfl hne
  | token _ => exact hbody

theorem LaidOut.choice_rule {q : Part C} (hid : plan[id]? = some p) (hq : q ∈ p.alternatives) :
    ∃ ids, Assigns plan ids p.alternatives ∧ (g.rule? id = some (.plain [.choice ids]) ∨
      g.rule? id = some (.plain [.dispatch ids]) ∧ ∃ children, p = .member children) := by
  obtain ⟨body, hbody, hlayout⟩ := h.rules id _ hid
  cases hlayout with
  | choice _ hids => exact ⟨_, hids, Or.inl hbody⟩
  | dispatch hids => exact ⟨_, hids, Or.inr ⟨hbody, _, rfl⟩⟩
  | _ => cases hq

theorem LaidOut.property_rule (hid : plan[id]? = some .property) :
    ∃ key value, plan[key]? = some .key ∧ plan[value]? = some .generic ∧
      g.rule? id = some (.labeled propertyLabel
        [.rule key, .terminal (.separator ":"), .rule value]) := by
  obtain ⟨body, hbody, hlayout⟩ := h.rules id _ hid
  cases hlayout with
  | choice hne _ => exact absurd rfl hne
  | property hkey hvalue => exact ⟨_, _, hkey, hvalue, hbody⟩

theorem LaidOut.keyed_rule {t : HandlerTree C} (hid : plan[id]? = some (.keyed t)) :
    ∃ value, plan[value]? = some (Part.valueOf t) ∧ g.rule? id = some (.labeled t.name
      [.terminal (.keyword t.name), .terminal (.separator ":"), .rule value]) := by
  obtain ⟨body, hbody, hlayout⟩ := h.rules id _ hid
  cases hlayout with
  | choice hne _ => exact absurd rfl hne
  | keyed hvalue => exact ⟨_, hvalue, hbody⟩

theorem LaidOut.root_rule {t : HandlerTree C} (hid : plan[id]? = some (.root t)) :
    ∃ value, plan[value]? = some (Part.valueOf t) ∧
      g.rule? id = some (.labeled t.name [.rule value]) := by
  obtain ⟨body, hbody, hlayout⟩ := h.rules id _ hid
  cases hlayout with
  | choice hne _ => exact absurd rfl hne
  | root hvalue => exact ⟨_, hvalue, hbody⟩

theorem LaidOut.braces_rule {label? : Option String} {groups : List (String × List String)}
    (hid : plan[id]? = some (.braces label? groups p)) :
    ∃ items, plan[items]? = some (.items p) ∧ g.rule? id = some ⟨label?,
      [.terminal (.separator "\x7b"), .optional items, .terminal (.separator "\x7d")] ++
        groups.map fun group => .gather group.1 group.2⟩ := by
  obtain ⟨body, hbody, hlayout⟩ := h.rules id _ hid
  cases hlayout with
  | choice hne _ => exact absurd rfl hne
  | braces hitems => exact ⟨_, hitems, hbody⟩

theorem LaidOut.brackets_rule {label? : Option String}
    (hid : plan[id]? = some (.brackets label? p)) :
    ∃ items, plan[items]? = some (.items p) ∧ g.rule? id = some ⟨label?,
      [.terminal (.separator "["), .optional items, .terminal (.separator "]")]⟩ := by
  obtain ⟨body, hbody, hlayout⟩ := h.rules id _ hid
  cases hlayout with
  | choice hne _ => exact absurd rfl hne
  | brackets hitems => exact ⟨_, hitems, hbody⟩

theorem LaidOut.items_rule (hid : plan[id]? = some (.items p)) :
    ∃ item next, p.isItem = true ∧ plan[item]? = some p ∧ plan[next]? = some (.next p) ∧
      g.rule? id = some (.plain [.rule item, .many next]) := by
  obtain ⟨body, hbody, hlayout⟩ := h.rules id _ hid
  cases hlayout with
  | choice hne _ => exact absurd rfl hne
  | items hp hitem hnext => exact ⟨_, _, hp, hitem, hnext, hbody⟩

theorem LaidOut.next_rule (hid : plan[id]? = some (.next p)) :
    ∃ item, p.isItem = true ∧ plan[item]? = some p ∧
      g.rule? id = some (.plain [.terminal (.separator ","), .rule item]) := by
  obtain ⟨body, hbody, hlayout⟩ := h.rules id _ hid
  cases hlayout with
  | choice hne _ => exact absurd rfl hne
  | next hp hitem => exact ⟨_, hp, hitem, hbody⟩

theorem LaidOut.no_rest (hid : plan[id]? = some (.rest p)) : False := by
  obtain ⟨body, hbody, hlayout⟩ := h.rules id _ hid
  cases hlayout with
  | choice hne _ => exact absurd rfl hne

theorem LaidOut.no_optional (hid : plan[id]? = some (.optional p)) : False := by
  obtain ⟨body, hbody, hlayout⟩ := h.rules id _ hid
  cases hlayout with
  | choice hne _ => exact absurd rfl hne

end

/-- A rule begins with the first token of every phrase of its part. -/
theorem LaidOut.begins (h : LaidOut g plan) {p : Part C} {ts : List Token} (hp : Phrase p ts) :
    ∀ id, plan[id]? = some p → ∃ t us, ts = t :: us ∧ g.Begins t id := by
  induction hp with
  | token _ ht =>
    intro id hid
    exact ⟨_, [], rfl, Grammar.begins_iff.mpr ⟨_, h.token_rule hid, ht⟩⟩
  | choice hq _ ih =>
    intro id hid
    obtain ⟨ids, hids, hbody⟩ := h.choice_rule hid hq
    obtain ⟨id', hmem, hid'⟩ := hids.id_of_mem hq
    obtain ⟨t, us, rfl, hbegins⟩ := ih id' hid'
    refine ⟨t, us, rfl, Grammar.begins_iff.mpr ?_⟩
    rcases hbody with hbody | ⟨hbody, -⟩
    · exact ⟨_, hbody, id', hmem, hbegins⟩
    · exact ⟨_, hbody, id', hmem, hbegins⟩
  | property _ _ _ ihkey _ =>
    intro id hid
    obtain ⟨key, value, hkey, -, hbody⟩ := h.property_rule hid
    obtain ⟨t, us, rfl, hbegins⟩ := ihkey key hkey
    exact ⟨t, _, rfl, Grammar.begins_iff.mpr ⟨_, hbody, hbegins⟩⟩
  | keyed hk _ _ _ =>
    intro id hid
    obtain ⟨value, -, hbody⟩ := h.keyed_rule hid
    exact ⟨_, _, rfl, Grammar.begins_iff.mpr ⟨_, hbody, hk⟩⟩
  | root _ ih =>
    intro id hid
    obtain ⟨value, hvalue, hbody⟩ := h.root_rule hid
    obtain ⟨t, us, rfl, hbegins⟩ := ih value hvalue
    exact ⟨t, us, rfl, Grammar.begins_iff.mpr ⟨_, hbody, hbegins⟩⟩
  | braces hl _ _ _ =>
    intro id hid
    obtain ⟨items, -, hbody⟩ := h.braces_rule hid
    exact ⟨_, _, rfl, Grammar.begins_iff.mpr ⟨_, hbody, hl⟩⟩
  | brackets hl _ _ _ =>
    intro id hid
    obtain ⟨items, -, hbody⟩ := h.brackets_rule hid
    exact ⟨_, _, rfl, Grammar.begins_iff.mpr ⟨_, hbody, hl⟩⟩
  | items _ _ ih _ =>
    intro id hid
    obtain ⟨item, next, -, hitem, -, hbody⟩ := h.items_rule hid
    obtain ⟨t, us, rfl, hbegins⟩ := ih item hitem
    exact ⟨t, _, rfl, Grammar.begins_iff.mpr ⟨_, hbody, hbegins⟩⟩
  | next hc _ _ =>
    intro id hid
    obtain ⟨item, -, -, hbody⟩ := h.next_rule hid
    exact ⟨_, _, rfl, Grammar.begins_iff.mpr ⟨_, hbody, hc⟩⟩
  | last | further _ _ _ _ => exact fun id hid => (h.no_rest hid).elim
  | absent | present _ _ => exact fun id hid => (h.no_optional hid).elim

theorem LaidOut.begins_next (h : LaidOut g plan) {id : RuleId} {p : Part C} {t : Token}
    (hid : plan[id]? = some (.next p)) :
    g.Begins t id ↔ (Terminal.separator ",").accepts t = true := by
  obtain ⟨item, -, -, hbody⟩ := h.next_rule hid
  rw [Grammar.begins_iff, hbody]
  constructor
  · rintro ⟨body, heq, hsteps⟩
    cases heq
    exact hsteps
  · intro ht
    exact ⟨_, rfl, ht⟩

/-! ## Leading literals -/

theorem LaidOut.leadingLiteral_keyed (h : LaidOut g plan) {id : RuleId} {t : HandlerTree C}
    (hid : plan[id]? = some (.keyed t)) : g.leadingLiteral id = some t.name := by
  obtain ⟨value, -, hbody⟩ := h.keyed_rule hid
  have hlen := Grammar.lt_of_rule? hbody
  obtain ⟨n, hn⟩ : ∃ n, g.rules.length = n + 1 := ⟨g.rules.length - 1, by omega⟩
  rw [Grammar.leadingLiteral, hn, Grammar.leadingLiteralWithin, hbody]
  rfl

theorem LaidOut.leadingLiteral_property (h : LaidOut g plan) {id : RuleId}
    (hid : plan[id]? = some .property) : g.leadingLiteral id = none := by
  obtain ⟨key, value, hkey, -, hbody⟩ := h.property_rule hid
  have hlen := Grammar.lt_of_rule? hbody
  obtain ⟨n, hn⟩ : ∃ n, g.rules.length = n + 1 := ⟨g.rules.length - 1, by omega⟩
  rw [Grammar.leadingLiteral, hn, Grammar.leadingLiteralWithin, hbody]
  change g.leadingLiteralWithin n key = none
  cases n with
  | zero => rfl
  | succ n =>
    have hq : Part.token (C := C) (.token .string) ∈ Part.alternatives .key := List.mem_cons_self ..
    obtain ⟨ids, -, hbody'⟩ := h.choice_rule hkey hq
    rw [Grammar.leadingLiteralWithin]
    rcases hbody' with hbody' | ⟨-, children, hmember⟩
    · rw [hbody']
      rfl
    · cases hmember

/-! ## What rules derive -/

theorem phrase_rest {p : Part C} {uss : List (List Token)} (h : ∀ us ∈ uss, Phrase (.next p) us) :
    Phrase (.rest p) uss.flatten := by
  induction uss with
  | nil => exact .last
  | cons us uss ih =>
    obtain ⟨hus, huss⟩ := List.forall_mem_cons.mp h
    exact .further hus (ih huss)

section
variable {L : RuleId → List Token → Prop}

theorem spells_gathers {groups : List (String × List String)} {ts : List Token}
    (h : Spells L (groups.map fun group => .gather group.1 group.2) ts) : ts = [] := by
  induction groups with
  | nil => exact h
  | cons group groups ih => exact ih h

theorem phrase_optional {p : Part C} {id : RuleId} {steps : List Step} {ts : List Token}
    (hL : ∀ us, L id us → Phrase p us) (h : Spells L (.optional id :: steps) ts) :
    ∃ us vs, ts = us ++ vs ∧ Phrase (.optional p) us ∧ Spells L steps vs := by
  rcases h with h | ⟨us, vs, hts, hus, hvs⟩
  · exact ⟨[], ts, rfl, .absent, h⟩
  · exact ⟨us, vs, hts, .present (hL us hus), hvs⟩

end

theorem LaidOut.closed (h : LaidOut g plan) (id : RuleId) (body : Rule) (ts : List Token)
    (hbody : g.rule? id = some body)
    (hts : Spells (fun id us => ∀ p, plan[id]? = some p → Phrase p us) body.steps ts) :
    ∀ p, plan[id]? = some p → Phrase p ts := by
  intro p hp
  cases h.layout hp hbody with
  | token hx =>
    obtain ⟨t, us, rfl, ht, rfl⟩ := hts
    exact .token hx ht
  | choice _ hids | dispatch hids =>
    obtain ⟨id', hid', us, vs, rfl, hus, rfl⟩ := hts
    obtain ⟨q, hq, hplan⟩ := hids.part_of_mem hid'
    rw [List.append_nil]
    exact .choice hq (hus q hplan)
  | property hkey hvalue =>
    obtain ⟨ks, _, rfl, hks, c, _, rfl, hc, vs, _, rfl, hvs, rfl⟩ := hts
    rw [List.append_nil]
    exact .property (hks _ hkey) hc (hvs _ hvalue)
  | keyed hvalue =>
    obtain ⟨k, _, rfl, hk, c, _, rfl, hc, vs, _, rfl, hvs, rfl⟩ := hts
    rw [List.append_nil]
    exact .keyed hk hc (hvs _ hvalue)
  | root hvalue =>
    obtain ⟨vs, _, rfl, hvs, rfl⟩ := hts
    rw [List.append_nil]
    exact .root (hvs _ hvalue)
  | braces hitems =>
    obtain ⟨l, _, rfl, hl, hts⟩ := hts
    obtain ⟨us, _, rfl, hus, r, _, rfl, hr, hgathers⟩ :=
      phrase_optional (fun us h => h _ hitems) hts
    obtain rfl := spells_gathers hgathers
    exact .braces hl hus hr
  | brackets hitems =>
    obtain ⟨l, _, rfl, hl, hts⟩ := hts
    obtain ⟨us, _, rfl, hus, r, _, rfl, hr, rfl⟩ := phrase_optional (fun us h => h _ hitems) hts
    exact .brackets hl hus hr
  | items _ hitem hnext =>
    obtain ⟨us, _, rfl, hus, uss, _, rfl, huss, rfl⟩ := hts
    rw [List.append_nil]
    exact .items (hus _ hitem) (phrase_rest fun us hmem => huss us hmem _ hnext)
  | next _ hitem =>
    obtain ⟨c, _, rfl, hc, us, _, rfl, hus, rfl⟩ := hts
    rw [List.append_nil]
    exact .next hc (hus _ hitem)

theorem LaidOut.phrase (h : LaidOut g plan) {toks : Nat → Token} {id : RuleId} {p : Part C}
    (hid : plan[id]? = some p) {d : Derivation} {a b : Nat}
    (hd : Derives g toks [.rule id] [d] a b) : Phrase p d.tokens := by
  obtain ⟨us, vs, htokens, hus, rfl⟩ := hd.spells h.closed
  have heq : d.tokens = us := by
    rw [List.append_nil] at htokens
    exact (List.append_nil _).symm.trans htokens
  exact heq ▸ hus p hid

end
end HandlerGrammar
