import HandlerGrammar.Proofs.Arena.Calls
import HandlerGrammar.Proofs.Document.Layout

/-! # Drafted grammars are laid out by parts

Drafting enters rules one by one, declares the generic rules before their bodies are there and keeps
the rules that are shared. With each rule its part enters the plan, so that at any time the rules
with a body are laid out by the plan so far; once no declared rule is without a body the arena
closes.

* `Extends`, `Layout.extend`: a plan may grow;
* `Drafted`: what holds of a draft and its plan, the declared rules without a body apart;
* `Draft.undeclared`: how many of the rules that are declared first are still to be declared;
* `Drafts`, `Gives`: what drafting gives from a plan on, composed by `drafts_bind`, `gives_bind`;
* `drafts_generic`: the generic rules at a sufficient depth, whichever is drafted first;
* `drafts_scalar`, `drafts_container`, `drafts_value`, `drafts_alternatives`, `drafts_entry`: one fact
  for each function;
* `grammar_laidOut`: every forest with a root has a grammar, laid out by a plan. -/
namespace HandlerGrammar
set_option autoImplicit false

variable {C α β : Type}

/-! ## Plans that grow -/

/-- The second plan keeps the parts of the first. -/
def Extends (plan plan' : List (Part C)) : Prop :=
  ∀ (id : Nat) (p : Part C), plan[id]? = some p → plan'[id]? = some p

theorem Extends.refl (plan : List (Part C)) : Extends plan plan := fun _ _ h => h

theorem Extends.trans {plan plan' plan'' : List (Part C)} (h : Extends plan plan')
    (h' : Extends plan' plan'') : Extends plan plan'' := fun id p hid => h' id p (h id p hid)

theorem extends_append (plan : List (Part C)) (p : Part C) : Extends plan (plan ++ [p]) := by
  intro id q hid
  have hlt : id < plan.length := (List.getElem?_eq_some_iff.mp hid).1
  rw [List.getElem?_append_left hlt]
  exact hid

theorem Assigns.extend {plan plan' : List (Part C)} (h : Extends plan plan') {ids : List RuleId}
    {parts : List (Part C)} (hids : Assigns plan ids parts) : Assigns plan' ids parts := by
  induction ids generalizing parts with
  | nil => exact hids
  | cons id ids ih =>
    cases parts with
    | nil => cases hids
    | cons p parts =>
      obtain ⟨hid, hrest⟩ := assigns_cons.mp hids
      exact assigns_cons.mpr ⟨h id p hid, ih hrest⟩

theorem Layout.extend {plan plan' : List (Part C)} (h : Extends plan plan') {p : Part C}
    {body : Rule} (hbody : Layout plan p body) : Layout plan' p body := by
  cases hbody with
  | token hx => exact .token hx
  | choice hne hids => exact .choice hne (hids.extend h)
  | dispatch hids => exact .dispatch (hids.extend h)
  | property hkey hvalue => exact .property (h _ _ hkey) (h _ _ hvalue)
  | keyed hvalue => exact .keyed (h _ _ hvalue)
  | root hvalue => exact .root (h _ _ hvalue)
  | braces hitems => exact .braces (h _ _ hitems)
  | brackets hitems => exact .brackets (h _ _ hitems)
  | items hp hitem hnext => exact .items hp (h _ _ hitem) (h _ _ hnext)
  | next hp hitem => exact .next hp (h _ _ hitem)

/-! ## Drafts -/

/-- The rules of the draft that have a body are laid out by the plan, those in `opens` are without
one, and the rules kept for sharing describe what they are kept for. -/
structure Drafted (plan : List (Part C)) (opens : List RuleId) (d : Draft) : Prop where
  length : plan.length = d.arena.slots.length
  rules : ∀ (id : Nat) (p : Part C) (slot : Slot) (body : Rule), plan[id]? = some p →
    d.arena.slots[id]? = some slot → slot.rule? = some body → Layout plan p body
  open_iff : ∀ id : Nat, id ∈ opens ↔ ∃ slot, d.arena.slots[id]? = some slot ∧ slot.rule? = none
  nodup : opens.Nodup
  scalar : ∀ id, d.scalar? = some id → plan[id]? = some .scalar
  value : ∀ id, d.value? = some id → plan[id]? = some .generic
  members : ∀ id, d.members? = some id → plan[id]? = some (.items .property)
  property : ∀ id, d.property? = some id → plan[id]? = some .property

/-- How many of the two rules that are declared first are not declared yet. -/
def Draft.undeclared (d : Draft) : Nat :=
  (if d.value? = none then 1 else 0) + (if d.members? = none then 1 else 0)

theorem Draft.undeclared_le (d : Draft) : d.undeclared ≤ 2 := by
  unfold undeclared
  split <;> split <;> omega

/-- From a draft with its plan, drafting succeeds and grows the plan; `Q` says of the new plan, of
the rules without a body then and of the result what holds. -/
def DraftsFrom (d : Draft) (plan : List (Part C)) (m : Drafting α)
    (Q : List (Part C) → List RuleId → α → Prop) : Prop :=
  ∃ a d' plan' opens', m d = .ok a d' ∧ Drafted plan' opens' d' ∧ Extends plan plan' ∧
    d'.undeclared ≤ d.undeclared ∧ Q plan' opens' a

/-- Drafting succeeds from each draft with the plan and the rules without a body in which at most
`n` rules are undeclared. -/
def Drafts (n : Nat) (plan : List (Part C)) (opens : List RuleId) (m : Drafting α)
    (Q : List (Part C) → List RuleId → α → Prop) : Prop :=
  ∀ d, Drafted plan opens d → d.undeclared ≤ n → DraftsFrom d plan m Q

section
variable {n : Nat} {plan : List (Part C)} {opens : List RuleId}
  {Q : List (Part C) → List RuleId → α → Prop}

theorem drafts_pure {a : α} (h : Q plan opens a) : Drafts n plan opens (pure a) Q :=
  fun d hd _ => ⟨a, d, plan, opens, rfl, hd, .refl plan, Nat.le_refl _, h⟩

theorem draftsFrom_bind {d d' : Draft} {plan' : List (Part C)} {m : Drafting α} {f : α → Drafting β}
    {a : α} {Q' : List (Part C) → List RuleId → β → Prop} (hrun : m d = .ok a d')
    (hext : Extends plan plan') (hle : d'.undeclared ≤ d.undeclared)
    (hf : DraftsFrom d' plan' (f a) Q') : DraftsFrom d plan (m >>= f) Q' := by
  obtain ⟨b, d'', plan'', opens'', hrun', hd'', hext', hle', hQ'⟩ := hf
  refine ⟨b, d'', plan'', opens'', ?_, hd'', hext.trans hext', Nat.le_trans hle' hle, hQ'⟩
  change EStateM.bind m f d = _
  unfold EStateM.bind
  rw [hrun]
  exact hrun'

theorem drafts_bind {m : Drafting α} {f : α → Drafting β}
    {Q' : List (Part C) → List RuleId → β → Prop} (hm : Drafts n plan opens m Q)
    (hf : ∀ plan' opens' a, Extends plan plan' → Q plan' opens' a → Drafts n plan' opens' (f a) Q') :
    Drafts n plan opens (m >>= f) Q' := by
  intro d hd hn
  obtain ⟨a, d', plan', opens', hrun, hd', hext, hle, hQ⟩ := hm d hd hn
  exact draftsFrom_bind hrun hext hle (hf plan' opens' a hext hQ d' hd' (Nat.le_trans hle hn))

theorem Drafts.result {m : Drafting α} {Q' : List (Part C) → List RuleId → α → Prop}
    (hm : Drafts n plan opens m Q) (h : ∀ plan' opens' a, Q plan' opens' a → Q' plan' opens' a) :
    Drafts n plan opens m Q' := by
  intro d hd hn
  obtain ⟨a, d', plan', opens', hrun, hd', hext, hle, hQ⟩ := hm d hd hn
  exact ⟨a, d', plan', opens', hrun, hd', hext, hle, h plan' opens' a hQ⟩

theorem drafts_get {f : Draft → Drafting α}
    (h : ∀ d, Drafted plan opens d → d.undeclared ≤ n → DraftsFrom d plan (f d) Q) :
    Drafts n plan opens (get >>= f) Q := fun d hd hn => h d hd hn

/-- Drafting leaves the rules without a body as they are; `R` says of the new plan and of the
result what holds. -/
def Gives (n : Nat) (plan : List (Part C)) (opens : List RuleId) (m : Drafting α)
    (R : List (Part C) → α → Prop) : Prop :=
  Drafts n plan opens m (fun plan' opens' a => opens' = opens ∧ R plan' a)

theorem gives_bind {m : Drafting α} {f : α → Drafting β} {R : List (Part C) → α → Prop}
    {Q' : List (Part C) → List RuleId → β → Prop} (hm : Gives n plan opens m R)
    (hf : ∀ plan' a, Extends plan plan' → R plan' a → Drafts n plan' opens (f a) Q') :
    Drafts n plan opens (m >>= f) Q' := by
  refine drafts_bind hm fun plan' opens' a hext h => ?_
  obtain ⟨rfl, hR⟩ := h
  exact hf plan' a hext hR

end

/-! ## Entering rules -/

section
variable {plan : List (Part C)} {opens : List RuleId} {d : Draft}

theorem Drafted.lt_of_open (hd : Drafted plan opens d) {id : Nat} (hid : id ∈ opens) :
    id < d.arena.slots.length := by
  obtain ⟨slot, hslot, -⟩ := (hd.open_iff id).mp hid
  exact (List.getElem?_eq_some_iff.mp hslot).1

/-- A new slot at the end of the arena, with a body or without. -/
theorem Drafted.append (hd : Drafted plan opens d) (p : Part C) (slot : Slot) (opens' : List RuleId)
    (hslot : ∀ body, slot.rule? = some body → Layout (plan ++ [p]) p body)
    (hopens : ∀ id : Nat, id ∈ opens' ↔
      id ∈ opens ∨ id = d.arena.slots.length ∧ slot.rule? = none)
    (hnodup : opens'.Nodup) :
    Drafted (plan ++ [p]) opens' { d with arena := ⟨d.arena.slots ++ [slot]⟩ } := by
  have hext := extends_append plan p
  have hlen := hd.length
  refine ⟨by simp [hlen], ?_, ?_, hnodup, fun id hid => hext _ _ (hd.scalar id hid),
    fun id hid => hext _ _ (hd.value id hid), fun id hid => hext _ _ (hd.members id hid),
    fun id hid => hext _ _ (hd.property id hid)⟩
  · intro id q slot' body hq hs hbody
    by_cases hlt : id < d.arena.slots.length
    · rw [List.getElem?_append_left hlt] at hs
      rw [List.getElem?_append_left (hlen ▸ hlt)] at hq
      exact (hd.rules id q slot' body hq hs hbody).extend hext
    · have hid : id = d.arena.slots.length := by
        have h := (List.getElem?_eq_some_iff.mp hs).1
        simp only [List.length_append, List.length_singleton] at h
        omega
      subst hid
      rw [List.getElem?_concat_length] at hs
      rw [← hlen, List.getElem?_concat_length] at hq
      cases hs
      cases hq
      exact hslot body hbody
  · intro id
    rw [hopens, hd.open_iff]
    by_cases hlt : id < d.arena.slots.length
    · have hne : id ≠ d.arena.slots.length := by omega
      simp [List.getElem?_append_left hlt, hne]
    · have hnone : d.arena.slots[id]? = none := List.getElem?_eq_none (by omega)
      by_cases hid : id = d.arena.slots.length
      · subst hid
        simp
      · have hnone' : (d.arena.slots ++ [slot])[id]? = none :=
          List.getElem?_eq_none (by simp only [List.length_append, List.length_singleton]; omega)
        simp [hnone, hnone', hid]

theorem Drafted.set (hd : Drafted plan opens d) {p : Part C} {id : Nat} (name : String) {rule : Rule}
    {rest : List RuleId} (hopens : opens = id :: rest) (hid : plan[id]? = some p)
    (hrule : Layout plan p rule) :
    Drafted plan rest { d with arena := ⟨d.arena.slots.set id ⟨name, some rule⟩⟩ } := by
  have hlt : id < d.arena.slots.length := hd.lt_of_open (by simp [hopens])
  have hnodup := List.nodup_cons.mp (hopens ▸ hd.nodup)
  refine ⟨by simp [hd.length], ?_, ?_, hnodup.2, hd.scalar, hd.value, hd.members, hd.property⟩
  · intro j q slot body hq hs hbody
    by_cases hj : j = id
    · subst hj
      rw [List.getElem?_set_self hlt] at hs
      cases hs
      cases hbody
      obtain rfl : p = q := Option.some.inj (hid.symm.trans hq)
      exact hrule
    · rw [List.getElem?_set_ne (Ne.symm hj)] at hs
      exact hd.rules j q slot body hq hs hbody
  · intro j
    have hj' := hd.open_iff j
    rw [hopens, List.mem_cons] at hj'
    by_cases hj : j = id
    · subst hj
      simp [List.getElem?_set_self hlt, hnodup.1]
    · rw [List.getElem?_set_ne (Ne.symm hj), ← hj']
      simp [hj]

/-- A declared rule for the part, with its body still to come. -/
theorem Drafted.declare (hd : Drafted plan opens d) (p : Part C) (name : String) :
    Drafted (plan ++ [p]) (d.arena.slots.length :: opens)
      { d with arena := ⟨d.arena.slots ++ [⟨name, none⟩]⟩ } := by
  have hfresh : d.arena.slots.length ∉ opens := fun hmem => Nat.lt_irrefl _ (hd.lt_of_open hmem)
  exact hd.append p ⟨name, none⟩ (d.arena.slots.length :: opens)
    (fun body hbody => by cases hbody) (fun id => by simp [or_comm])
    (List.nodup_cons.mpr ⟨hfresh, hd.nodup⟩)

theorem Drafted.getElem?_append (hd : Drafted plan opens d) (p : Part C) :
    (plan ++ [p])[d.arena.slots.length]? = some p := by
  rw [← hd.length]
  exact List.getElem?_concat_length

theorem Drafted.keepScalar (hd : Drafted plan opens d) {id : RuleId}
    (hid : plan[id]? = some .scalar) : Drafted plan opens { d with scalar? := some id } :=
  { hd with scalar := fun _ h => Option.some.inj h ▸ hid }

theorem Drafted.keepValue (hd : Drafted plan opens d) {id : RuleId}
    (hid : plan[id]? = some .generic) : Drafted plan opens { d with value? := some id } :=
  { hd with value := fun _ h => Option.some.inj h ▸ hid }

theorem Drafted.keepMembers (hd : Drafted plan opens d) {id : RuleId}
    (hid : plan[id]? = some (.items .property)) : Drafted plan opens { d with members? := some id } :=
  { hd with members := fun _ h => Option.some.inj h ▸ hid }

theorem Drafted.keepProperty (hd : Drafted plan opens d) {id : RuleId}
    (hid : plan[id]? = some .property) : Drafted plan opens { d with property? := some id } :=
  { hd with property := fun _ h => Option.some.inj h ▸ hid }

end

namespace Draft

section
variable {n : Nat} {plan : List (Part C)} {opens : List RuleId} {p : Part C}

/-- Drafting gives a rule for the part. -/
def DraftsPart (n : Nat) (plan : List (Part C)) (opens : List RuleId) (m : Drafting RuleId)
    (p : Part C) : Prop :=
  Gives n plan opens m (fun plan' id => plan'[id]? = some p)

theorem drafts_add {rule : Rule} (h : Layout plan p rule) : DraftsPart n plan opens (add rule) p := by
  intro d hd hn
  have hext := extends_append plan p
  have hdrafted := hd.append p
    ⟨rule.label?.getD ("rule#" ++ toString d.arena.slots.length), some rule⟩ opens
    (fun body hbody => by cases hbody; exact h.extend hext) (fun id => by simp) hd.nodup
  exact ⟨_, _, plan ++ [p], opens, rfl, hdrafted, hext, Nat.le_refl _, rfl, hd.getElem?_append p⟩

theorem drafts_define {id : RuleId} {rule : Rule} {rest : List RuleId} (hopens : opens = id :: rest)
    (hid : plan[id]? = some p) (hrule : Layout plan p rule) :
    Drafts n plan opens (define id rule)
      (fun plan' opens' _ => plan' = plan ∧ opens' = rest) := by
  intro d hd hn
  obtain ⟨⟨name, rule?⟩, hslot, hnone⟩ := (hd.open_iff id).mp (by simp [hopens])
  obtain rfl : rule? = none := hnone
  refine ⟨(), _, plan, rest, ?_, hd.set name hopens hid hrule, .refl plan, Nat.le_refl _, rfl, rfl⟩
  simp [define, Arena.define, hslot]

/-! ## Shared rules -/

theorem drafts_list {item : RuleId} (hp : p.isItem = true) (hitem : plan[item]? = some p) :
    DraftsPart n plan opens (list item) (.items p) := by
  refine gives_bind (drafts_add (.next hp hitem)) fun plan₁ rest h₁ hrest => ?_
  exact drafts_add (.items hp (h₁ _ _ hitem) hrest)

theorem drafts_scalar : DraftsPart n plan opens scalar .scalar := by
  refine drafts_get fun d hd hn => ?_
  cases hscalar : d.scalar? with
  | some id => exact drafts_pure ⟨rfl, hd.scalar id hscalar⟩ d hd hn
  | none =>
    refine gives_bind (drafts_add (.token rfl)) (fun plan₁ number h₁ hnumber => ?_) d hd hn
    refine gives_bind (drafts_add (.token rfl)) fun plan₂ string h₂ hstring => ?_
    refine gives_bind (drafts_add (.token rfl)) fun plan₃ bool h₃ hbool => ?_
    refine gives_bind (drafts_add (.token rfl)) fun plan₄ null h₄ hnull => ?_
    have hids : Assigns plan₄ [number, string, bool, null] Part.scalar.alternatives := by
      have h₂₄ := h₃.trans h₄
      simp only [Part.alternatives, assigns_cons, assigns_nil, and_true]
      exact ⟨h₂.trans h₂₄ _ _ hnumber, h₂₄ _ _ hstring, h₄ _ _ hbool, hnull⟩
    refine gives_bind (drafts_add (.choice (by simp [Part.alternatives]) hids))
      fun plan₅ id h₅ hid => ?_
    intro d hd hn
    exact ⟨id, { d with scalar? := some id }, plan₅, opens, rfl, hd.keepScalar hid, .refl plan₅,
      Nat.le_refl _, rfl, hid⟩

theorem drafts_defineValue {value members scalar : RuleId} {rest : List RuleId}
    (hopens : opens = value :: rest) (hvalue : plan[value]? = some .generic)
    (hmembers : plan[members]? = some (.items .property)) (hscalar : plan[scalar]? = some .scalar) :
    Drafts n plan opens (defineValue value members scalar) (fun _ opens' _ => opens' = rest) := by
  have hobject : Layout plan Part.object (.labeled objectLabel
      [.separator "\x7b", .optional members, .separator "\x7d"]) := .braces hmembers
  refine gives_bind (drafts_add hobject) fun plan₁ object h₁ hobject => ?_
  refine gives_bind (drafts_list rfl (h₁ _ _ hvalue)) fun plan₂ elements h₂ helements => ?_
  have harray : Layout plan₂ Part.array (.labeled arrayLabel
      [.separator "[", .optional elements, .separator "]"]) := .brackets helements
  refine gives_bind (drafts_add harray) fun plan₃ array h₃ harray => ?_
  subst hopens
  have h₂₃ := h₂.trans h₃
  have h₁₃ := h₁.trans h₂₃
  have hids : Assigns plan₃ [object, array, scalar] Part.generic.alternatives := by
    simp only [Part.alternatives, assigns_cons, assigns_nil, and_true]
    exact ⟨h₂₃ _ _ hobject, harray, h₁₃ _ _ hscalar⟩
  exact (drafts_define rfl (h₁₃ _ _ hvalue) (.choice (by simp [Part.alternatives]) hids)).result
    fun _ _ _ => And.right

theorem drafts_addProperty {value : RuleId} (hvalue : plan[value]? = some .generic) :
    DraftsPart n plan opens (addProperty value) .property := by
  refine gives_bind (drafts_add (.token rfl)) fun plan₁ string h₁ hstring => ?_
  refine gives_bind (drafts_add (.token rfl)) fun plan₂ identifier h₂ hidentifier => ?_
  refine gives_bind (drafts_add (.token rfl)) fun plan₃ reserved h₃ hreserved => ?_
  have hids : Assigns plan₃ [string, identifier, reserved] Part.key.alternatives := by
    simp only [Part.alternatives, assigns_cons, assigns_nil, and_true]
    exact ⟨h₂.trans h₃ _ _ hstring, h₃ _ _ hidentifier, hreserved⟩
  refine gives_bind (drafts_add (.choice (by simp [Part.alternatives]) hids))
    fun plan₄ key h₄ hkey => ?_
  exact drafts_add (.property hkey ((h₁.trans h₂).trans (h₃.trans h₄) _ _ hvalue))

theorem drafts_defineMembers {members property : RuleId} {rest : List RuleId}
    (hopens : opens = members :: rest) (hmembers : plan[members]? = some (.items .property))
    (hproperty : plan[property]? = some .property) :
    Drafts n plan opens (defineMembers members property) (fun _ opens' _ => opens' = rest) := by
  refine gives_bind (drafts_add (.next rfl hproperty)) fun plan₁ next h₁ hnext => ?_
  subst hopens
  exact (drafts_define rfl (h₁ _ _ hmembers) (.items rfl (h₁ _ _ hproperty) hnext)).result
    fun _ _ _ => And.right

/-! ## Generic rules -/

theorem draftsFrom_declareValue {d : Draft} (hd : Drafted plan opens d) (hnone : d.value? = none)
    (hn : d.undeclared ≤ n + 1) {f : RuleId → Drafting α} {Q : List (Part C) → List RuleId → α → Prop}
    (hf : ∀ (plan' : List (Part C)) (id : RuleId), Extends plan plan' → plan'[id]? = some .generic →
      Drafts n plan' (id :: opens) (f id) Q) :
    DraftsFrom d plan (declareValue >>= f) Q := by
  have hnew := hd.getElem?_append .generic
  have hext := extends_append plan Part.generic
  have hrun : declareValue d = .ok d.arena.slots.length { d with
      arena := ⟨d.arena.slots ++ [⟨"@value", none⟩]⟩
      value? := some d.arena.slots.length } := rfl
  have hless : Draft.undeclared { d with
      arena := ⟨d.arena.slots ++ [⟨"@value", none⟩]⟩
      value? := some d.arena.slots.length } + 1 = d.undeclared := by
    simp [undeclared, hnone, Nat.add_comm]
  refine draftsFrom_bind hrun hext (by omega) ?_
  exact hf _ _ hext hnew _ ((hd.declare .generic "@value").keepValue hnew) (by omega)

theorem draftsFrom_declareMembers {d : Draft} (hd : Drafted plan opens d)
    (hnone : d.members? = none) (hn : d.undeclared ≤ n + 1) {f : RuleId → Drafting α}
    {Q : List (Part C) → List RuleId → α → Prop}
    (hf : ∀ (plan' : List (Part C)) (id : RuleId), Extends plan plan' →
      plan'[id]? = some (.items .property) → Drafts n plan' (id :: opens) (f id) Q) :
    DraftsFrom d plan (declareMembers >>= f) Q := by
  have hnew := hd.getElem?_append (.items .property)
  have hext := extends_append plan (.items .property)
  have hrun : declareMembers d = .ok d.arena.slots.length { d with
      arena := ⟨d.arena.slots ++ [⟨"@members", none⟩]⟩
      members? := some d.arena.slots.length } := rfl
  have hless : Draft.undeclared { d with
      arena := ⟨d.arena.slots ++ [⟨"@members", none⟩]⟩
      members? := some d.arena.slots.length } + 1 = d.undeclared := by
    simp [undeclared, hnone]
  refine draftsFrom_bind hrun hext (by omega) ?_
  exact hf _ _ hext hnew _ ((hd.declare (.items .property) "@members").keepMembers hnew) (by omega)

/-- Whichever of the generic rules is drafted, with whichever of them kept already, each that is
declared on the way gets its body. The rules nested in a declared one have one less to declare. -/
theorem drafts_generic (depth n : Nat) (plan : List (Part C)) (opens : List RuleId) :
    (2 * n + 1 ≤ depth → DraftsPart n plan opens (value depth) .generic) ∧
    (2 * n + 2 ≤ depth → DraftsPart n plan opens (property depth) .property) ∧
    (2 * n + 1 ≤ depth → DraftsPart n plan opens (members depth) (.items .property)) := by
  induction depth generalizing n plan opens with
  | zero => refine ⟨?_, ?_, ?_⟩ <;> intro hdepth <;> omega
  | succ depth ih =>
    refine ⟨fun hdepth => ?_, fun hdepth => ?_, fun hdepth => ?_⟩
    · refine drafts_get fun d hd hn => ?_
      cases hvalue : d.value? with
      | some id => exact drafts_pure ⟨rfl, hd.value id hvalue⟩ d hd hn
      | none =>
        have hpos : 1 ≤ d.undeclared := by simp [undeclared, hvalue]
        obtain ⟨k, rfl⟩ : ∃ k, n = k + 1 := ⟨n - 1, by omega⟩
        refine draftsFrom_declareValue hd hvalue hn fun plan₁ value h₁ hvalue => ?_
        refine gives_bind drafts_scalar fun plan₂ scalar h₂ hscalar => ?_
        refine gives_bind ((ih k plan₂ _).2.2 (by omega)) fun plan₃ members h₃ hmembers => ?_
        have hvalue₃ := h₂.trans h₃ _ _ hvalue
        refine drafts_bind (drafts_defineValue rfl hvalue₃ hmembers (h₃ _ _ hscalar))
          fun plan₄ opens₄ _ h₄ hopens => ?_
        exact drafts_pure ⟨hopens, h₄ _ _ hvalue₃⟩
    · refine drafts_get fun d hd hn => ?_
      cases hproperty : d.property? with
      | some id => exact drafts_pure ⟨rfl, hd.property id hproperty⟩ d hd hn
      | none =>
        refine gives_bind ((ih n plan opens).1 (by omega)) (fun plan₁ value h₁ hvalue => ?_) d hd hn
        -- the value may have come with its property
        refine drafts_get fun d hd hn => ?_
        cases hproperty : d.property? with
        | some id => exact drafts_pure ⟨rfl, hd.property id hproperty⟩ d hd hn
        | none =>
          refine gives_bind (drafts_addProperty hvalue) (fun plan₂ property h₂ hproperty => ?_) d hd hn
          intro d hd hn
          exact ⟨property, { d with property? := some property }, plan₂, opens, rfl,
            hd.keepProperty hproperty, .refl plan₂, Nat.le_refl _, rfl, hproperty⟩
    · refine drafts_get fun d hd hn => ?_
      cases hmembers : d.members? with
      | some id => exact drafts_pure ⟨rfl, hd.members id hmembers⟩ d hd hn
      | none =>
        have hpos : 1 ≤ d.undeclared := by simp [undeclared, hmembers]
        obtain ⟨k, rfl⟩ : ∃ k, n = k + 1 := ⟨n - 1, by omega⟩
        refine draftsFrom_declareMembers hd hmembers hn fun plan₁ members h₁ hmembers => ?_
        refine gives_bind ((ih k plan₁ _).2.1 (by omega)) fun plan₂ property h₂ hproperty => ?_
        have hmembers₂ := h₂ _ _ hmembers
        refine drafts_bind (drafts_defineMembers rfl hmembers₂ hproperty)
          fun plan₃ opens₃ _ h₃ hopens => ?_
        exact drafts_pure ⟨hopens, h₃ _ _ hmembers₂⟩

/-- No more than two rules are ever undeclared. -/
theorem Drafts.of_two {m : Drafting α} {Q : List (Part C) → List RuleId → α → Prop}
    (h : Drafts 2 plan opens m Q) : Drafts n plan opens m Q :=
  fun d hd _ => h d hd d.undeclared_le

theorem drafts_genericValue : DraftsPart n plan opens (value genericDepth) .generic :=
  Drafts.of_two ((drafts_generic genericDepth 2 plan opens).1 (by decide))

theorem drafts_genericProperty : DraftsPart n plan opens (property genericDepth) .property :=
  Drafts.of_two ((drafts_generic genericDepth 2 plan opens).2.1 (by decide))

theorem drafts_genericMembers : DraftsPart n plan opens (members genericDepth) (.items .property) :=
  Drafts.of_two ((drafts_generic genericDepth 2 plan opens).2.2 (by decide))

end
end Draft

/-! ## Handlers -/

theorem Part.offered_ne_nil (t : HandlerTree C) : Part.offered t ≠ [] := by
  match t with
  | .node h [] => simp [Part.offered]; split <;> simp
  | .node h (c :: cs) =>
    have hc := Part.offered_ne_nil c
    unfold Part.offered
    split
    · simp [Part.offers, hc]
    · simp

namespace HandlerTree

variable {n : Nat} {plan : List (Part C)} {opens : List RuleId}

/-- Drafting gives rules for the parts, in order. -/
def DraftsParts (n : Nat) (plan : List (Part C)) (opens : List RuleId)
    (m : Drafting (List RuleId)) (parts : List (Part C)) : Prop :=
  Gives n plan opens m (fun plan' ids => Assigns plan' ids parts)

theorem drafts_container {children : List (HandlerTree C)} {members : Drafting (List RuleId)}
    (hmembers : DraftsParts n plan opens members (Part.offers children)) :
    Draft.DraftsPart n plan opens (container children members) (Part.container children) := by
  refine gives_bind hmembers fun plan₁ ids h₁ hids => ?_
  cases children with
  | nil =>
    obtain rfl : ids = [] := by simpa [Assigns, Part.offers] using hids
    refine gives_bind Draft.drafts_genericMembers fun plan₂ members h₂ hmembers => ?_
    exact Draft.drafts_add (.braces hmembers)
  | cons t ts =>
    cases ids with
    | nil =>
      have hne := Part.offered_ne_nil t
      simp [Part.offers, hne] at hids
    | cons id ids =>
      refine gives_bind (Draft.drafts_add (.dispatch hids))
        fun plan₂ member h₂ hmember => ?_
      refine gives_bind (Draft.drafts_list rfl hmember)
        fun plan₃ items h₃ hitems => ?_
      exact Draft.drafts_add (.braces hitems)

theorem drafts_brackets {p : Part C} {element : RuleId} (hp : p.isItem = true)
    (helement : plan[element]? = some p) :
    Draft.DraftsPart n plan opens
      (do
        let elements ← Draft.list element
        Draft.add (.plain [.separator "[", .optional elements, .separator "]"]))
      (.brackets none p) := by
  refine gives_bind (Draft.drafts_list hp helement) fun plan₁ elements h₁ helements => ?_
  exact Draft.drafts_add (.brackets helements)

theorem drafts_value (t : HandlerTree C) {members : Drafting (List RuleId)}
    (hmembers : DraftsParts n plan opens members (Part.offers t.children)) :
    Draft.DraftsPart n plan opens (value t.handler.mode t.children members) (Part.valueOf t) := by
  unfold value Part.valueOf
  cases t.handler.mode with
  | primary => exact Draft.drafts_scalar
  | wrapper => exact drafts_container hmembers
  | object => exact drafts_container hmembers
  | array =>
    cases hchildren : t.children.isEmpty with
    | true =>
      refine gives_bind Draft.drafts_genericValue fun plan₁ value h₁ hvalue => ?_
      exact drafts_brackets rfl hvalue
    | false =>
      refine gives_bind (drafts_container hmembers) fun plan₁ element h₁ helement => ?_
      exact drafts_brackets rfl helement

mutual
theorem drafts_alternatives (plan : List (Part C)) (opens : List RuleId)
    (children : List (HandlerTree C)) :
    DraftsParts n plan opens (alternatives children) (Part.offers children) := by
  match children with
  | [] => exact drafts_pure ⟨rfl, rfl⟩
  | t :: ts =>
    refine gives_bind (drafts_offered plan opens t) fun plan₁ first h₁ hfirst => ?_
    refine gives_bind (drafts_alternatives plan₁ _ ts) fun plan₂ others h₂ hothers => ?_
    refine drafts_pure ⟨rfl, ?_⟩
    have hfirst' := hfirst.extend h₂
    simp only [Assigns, Part.offers, List.map_append] at hfirst' hothers ⊢
    rw [hfirst', hothers]

theorem drafts_offered (plan : List (Part C)) (opens : List RuleId) (t : HandlerTree C) :
    DraftsParts n plan opens (offered t) (Part.offered t) := by
  match t with
  | .node h children =>
    unfold offered Part.offered
    split
    · split
      · refine gives_bind Draft.drafts_genericProperty fun plan₁ property h₁ hproperty => ?_
        exact drafts_pure ⟨rfl, by simp [hproperty]⟩
      · exact drafts_alternatives plan opens children
    · refine gives_bind (drafts_value (.node h children) (drafts_alternatives plan opens children))
        fun plan₁ value h₁ hvalue => ?_
      have hkeyed : Layout plan₁ (.keyed (.node h children)) (.labeled h.name
          [.keyword h.name, .separator ":", .rule value]) := .keyed hvalue
      refine gives_bind (Draft.drafts_add hkeyed) fun plan₂ member h₂ hmember => ?_
      exact drafts_pure ⟨rfl, by simp [hmember]⟩
end

theorem drafts_root (plan : List (Part C)) (opens : List RuleId) (t : HandlerTree C) :
    Draft.DraftsPart n plan opens (root t) (.root t) := by
  obtain ⟨h, children⟩ := t
  refine gives_bind (drafts_value (.node h children) (drafts_alternatives plan opens children))
    fun plan₁ value h₁ hvalue => ?_
  have hroot : Layout plan₁ (.root (.node h children)) (.labeled h.name [.rule value]) := .root hvalue
  exact Draft.drafts_add hroot

/-- What a forest's documents are: of its only root, or of any of several. -/
def entryPart : List (HandlerTree C) → Part C
  | [t] => .root t
  | roots => .document roots

theorem drafts_roots (plan : List (Part C)) (opens : List RuleId) (roots : List (HandlerTree C)) :
    DraftsParts n plan opens (roots.mapM root) (roots.map .root) := by
  induction roots generalizing plan opens with
  | nil => exact drafts_pure ⟨rfl, rfl⟩
  | cons t ts ih =>
    rw [List.mapM_cons]
    refine gives_bind (drafts_root plan opens t) fun plan₁ id h₁ hid => ?_
    refine gives_bind (ih plan₁ _) fun plan₂ ids h₂ hids => ?_
    exact drafts_pure ⟨rfl, assigns_cons.mpr ⟨h₂ _ _ hid, hids⟩⟩

theorem drafts_entry {roots : List (HandlerTree C)} (hroots : roots ≠ []) :
    Draft.DraftsPart n plan opens (entry roots) (entryPart roots) := by
  refine gives_bind (drafts_roots plan opens roots) fun plan₁ ids h₁ hids => ?_
  match roots, ids with
  | [], _ => exact absurd rfl hroots
  | t :: ts, [] => simp at hids
  | [t], [id] =>
    obtain ⟨hid, -⟩ := assigns_cons.mp hids
    exact drafts_pure ⟨rfl, hid⟩
  | t :: t' :: ts, [id] => simp at hids
  | [t], id :: id' :: ids => simp [Assigns] at hids
  | t :: t' :: ts, id :: id' :: ids =>
    exact Draft.drafts_add (.choice (by simp [entryPart, Part.alternatives]) hids)

end HandlerTree

/-! ## Closing the arena -/

/-- An arena laid out by a plan, with no rule left without a body, closes to a grammar. -/
theorem Drafted.build {plan : List (Part C)} {d : Draft} (hd : Drafted plan [] d) {entry : RuleId}
    {p : Part C} (hentry : plan[entry]? = some p) :
    ∃ g, d.arena.build entry = .ok g ∧ g.entry = entry ∧ LaidOut g plan := by
  have hbody : ∀ slot ∈ d.arena.slots, slot.rule? ≠ none := by
    intro slot hmem hnone
    obtain ⟨id, hlt, hslot⟩ := List.mem_iff_getElem.mp hmem
    have hopen := (hd.open_iff id).mpr ⟨slot, by rw [List.getElem?_eq_getElem hlt, hslot], hnone⟩
    cases hopen
  obtain ⟨rules, hslots⟩ := Arena.exists_rules hbody
  have hlen : rules.length = plan.length := by rw [hd.length, hslots, List.length_map]
  have hlaid : ∀ (id : Nat) (q : Part C), plan[id]? = some q →
      ∃ r, rules[id]? = some r ∧ Layout plan q r.rule := by
    intro id q hq
    have hlt : id < rules.length := hlen ▸ (List.getElem?_eq_some_iff.mp hq).1
    have hr : rules[id]? = some rules[id] := List.getElem?_eq_getElem hlt
    have hs : d.arena.slots[id]? = some rules[id].slot := by
      rw [hslots, List.getElem?_map, hr, Option.map_some]
    exact ⟨rules[id], hr, hd.rules id q _ _ hq hs rfl⟩
  have hknown : ∀ id ∈ entry :: (rules.flatMap (·.rule.steps)).flatMap Step.references,
      id < rules.length := by
    have hlt : ∀ (id : Nat) (q : Part C), plan[id]? = some q → id < rules.length := by
      intro id q hq
      rw [hlen]
      exact (List.getElem?_eq_some_iff.mp hq).1
    refine List.forall_mem_cons.mpr ⟨hlt entry p hentry, fun id hid => ?_⟩
    obtain ⟨step, hstep, hid⟩ := List.mem_flatMap.mp hid
    obtain ⟨r, hr, hstep⟩ := List.mem_flatMap.mp hstep
    obtain ⟨j, hj, rfl⟩ := List.mem_iff_getElem.mp hr
    obtain ⟨r, hr, hlayout⟩ := hlaid j plan[j] (List.getElem?_eq_getElem (hlen ▸ hj))
    obtain rfl : rules[j] = r := Option.some.inj ((List.getElem?_eq_getElem hj).symm.trans hr)
    obtain ⟨q, hq, -⟩ := hlayout.references id (List.mem_flatMap.mpr ⟨step, hstep, hid⟩)
    exact hlt id q hq
  let keywords := WordSet.ofList ((rules.flatMap (·.rule.steps)).flatMap Step.keywords)
  refine ⟨⟨rules, entry, keywords⟩, Arena.build_ok_iff.mpr ⟨hslots, rfl, rfl, hknown⟩, rfl,
    hlen.symm, ?_⟩
  · intro id q hq
    obtain ⟨r, hr, hlayout⟩ := hlaid id q hq
    exact ⟨r.rule, by simp [Grammar.rule?, hr], hlayout⟩

theorem drafted_empty : Drafted (C := C) [] [] Draft.empty where
  length := rfl
  rules := fun id p slot body hid => by simp at hid
  open_iff := fun id => by simp [Draft.empty, Arena.empty]
  nodup := List.nodup_nil
  scalar := fun id hid => by cases hid
  value := fun id hid => by cases hid
  members := fun id hid => by cases hid
  property := fun id hid => by cases hid

/-- Every forest with a root has a grammar, laid out by a plan in which the entry describes the
documents of the forest. -/
theorem grammar_laidOut {roots : List (HandlerTree C)} (hroots : roots ≠ []) :
    ∃ g plan, HandlerTree.grammar roots = .ok g ∧ LaidOut g plan ∧
      plan[g.entry]? = some (HandlerTree.entryPart roots) := by
  obtain ⟨id, d, plan, opens, hrun, hd, -, -, hopens, hid⟩ :=
    HandlerTree.drafts_entry hroots Draft.empty drafted_empty (Draft.undeclared_le _)
  subst hopens
  obtain ⟨g, hg, hentry, hlaid⟩ := hd.build hid
  refine ⟨g, plan, ?_, hlaid, hentry ▸ hid⟩
  rw [HandlerTree.grammar, hrun]
  exact hg

end HandlerGrammar
