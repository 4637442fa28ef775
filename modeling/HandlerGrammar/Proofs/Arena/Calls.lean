import HandlerGrammar.Grammar.Basic

/-! # Calls on an arena

An arena is filled by calls that declare rules, add them or give them their bodies. A rule can be
given a body only where there is none yet, and an arena closes only once every rule has one; so in
calls that succeed and lead to a closed arena each declared rule gets its body by exactly one call.

* `ArenaCall`, `ArenaCall.performAll`: calls, one after the other;
* `ArenaCall.declared`, `ArenaCall.definitions`: the rules that are declared, and how often one is
  given a body;
* `Arena.build_ok_iff`, `Arena.rule_of_build`, `Arena.lt_of_build`: what a closed arena satisfies;
* `definitions_of_build`: one body for each declared rule. -/
namespace HandlerGrammar
set_option autoImplicit false

inductive ArenaCall where
  | declare (name : String)
  | add (rule : Rule)
  | define (id : RuleId) (rule : Rule)

namespace ArenaCall

def perform (a : Arena) : ArenaCall → Except BuildError Arena
  | declare name => .ok (a.declare name).2
  | add rule => .ok (a.add rule).2
  | define id rule => a.define id rule

/-- Perform calls one after the other, up to the first that fails. -/
def performAll (a : Arena) : List ArenaCall → Except BuildError Arena
  | [] => .ok a
  | c :: cs =>
    match c.perform a with
    | .ok a' => performAll a' cs
    | .error e => .error e

/-- The rules that calls declare, the next rule having the given number. -/
def declared : Nat → List ArenaCall → List RuleId
  | _, [] => []
  | next, declare _ :: cs => next :: declared (next + 1) cs
  | next, add _ :: cs => declared (next + 1) cs
  | next, define _ _ :: cs => declared next cs

/-- How many calls give the rule a body. -/
def definitions (id : RuleId) : List ArenaCall → Nat
  | [] => 0
  | define id' _ :: cs => (if id' = id then 1 else 0) + definitions id cs
  | _ :: cs => definitions id cs

theorem performAll_append {a a' : Arena} {cs : List ArenaCall} (h : performAll a cs = .ok a')
    (cs' : List ArenaCall) : performAll a (cs ++ cs') = performAll a' cs' := by
  induction cs generalizing a with
  | nil =>
    cases h
    rfl
  | cons c cs ih =>
    rw [performAll] at h
    rw [List.cons_append, performAll]
    cases hc : c.perform a with
    | error e =>
      rw [hc] at h
      cases h
    | ok next =>
      rw [hc] at h
      exact ih h

theorem le_of_mem_declared {id : RuleId} {next : Nat} {cs : List ArenaCall}
    (h : id ∈ declared next cs) : next ≤ id := by
  induction cs generalizing next with
  | nil => cases h
  | cons c cs ih =>
    cases c with
    | declare name =>
      rcases List.mem_cons.mp h with rfl | h
      · exact Nat.le_refl _
      · exact Nat.le_of_succ_le (ih h)
    | add rule => exact Nat.le_of_succ_le (ih h)
    | define id' rule => exact ih h

end ArenaCall

/-- The slot that a rule with its body stands in. -/
def NamedRule.slot (r : NamedRule) : Slot := ⟨r.name, some r.rule⟩

namespace Arena

/-- A slot keeps its number when others come after it. -/
theorem slot_append {slots added : List Slot} {id : RuleId} {slot : Slot} (h : slots[id]? = some slot) :
    (slots ++ added)[id]? = some slot := by
  have hlt := (List.getElem?_eq_some_iff.mp h).1
  rw [List.getElem?_append_left hlt, h]

theorem slot_concat {slots : List Slot} {id : RuleId} {slot s : Slot} :
    (slots ++ [slot])[id]? = some s ↔ slots[id]? = some s ∨ id = slots.length ∧ s = slot := by
  constructor
  · intro h
    rcases Nat.lt_or_ge id slots.length with hlt | hge
    · exact Or.inl (by rwa [List.getElem?_append_left hlt] at h)
    · have hlt := (List.getElem?_eq_some_iff.mp h).1
      rw [List.length_append, List.length_singleton] at hlt
      obtain rfl : id = slots.length := Nat.le_antisymm (Nat.le_of_lt_succ hlt) hge
      rw [List.getElem?_concat_length] at h
      exact Or.inr ⟨rfl, (Option.some.inj h).symm⟩
  · rintro (h | ⟨rfl, rfl⟩)
    · exact slot_append h
    · exact List.getElem?_concat_length

theorem define_ok {a a' : Arena} {id : RuleId} {rule : Rule} (h : a.define id rule = .ok a') :
    ∃ name, a.slots[id]? = some ⟨name, none⟩ ∧ a' = ⟨a.slots.set id ⟨name, some rule⟩⟩ := by
  unfold define at h
  cases hslot : a.slots[id]? with
  | none =>
    rw [hslot] at h
    cases h
  | some slot =>
    obtain ⟨name, rule?⟩ := slot
    rw [hslot] at h
    cases rule? with
    | some old => cases h
    | none =>
      cases h
      exact ⟨name, rfl, rfl⟩

/-- The rules that closing finds in slots are those that fill them. -/
theorem defined_ok_iff {slots : List Slot} {rules : List NamedRule} :
    defined slots = .ok rules ↔ slots = rules.map NamedRule.slot := by
  induction slots generalizing rules with
  | nil =>
    cases rules with
    | nil => simp [defined]
    | cons r rules => simp [defined]
  | cons slot slots ih =>
    obtain ⟨name, rule?⟩ := slot
    cases rule? with
    | none =>
      cases rules with
      | nil => simp [defined]
      | cons r rules => simp [defined, NamedRule.slot]
    | some rule =>
      rw [defined]
      cases rules with
      | nil => cases defined slots <;> simp [Except.map]
      | cons r rules =>
        obtain ⟨name', rule'⟩ := r
        rw [List.map_cons, List.cons.injEq, ← ih]
        cases defined slots with
        | error e => simp [Except.map]
        | ok rest => simp [Except.map, NamedRule.slot]

/-- Slots that all have a body are filled by rules. -/
theorem exists_rules {slots : List Slot} (h : ∀ slot ∈ slots, slot.rule? ≠ none) :
    ∃ rules : List NamedRule, slots = rules.map NamedRule.slot := by
  induction slots with
  | nil => exact ⟨[], rfl⟩
  | cons slot slots ih =>
    obtain ⟨hslot, hslots⟩ := List.forall_mem_cons.mp h
    obtain ⟨rules, rfl⟩ := ih hslots
    obtain ⟨name, rule?⟩ := slot
    obtain ⟨rule, rfl⟩ := Option.ne_none_iff_exists'.mp hslot
    exact ⟨⟨name, rule⟩ :: rules, rfl⟩

section
variable {a : Arena} {entry : RuleId} {g : Grammar}

/-- What an arena closes to. -/
theorem build_ok_iff : a.build entry = .ok g ↔ a.slots = g.rules.map NamedRule.slot ∧ g.entry = entry ∧
    g.keywords = WordSet.ofList ((g.rules.flatMap (·.rule.steps)).flatMap Step.keywords) ∧
    ∀ id ∈ entry :: (g.rules.flatMap (·.rule.steps)).flatMap Step.references, id < g.rules.length := by
  have hfind : ∀ rules : List NamedRule,
      (entry :: (rules.flatMap (·.rule.steps)).flatMap Step.references).find? (rules.length ≤ ·) = none ↔
        ∀ id ∈ entry :: (rules.flatMap (·.rule.steps)).flatMap Step.references, id < rules.length := by
    intro rules
    simp only [List.find?_eq_none, decide_eq_true_eq, Nat.not_le]
  constructor
  · intro h
    unfold build at h
    cases hdefined : defined a.slots with
    | error e =>
      rw [hdefined] at h
      cases h
    | ok rules =>
      rw [hdefined] at h
      dsimp only at h
      split at h
      · cases h
      · next hnone =>
        cases h
        exact ⟨defined_ok_iff.mp hdefined, rfl, rfl, (hfind rules).mp hnone⟩
  · rintro ⟨hslots, rfl, hkeywords, hknown⟩
    rw [build, defined_ok_iff.mpr hslots]
    dsimp only
    rw [(hfind g.rules).mpr hknown, ← hkeywords]

theorem rule_of_build (h : a.build entry = .ok g) :
    g.entry = entry ∧ g.rules.length = a.slots.length ∧ ∀ slot ∈ a.slots, slot.rule? ≠ none := by
  obtain ⟨hslots, hentry, -, -⟩ := build_ok_iff.mp h
  rw [hslots, List.length_map]
  exact ⟨hentry, rfl, by simp [NamedRule.slot]⟩

/-- The keywords of a grammar are those that its rules test for. -/
theorem keywords_of_build (h : a.build entry = .ok g) (word : String) :
    g.keywords.contains word = true ↔
      ∃ r ∈ g.rules, ∃ step ∈ r.rule.steps, word ∈ step.keywords := by
  obtain ⟨-, -, hkeywords, -⟩ := build_ok_iff.mp h
  rw [hkeywords, WordSet.ofList, WordSet.contains_insertAll, WordSet.contains_empty, Bool.or_false,
    List.contains_iff_mem]
  simp only [List.mem_flatMap]
  constructor
  · rintro ⟨step, ⟨r, hr, hstep⟩, hword⟩
    exact ⟨r, hr, step, hstep, hword⟩
  · rintro ⟨r, hr, step, hstep, hword⟩
    exact ⟨step, ⟨r, hr, hstep⟩, hword⟩

/-- The entry and all numbers that a step mentions belong to rules. -/
theorem lt_of_build (h : a.build entry = .ok g) : g.entry < g.rules.length ∧
    ∀ r ∈ g.rules, ∀ step ∈ r.rule.steps, ∀ id ∈ step.references, id < g.rules.length := by
  obtain ⟨-, hentry, -, hknown⟩ := build_ok_iff.mp h
  obtain ⟨hlt, hsteps⟩ := List.forall_mem_cons.mp hknown
  refine ⟨hentry ▸ hlt, fun r hr step hstep id hid => hsteps id ?_⟩
  exact List.mem_flatMap.mpr ⟨step, List.mem_flatMap.mpr ⟨r, hr, hstep⟩, hid⟩

end
end Arena

namespace ArenaCall

/-- From an arena on, calls that lead to one without open rules give each rule without a body one
body, and those with a body none. -/
theorem definitions_of_closed {a a' : Arena} {cs : List ArenaCall} (h : performAll a cs = .ok a')
    (hclosed : ∀ slot ∈ a'.slots, slot.rule? ≠ none) :
    (∀ (id : RuleId) (slot : Slot), a.slots[id]? = some slot →
      definitions id cs = if slot.rule? = none then 1 else 0) ∧
    ∀ id ∈ declared a.slots.length cs, definitions id cs = 1 := by
  induction cs generalizing a with
  | nil =>
    cases h
    refine ⟨fun id slot hslot => ?_, fun _ hid => absurd hid List.not_mem_nil⟩
    rw [if_neg (hclosed slot (List.mem_of_getElem? hslot))]
    rfl
  | cons c cs ih =>
    rw [performAll] at h
    cases hc : c.perform a with
    | error e =>
      rw [hc] at h
      cases h
    | ok next =>
      rw [hc] at h
      obtain ⟨hold, hnew⟩ := ih h
      cases c with
      | declare name =>
        cases hc
        have hlen : (a.declare name).2.slots.length = a.slots.length + 1 := by simp [Arena.declare]
        refine ⟨fun id slot hslot => hold id slot (Arena.slot_append hslot), fun id hid => ?_⟩
        rcases List.mem_cons.mp hid with rfl | hid
        · exact hold _ ⟨name, none⟩ List.getElem?_concat_length
        · exact hnew id (hlen ▸ hid)
      | add rule =>
        cases hc
        have hlen : (a.add rule).2.slots.length = a.slots.length + 1 := by simp [Arena.add]
        exact ⟨fun id slot hslot => hold id slot (Arena.slot_append hslot),
          fun id hid => hnew id (hlen ▸ hid)⟩
      | define target rule =>
        obtain ⟨name, htarget, rfl⟩ := Arena.define_ok hc
        have hlt := (List.getElem?_eq_some_iff.mp htarget).1
        simp only [List.length_set] at hnew
        refine ⟨fun id slot hslot => ?_, fun id hid => ?_⟩
        · by_cases hid : target = id
          · subst hid
            obtain rfl : slot = ⟨name, none⟩ := Option.some.inj (hslot.symm.trans htarget)
            rw [definitions, if_pos rfl, hold target _ (List.getElem?_set_self hlt)]
            rfl
          · rw [definitions, if_neg hid, Nat.zero_add]
            exact hold id slot (by rw [List.getElem?_set_ne hid]; exact hslot)
        · have hle := le_of_mem_declared hid
          rw [definitions, if_neg (Nat.ne_of_lt (Nat.lt_of_lt_of_le hlt hle)), Nat.zero_add]
          exact hnew id hid

/-- Where calls fill an arena that closes, each rule that they declare gets its body once. -/
theorem definitions_of_build {a : Arena} {cs : List ArenaCall} (h : performAll .empty cs = .ok a)
    {entry : RuleId} {g : Grammar} (hbuild : a.build entry = .ok g) :
    ∀ id ∈ declared 0 cs, definitions id cs = 1 :=
  (definitions_of_closed h (Arena.rule_of_build hbuild).2.2).2

end ArenaCall
end HandlerGrammar
