import HandlerGrammar.Proofs.Arena.Closing
import HandlerGrammar.Proofs.Parsing.View
import Mathlib.Data.Finset.Card
import Mathlib.Order.Interval.Set.Defs

/-! # Other numbers for the rules of an arena

The numbers that rules have in an arena depend on the calls that filled it. They serve as positions in
the arena, as the marks of what is under inspection, and to find the candidates of a dispatch; none of
this shows in a parse. If the rules of an arena are those of another under other numbers, with the
entries at corresponding rules, both arenas close to grammars of the same parses.

* `Arena.body?`, `Arena.Renames`: an arena with the rules of another under other numbers;
* `Arena.renames_declared_first`: rules added at once, and declared first and given bodies later;
* `Grammar.Renames`: the same for grammars; `Arena.Renames.grammar` goes from one to the other;
* `Grammar.Renames.leadingLiteral`, `candidates`, `startsWithin`, `matchRule`, `parse`: what grammars
  do under other numbers, from the first literals up to the parse;
* `parse_of_renames`: the arenas close together, and their grammars parse alike. -/
namespace HandlerGrammar
set_option autoImplicit false

/-! ## Renumbered arenas -/

namespace Arena

/-- The body of a rule, if the rule is there and has one. -/
def body? (a : Arena) (id : RuleId) : Option Rule := a.slots[id]?.bind Slot.rule?

/-- The rules of `a` under other numbers make up `a'`: each rule has the body with the other numbers in
it, or none if it had none. -/
structure Renames (ρ : RuleId → RuleId) (a a' : Arena) : Prop where
  bijective : Set.BijOn ρ (Set.Iio a.slots.length) (Set.Iio a'.slots.length)
  body : ∀ id < a.slots.length, a'.body? (ρ id) = (a.body? id).map (Rule.rename ρ)

theorem body?_eq_join (a : Arena) (id : RuleId) :
    a.body? id = (a.slots.map Slot.rule?)[id]?.join := by
  rw [body?, List.getElem?_map]
  cases a.slots[id]? <;> rfl

theorem exists_body_of_mem {a : Arena} {slot : Slot} (h : slot ∈ a.slots) :
    ∃ id < a.slots.length, a.body? id = slot.rule? := by
  obtain ⟨id, hid⟩ := List.getElem?_of_mem h
  exact ⟨id, (List.getElem?_eq_some_iff.mp hid).1, by rw [body?, hid, Option.bind_some]⟩

theorem exists_mem_of_body {a : Arena} {id : RuleId} (h : id < a.slots.length) :
    ∃ slot ∈ a.slots, a.body? id = slot.rule? :=
  ⟨a.slots[id], List.getElem_mem h, by rw [body?, List.getElem?_eq_getElem h, Option.bind_some]⟩

/-- Closing keeps the body of each rule. -/
theorem rule?_of_build {a : Arena} {entry : RuleId} {g : Grammar} (h : a.build entry = .ok g)
    (id : RuleId) : g.rule? id = a.body? id := by
  obtain ⟨hslots, -, -, -⟩ := build_ok_iff.mp h
  rw [Grammar.rule?, body?, hslots, List.getElem?_map]
  cases g.rules[id]? <;> rfl

namespace Renames

variable {ρ : RuleId → RuleId} {a a' : Arena} (h : a.Renames ρ a')
include h

theorem length_eq : a'.slots.length = a.slots.length := by
  have hcard := Finset.card_nbij (s := Finset.range a.slots.length)
    (t := Finset.range a'.slots.length) ρ
  simp only [Finset.coe_range, Finset.card_range] at hcard
  exact (hcard h.bijective.mapsTo h.bijective.injOn h.bijective.surjOn).symm

/-- Each body in `a'` is one of `a` under the other numbers. -/
theorem exists_body {slot' : Slot} (hslot' : slot' ∈ a'.slots) :
    ∃ slot ∈ a.slots, slot'.rule? = slot.rule?.map (Rule.rename ρ) := by
  obtain ⟨id', hid', hbody'⟩ := exists_body_of_mem hslot'
  obtain ⟨id, hid, rfl⟩ := h.bijective.surjOn hid'
  obtain ⟨slot, hslot, hbody⟩ := exists_mem_of_body hid
  exact ⟨slot, hslot, by rw [← hbody', h.body id hid, hbody]⟩

/-- What is closed stays so under other numbers. -/
theorem closed {entry : RuleId} (hclosed : a.Closed entry) : a'.Closed (ρ entry) where
  defined slot' hslot' := by
    obtain ⟨slot, hslot, heq⟩ := h.exists_body hslot'
    rw [heq, Ne, Option.map_eq_none_iff]
    exact hclosed.defined slot hslot
  entry := h.bijective.mapsTo hclosed.entry
  mentioned slot' hslot' rule' hrule' step' hstep' id' hid' := by
    obtain ⟨slot, hslot, heq⟩ := h.exists_body hslot'
    rw [heq] at hrule'
    obtain ⟨rule, hrule, rfl⟩ := Option.map_eq_some_iff.mp hrule'
    obtain ⟨step, hstep, rfl⟩ := List.mem_map.mp hstep'
    rw [Step.references_rename] at hid'
    obtain ⟨id, hid, rfl⟩ := List.mem_map.mp hid'
    exact h.bijective.mapsTo (hclosed.mentioned slot hslot rule hrule step hstep id hid)

theorem exists_build {entry : RuleId} {g : Grammar} (hbuild : a.build entry = .ok g) :
    ∃ g', a'.build (ρ entry) = .ok g' :=
  (a'.exists_build_iff _).mpr (h.closed ((a.exists_build_iff entry).mp ⟨g, hbuild⟩))

end Renames
end Arena

/-! ### Added at once or declared first -/

namespace ArenaCall

/-- The body that a call offers to a rule. -/
def bodyFor? (id : RuleId) : ArenaCall → Option Rule
  | define target rule => if target = id then some rule else none
  | _ => none

/-- A rule keeps the body that it has. -/
theorem body?_attempt {a : Arena} {id : RuleId} {body : Rule} (h : a.body? id = some body)
    (c : ArenaCall) : (attempt a c).body? id = some body := by
  obtain ⟨slot, hslot, hbody⟩ := Option.bind_eq_some_iff.mp h
  cases c with
  | declare name | add rule =>
    rw [attempt, perform, Arena.body?]
    show Option.bind (a.slots ++ _)[id]? Slot.rule? = some body
    rw [Arena.slot_append hslot]
    exact hbody
  | define target rule =>
    rcases attempt_define a target rule with ⟨name, htarget, heq⟩ | ⟨-, heq⟩
    · have hne : target ≠ id := by
        rintro rfl
        rw [htarget] at hslot
        cases hslot
        cases hbody
      rw [heq, Arena.body?, List.getElem?_set_ne hne, hslot]
      exact hbody
    · rw [heq]
      exact h

theorem body?_attemptAll {a : Arena} {id : RuleId} {body : Rule} (h : a.body? id = some body)
    (cs : List ArenaCall) : (attemptAll a cs).body? id = some body := by
  induction cs generalizing a with
  | nil => exact h
  | cons c cs ih => exact ih (body?_attempt h c)

/-- A rule without a body gets the first one that it is offered. -/
theorem body?_of_open {a : Arena} {id : RuleId} {name : String} (h : a.slots[id]? = some ⟨name, none⟩)
    (cs : List ArenaCall) : (attemptAll a cs).body? id = cs.findSome? (bodyFor? id) := by
  induction cs generalizing a with
  | nil => rw [attemptAll, List.foldl_nil, Arena.body?, h, Option.bind_some, List.findSome?_nil]
  | cons c cs ih =>
    have hall : attemptAll a (c :: cs) = attemptAll (attempt a c) cs := rfl
    rw [hall, List.findSome?_cons]
    cases c with
    | declare name' | add rule => exact ih (Arena.slot_append h)
    | define target rule =>
      by_cases htarget : target = id
      · subst htarget
        rw [bodyFor?, if_pos rfl]
        apply body?_attemptAll
        have hlt := (List.getElem?_eq_some_iff.mp h).1
        rcases attempt_define a target rule with ⟨name', -, heq⟩ | ⟨hnone, -⟩
        · rw [heq, Arena.body?, List.getElem?_set_self hlt, Option.bind_some]
        · exact absurd h (hnone name)
      · rw [bodyFor?, if_neg htarget]
        apply ih
        rcases attempt_define a target rule with ⟨name', -, heq⟩ | ⟨-, heq⟩
        · rw [heq, List.getElem?_set_ne htarget, h]
        · rw [heq, h]

theorem attemptAll_declare (a : Arena) (names : List String) :
    attemptAll a (names.map declare) = ⟨a.slots ++ names.map fun name => ⟨name, none⟩⟩ := by
  induction names generalizing a with
  | nil => rw [List.map_nil, List.map_nil, List.append_nil, attemptAll, List.foldl_nil]
  | cons name names ih =>
    have hall : attemptAll a ((name :: names).map declare) =
        attemptAll (a.declare name).2 (names.map declare) := rfl
    rw [hall, ih, Arena.declare, List.append_assoc, List.map_cons, List.singleton_append]

theorem bodies_attemptAll_add (a : Arena) (rules : List Rule) :
    (attemptAll a (rules.map add)).slots.map Slot.rule? = a.slots.map Slot.rule? ++ rules.map some := by
  induction rules generalizing a with
  | nil => rw [List.map_nil, List.map_nil, List.append_nil, attemptAll, List.foldl_nil]
  | cons rule rules ih =>
    have hall : attemptAll a ((rule :: rules).map add) =
        attemptAll (a.add rule).2 (rules.map add) := rfl
    rw [hall, ih, Arena.add, List.map_append, List.append_assoc]
    rfl

theorem entered_define (order : List (RuleId × Rule)) :
    entered (order.map fun d => define d.1 d.2) = 0 := by
  induction order with
  | nil => rfl
  | cons d order ih => exact ih

/-- If all that is offered to a rule is one body, it is the first one offered. -/
theorem findSome?_bodyFor {order : List (RuleId × Rule)} {id : RuleId} {body : Rule}
    (h : ∀ other, (id, other) ∈ order ↔ some body = some other) :
    (order.map fun d => define d.1 d.2).findSome? (bodyFor? id) = some body := by
  cases hfind : (order.map fun d => define d.1 d.2).findSome? (bodyFor? id) with
  | none =>
    have hoffer := List.findSome?_eq_none_iff.mp hfind (define id body)
      (List.mem_map.mpr ⟨(id, body), (h body).mpr rfl, rfl⟩)
    rw [bodyFor?, if_pos rfl] at hoffer
    cases hoffer
  | some other =>
    obtain ⟨c, hc, hother⟩ := List.exists_of_findSome?_eq_some hfind
    obtain ⟨d, hd, rfl⟩ := List.mem_map.mp hc
    rw [bodyFor?] at hother
    split at hother
    · next htarget =>
      cases hother
      exact ((h d.2).mp (htarget ▸ hd)).symm
    · cases hother

end ArenaCall

/-- Rules that are added at once are the same, under the same numbers, as those that are declared first
and given their bodies later, in whatever order. -/
theorem Arena.renames_declared_first {rules : List Rule} {names : List String}
    (hnames : names.length = rules.length) {order : List (RuleId × Rule)}
    (horder : ∀ id body, (id, body) ∈ order ↔ rules[id]? = some body) :
    Renames (fun id => id) (ArenaCall.attemptAll .empty (rules.map .add))
      (ArenaCall.attemptAll .empty (names.map .declare ++ order.map fun d => .define d.1 d.2)) := by
  have hadded : (ArenaCall.attemptAll .empty (rules.map .add)).slots.map Slot.rule? =
      rules.map some := ArenaCall.bodies_attemptAll_add .empty rules
  have hlength : (ArenaCall.attemptAll .empty (rules.map .add)).slots.length = rules.length := by
    rw [← List.length_map Slot.rule?, hadded, List.length_map]
  have hdeclared : ArenaCall.attemptAll .empty (names.map .declare ++
      order.map fun d => .define d.1 d.2) = ArenaCall.attemptAll
        ⟨names.map fun name => ⟨name, none⟩⟩ (order.map fun d => .define d.1 d.2) := by
    have h : ArenaCall.attemptAll .empty (names.map .declare) =
        ⟨names.map fun name => ⟨name, none⟩⟩ := ArenaCall.attemptAll_declare .empty names
    rw [ArenaCall.attemptAll, List.foldl_append, ← h]
    rfl
  rw [hdeclared]
  constructor
  · rw [hlength, ArenaCall.length_attemptAll, ArenaCall.entered_define, List.length_map, hnames]
    exact Set.bijOn_id _
  · intro id hid
    rw [hlength] at hid
    have hbody : (ArenaCall.attemptAll .empty (rules.map .add)).body? id = some rules[id] := by
      rw [body?_eq_join, hadded, List.getElem?_map, List.getElem?_eq_getElem hid]
      rfl
    have hopen : (names.map fun name => (⟨name, none⟩ : Slot))[id]? =
        some ⟨names.get ⟨id, hnames ▸ hid⟩, none⟩ := by
      rw [List.getElem?_map, List.getElem?_eq_getElem (hnames ▸ hid)]
      rfl
    have hoffered : ∀ other, (id, other) ∈ order ↔ some rules[id] = some other := by
      intro other
      rw [horder, List.getElem?_eq_getElem hid]
    rw [hbody, ArenaCall.body?_of_open hopen, ArenaCall.findSome?_bodyFor hoffered, Option.map_some,
      Rule.rename_self]

/-! ## Renumbered grammars -/

namespace Grammar

/-- The rules of `g` under other numbers make up `g'`. -/
structure Renames (ρ : RuleId → RuleId) (g g' : Grammar) : Prop where
  closed : g.Closed
  length : g'.rules.length = g.rules.length
  injective : Set.InjOn ρ (Set.Iio g.rules.length)
  rule : ∀ id < g.rules.length, g'.rule? (ρ id) = (g.rule? id).map (Rule.rename ρ)
  entry : g'.entry = ρ g.entry
  keywords : g'.keywords = g.keywords

end Grammar

theorem Arena.contains_keywords_iff {a : Arena} {entry : RuleId} {g : Grammar}
    (h : a.build entry = .ok g) (word : String) : g.keywords.contains word = true ↔
      ∃ id < a.slots.length, ∃ body ∈ a.body? id, ∃ step ∈ body.steps, word ∈ step.keywords := by
  obtain ⟨hslots, -, -, -⟩ := build_ok_iff.mp h
  rw [keywords_of_build h]
  constructor
  · rintro ⟨r, hr, hstep⟩
    have hmem : r.slot ∈ a.slots := by
      rw [hslots]
      exact List.mem_map_of_mem hr
    obtain ⟨id, hid, hbody⟩ := exists_body_of_mem hmem
    exact ⟨id, hid, r.rule, hbody, hstep⟩
  · rintro ⟨id, hid, body, hbody, hstep⟩
    rw [← rule?_of_build h] at hbody
    obtain ⟨r, hr, rfl⟩ := Option.map_eq_some_iff.mp hbody
    exact ⟨r, List.mem_of_getElem? hr, hstep⟩

section
variable {ρ : RuleId → RuleId} {a a' : Arena} (h : a.Renames ρ a') {entry : RuleId} {g g' : Grammar}
  (hbuild : a.build entry = .ok g) (hbuild' : a'.build (ρ entry) = .ok g')
include h hbuild hbuild'

theorem Arena.Renames.keywords : g'.keywords = g.keywords := by
  apply WordSet.ext_contains
  intro word
  rw [Bool.eq_iff_iff, contains_keywords_iff hbuild', contains_keywords_iff hbuild]
  constructor
  · rintro ⟨id', hid', body', hbody', step', hstep', hword⟩
    obtain ⟨id, hid, rfl⟩ := h.bijective.surjOn hid'
    rw [h.body id hid] at hbody'
    obtain ⟨body, hbody, rfl⟩ := Option.map_eq_some_iff.mp hbody'
    obtain ⟨step, hstep, rfl⟩ := List.mem_map.mp hstep'
    rw [Step.keywords_rename] at hword
    exact ⟨id, hid, body, hbody, step, hstep, hword⟩
  · rintro ⟨id, hid, body, hbody, step, hstep, hword⟩
    have hbody' : body.rename ρ ∈ a'.body? (ρ id) := by
      rw [h.body id hid]
      exact Option.mem_map_of_mem _ hbody
    refine ⟨ρ id, h.bijective.mapsTo hid, _, hbody', _, List.mem_map_of_mem hstep, ?_⟩
    rw [Step.keywords_rename]
    exact hword

theorem Arena.Renames.grammar : g.Renames ρ g' := by
  obtain ⟨hentry, hlength, -⟩ := rule_of_build hbuild
  obtain ⟨hentry', hlength', -⟩ := rule_of_build hbuild'
  refine ⟨Grammar.closed_of_build hbuild, ?_, ?_, fun id hid => ?_, ?_, h.keywords hbuild hbuild'⟩
  · rw [hlength', hlength, h.length_eq]
  · rw [hlength]
    exact h.bijective.injOn
  · rw [rule?_of_build hbuild', rule?_of_build hbuild, h.body id (hlength ▸ hid)]
  · rw [hentry', hentry]

end

namespace Grammar.Renames

variable {ρ : RuleId → RuleId} {g g' : Grammar} (h : g.Renames ρ g')
include h

theorem exists_rule {id : RuleId} (hid : id < g.rules.length) :
    ∃ body, g.rule? id = some body ∧ g'.rule? (ρ id) = some (body.rename ρ) ∧
      ∀ step ∈ body.steps, ∀ id' ∈ step.references, id' < g.rules.length := by
  have hbody : g.rule? id = some g.rules[id].rule := by
    rw [rule?, List.getElem?_eq_getElem hid, Option.map_some]
  exact ⟨_, hbody, by rw [h.rule id hid, hbody, Option.map_some], h.closed.references id _ hbody⟩

/-! ### Prediction -/

theorem leadingLiteralWithin (depth : Nat) {id : RuleId} (hid : id < g.rules.length) :
    g'.leadingLiteralWithin depth (ρ id) = g.leadingLiteralWithin depth id := by
  induction depth generalizing id with
  | zero => rfl
  | succ depth ih =>
    obtain ⟨⟨label?, steps⟩, hbody, hbody', hsteps⟩ := h.exists_rule hid
    rw [Grammar.leadingLiteralWithin, Grammar.leadingLiteralWithin, hbody, hbody']
    cases steps with
    | nil => rfl
    | cons step steps =>
      cases step with
      | rule inner => exact ih (hsteps _ (List.mem_cons_self ..) inner (List.mem_singleton_self inner))
      | _ => rfl

theorem leadingLiteral {id : RuleId} (hid : id < g.rules.length) :
    g'.leadingLiteral (ρ id) = g.leadingLiteral id := by
  rw [Grammar.leadingLiteral, Grammar.leadingLiteral, h.length, h.leadingLiteralWithin _ hid]

theorem candidates {ids : List RuleId} (hids : ∀ id ∈ ids, id < g.rules.length) (word : String) :
    g'.candidates (ids.map ρ) word = (g.candidates ids word).map ρ := by
  have hfilter : ∀ literal? : Option String, (ids.map ρ).filter (g'.leadingLiteral · = literal?) =
      (ids.filter (g.leadingLiteral · = literal?)).map ρ := by
    intro literal?
    rw [List.filter_map]
    apply congrArg
    apply List.filter_congr
    intro id hid
    simp only [Function.comp_apply, h.leadingLiteral (hids id hid)]
  rw [Grammar.candidates, Grammar.candidates, hfilter, hfilter, List.map_append]

/-- Marks are kept apart by other numbers. -/
theorem contains_map {inspected : List RuleId} (hinspected : ∀ id ∈ inspected, id < g.rules.length)
    {id : RuleId} (hid : id < g.rules.length) :
    (inspected.map ρ).contains (ρ id) = inspected.contains id := by
  rw [Bool.eq_iff_iff, List.contains_iff_mem, List.contains_iff_mem, List.mem_map]
  constructor
  · rintro ⟨id', hid', heq⟩
    rwa [← h.injective (hinspected id' hid') hid heq]
  · exact fun hmem => ⟨id, hmem, rfl⟩

variable {σ : Type} {look : Lookahead σ}

theorem startsWithin (pos depth : Nat) {inspected : List RuleId}
    (hinspected : ∀ id ∈ inspected, id < g.rules.length) {id : RuleId} (hid : id < g.rules.length) :
    g'.startsWithin look pos depth (inspected.map ρ) (ρ id) =
      g.startsWithin look pos depth inspected id := by
  induction depth generalizing inspected id with
  | zero => rfl
  | succ depth ih =>
    obtain ⟨body, hbody, hbody', hsteps⟩ := h.exists_rule hid
    -- the marks of `g'` are those of `g` under the other numbers, the new one included
    have hrest : ∀ id', id' < g.rules.length →
        g'.startsWithin look pos depth (ρ id :: inspected.map ρ) (ρ id') =
          g.startsWithin look pos depth (id :: inspected) id' :=
      fun id' hid' => ih (List.forall_mem_cons.mpr ⟨hid, hinspected⟩) hid'
    have hstart := stepsStart_rename look hrest pos hsteps
    unfold Grammar.startsWithin
    rw [hbody, hbody']
    dsimp only
    rw [h.contains_map hinspected hid]
    exact congrArg _ hstart

/-! ### Matching -/

variable (look) in
theorem agree_answers {matched matched' : RuleId → Nat → Match σ Matched}
    (hmatched : ∀ id, id < g.rules.length → matched' (ρ id) = matched id) :
    (g.answers look matched).Agree ρ (· < g.rules.length) (g'.answers look matched') where
  starts id hid := by
    funext pos
    show g'.starts look (ρ id) pos = g.starts look id pos
    rw [Grammar.starts, Grammar.starts, h.length]
    have hnone : ∀ id' ∈ ([] : List RuleId), id' < g.rules.length := by
      intro id' hid'
      cases hid'
    exact h.startsWithin pos _ hnone hid
  candidates ids hids word := h.candidates hids word
  among ids word id hid := (mem_candidates.mp hid).1
  matched := hmatched

theorem matchRule (depth : Nat) {id : RuleId} (hid : id < g.rules.length) :
    g'.matchRule look depth (ρ id) = g.matchRule look depth id := by
  induction depth generalizing id with
  | zero => rfl
  | succ depth ih =>
    -- an unknown rule is refused by its number, but the grammars are closed and never look one up
    obtain ⟨body, hbody, hbody', hsteps⟩ := h.exists_rule hid
    have hanswers := h.agree_answers look fun id hid => ih hid
    have hone : ∀ step ∈ body.steps, ∀ pos,
        matchStepBy look (g'.answers look (g'.matchRule look depth)) depth (step.rename ρ) pos =
          matchStepBy look (g.answers look (g.matchRule look depth)) depth step pos :=
      fun step hstep pos => matchStepBy_rename look hanswers depth (hsteps step hstep) pos
    funext pos
    unfold Grammar.matchRule
    rw [hbody, hbody']
    dsimp only
    apply bind_congr
    intro t
    rw [matchSteps_eq_matchStepsBy, matchSteps_eq_matchStepsBy]
    show (matchStepsBy _ t.line (body.steps.map (Step.rename ρ)) ⟨[], pos⟩ >>= _) = _
    rw [matchStepsBy_rename hone]
    rfl

/-- Grammars that differ by the numbers of their rules give the same result for each stream, and leave
the same stream. -/
theorem parse (s : TokenStream) : g'.parse s = g.parse s := by
  have hall : ∀ depth, g'.matchAll TokenStream.peek depth = g.matchAll TokenStream.peek depth := by
    intro depth
    rw [matchAll, matchAll, h.entry, h.matchRule depth h.closed.entry]
  have hdepth : g'.depthFor s.size = g.depthFor s.size := by rw [depthFor, depthFor, h.length]
  rw [Grammar.parse, Grammar.parse, hdepth, hall, h.keywords]

end Grammar.Renames

/-- Let an arena have the rules of another under other numbers, each with the same label and steps and
with the other numbers in them, however the calls came that filled the arenas. If one closes with an
entry, so does the other with the corresponding entry, and from whatever stream the grammars give the
same parse: the same tree, mismatch or lexical error, and the same stream afterwards. -/
theorem parse_of_renames {ρ : RuleId → RuleId} {a a' : Arena} (hrenames : a.Renames ρ a')
    {entry : RuleId} {g : Grammar} (hbuild : a.build entry = .ok g) :
    (∃ g', a'.build (ρ entry) = .ok g') ∧
    ∀ g', a'.build (ρ entry) = .ok g' → ∀ s : TokenStream, g'.parse s = g.parse s :=
  ⟨hrenames.exists_build hbuild, fun _ hbuild' s => (hrenames.grammar hbuild hbuild').parse s⟩

/-- Calls for numbers in brackets, the rules in the opposite order and another one of them declared. -/
def nestedCallsReversed : List ArenaCall :=
  [.declare "item", .add (.plain [.token .number]),
    .add (.labeled "list" [.separator "[", .many 0, .separator "]"]), .define 0 (.plain [.choice [2, 1]])]

/-- Counting down is another numbering. -/
theorem bijOn_countDown (n : Nat) : Set.BijOn (n - ·) (Set.Iio (n + 1)) (Set.Iio (n + 1)) := by
  have hlt : ∀ k, n - k ∈ Set.Iio (n + 1) := by
    intro k
    rw [Set.mem_Iio]
    omega
  refine ⟨fun k _ => hlt k, fun k hk k' hk' heq => ?_, fun k hk => ⟨n - k, hlt k, ?_⟩⟩
  · rw [Set.mem_Iio] at hk hk'
    dsimp only at heq
    omega
  · rw [Set.mem_Iio] at hk
    dsimp only
    omega

theorem nestedCalls_renames : (ArenaCall.attemptAll .empty nestedCalls).Renames (2 - ·)
    (ArenaCall.attemptAll .empty nestedCallsReversed) :=
  ⟨bijOn_countDown 2, by decide⟩

theorem parse_of_renames_sample :
    (ArenaCall.attemptAll .empty nestedCalls).Renames (2 - ·)
      (ArenaCall.attemptAll .empty nestedCallsReversed) ∧
    ∃ g g', (ArenaCall.attemptAll .empty nestedCalls).build 0 = .ok g ∧
      (ArenaCall.attemptAll .empty nestedCallsReversed).build 2 = .ok g' ∧
      ∀ s : TokenStream, g'.parse s = g.parse s := by
  obtain ⟨g, hbuild⟩ : ∃ g, (ArenaCall.attemptAll .empty nestedCalls).build 0 = .ok g := ⟨_, rfl⟩
  obtain ⟨⟨g', hbuild'⟩, hparse⟩ := parse_of_renames nestedCalls_renames hbuild
  exact ⟨nestedCalls_renames, g, g', hbuild, hbuild', hparse g' hbuild'⟩

end HandlerGrammar
