import HandlerGrammar.Grammar.Parse
import HandlerGrammar.Proofs.Arena.Calls
import HandlerGrammar.Proofs.Matching.References

/-! # Closed arenas

Calls on an arena may fail, and one that does changes nothing. The arena closes to a grammar exactly if
every rule has a body and every number mentioned belongs to a rule. A grammar that is made in this
way looks up no rule in vain: whatever was to be done about a rule that is not there, no parse would
come to it.

* `ArenaCall.attemptAll`, `ArenaCall.bodies_attemptAll`: calls of which some may fail, and the rules
  that they leave without a body;
* `Arena.Closed`, `Arena.exists_build_iff`: the arenas that close;
* `Fallback`, `Fallback.parse`: parsing with something else to do about unknown rules;
* `Fallback.parse_eq`: where it makes no difference;
* `build_admits_closed`: what closes, and how its grammar parses. -/
namespace HandlerGrammar
set_option autoImplicit false

/-! ## Calls that may fail -/

namespace ArenaCall

/-- Perform a call, or leave the arena as it is if the call fails. -/
def attempt (a : Arena) (c : ArenaCall) : Arena :=
  match c.perform a with
  | .ok a' => a'
  | .error _ => a

def attemptAll (a : Arena) (cs : List ArenaCall) : Arena := cs.foldl attempt a

/-- How many rules enter an arena by calls. -/
def entered : List ArenaCall → Nat
  | [] => 0
  | declare _ :: cs | add _ :: cs => entered cs + 1
  | define _ _ :: cs => entered cs

/-- A body goes to a rule that is there and has none; anything else is left alone. -/
theorem attempt_define (a : Arena) (id : RuleId) (rule : Rule) :
    (∃ name, a.slots[id]? = some ⟨name, none⟩ ∧
      attempt a (define id rule) = ⟨a.slots.set id ⟨name, some rule⟩⟩) ∨
    (∀ name, a.slots[id]? ≠ some ⟨name, none⟩) ∧ attempt a (define id rule) = a := by
  cases h : a.define id rule with
  | ok a' =>
    obtain ⟨name, hslot, rfl⟩ := Arena.define_ok h
    exact Or.inl ⟨name, hslot, by simp only [attempt, perform, h]⟩
  | error e =>
    refine Or.inr ⟨fun name hslot => ?_, by simp only [attempt, perform, h]⟩
    rw [Arena.define, hslot] at h
    cases h

theorem length_attemptAll (a : Arena) (cs : List ArenaCall) :
    (attemptAll a cs).slots.length = a.slots.length + entered cs := by
  induction cs generalizing a with
  | nil => rfl
  | cons c cs ih =>
    have h : (attemptAll a (c :: cs)).slots.length = (attempt a c).slots.length + entered cs := ih _
    rw [h]
    cases c with
    | declare name | add rule =>
      simp only [attempt, perform, Arena.declare, Arena.add, entered, List.length_append,
        List.length_singleton]
      omega
    | define id rule =>
      rcases attempt_define a id rule with ⟨name, -, heq⟩ | ⟨-, heq⟩
      · rw [heq, List.length_set]
        rfl
      · rw [heq]
        rfl

/-- The rules that have no body yet are given one by the calls. -/
def Fills (cs : List ArenaCall) (slots : List Slot) : Prop :=
  ∀ id name, slots[id]? = some ⟨name, none⟩ → ∃ rule, define id rule ∈ cs

theorem fills_cons_of_ne {c : ArenaCall} (hc : ∀ id rule, c ≠ define id rule) {cs : List ArenaCall}
    {slots : List Slot} : Fills (c :: cs) slots ↔ Fills cs slots := by
  have hmem : ∀ id, (∃ rule, define id rule ∈ c :: cs) ↔ ∃ rule, define id rule ∈ cs := by
    intro id
    refine exists_congr fun rule => ?_
    rw [List.mem_cons, or_iff_right fun h => hc id rule h.symm]
  simp only [Fills, hmem]

theorem fills_define {target : RuleId} {rule : Rule} {cs : List ArenaCall} {slots : List Slot} :
    Fills (define target rule :: cs) slots ↔
      ∀ id name, slots[id]? = some ⟨name, none⟩ → target ≠ id → ∃ body, define id body ∈ cs := by
  refine forall₂_congr fun id name => imp_congr_right fun _ => ?_
  constructor
  · rintro ⟨body, hbody⟩ hne
    rcases List.mem_cons.mp hbody with heq | hbody
    · cases heq
      exact absurd rfl hne
    · exact ⟨body, hbody⟩
  · intro h
    by_cases hid : target = id
    · exact ⟨rule, by rw [hid]; exact List.mem_cons_self ..⟩
    · obtain ⟨body, hbody⟩ := h hid
      exact ⟨body, List.mem_cons_of_mem _ hbody⟩

/-- What a call gives a body to need not be given one by later calls. -/
theorem fills_attempt_define (a : Arena) (target : RuleId) (rule : Rule) (cs : List ArenaCall) :
    Fills cs (attempt a (define target rule)).slots ↔ Fills (define target rule :: cs) a.slots := by
  rw [fills_define]
  rcases attempt_define a target rule with ⟨name, htarget, heq⟩ | ⟨hnone, heq⟩
  · have hlt := (List.getElem?_eq_some_iff.mp htarget).1
    rw [heq]
    constructor
    · intro h id name' hslot hne
      exact h id name' (by rw [List.getElem?_set_ne hne]; exact hslot)
    · intro h id name' hslot
      by_cases hid : target = id
      · subst hid
        rw [List.getElem?_set_self hlt] at hslot
        cases hslot
      · rw [List.getElem?_set_ne hid] at hslot
        exact h id name' hslot hid
  · rw [heq]
    constructor
    · exact fun h id name' hslot _ => h id name' hslot
    · intro h id name' hslot
      apply h id name' hslot
      rintro rfl
      exact hnone name' hslot

/-- Each rule that is declared is given a body by a later call; the first rule declared or added gets
the number `next`. -/
def DefinesDeclared (next : Nat) (cs : List ArenaCall) : Prop :=
  ∀ before name after, cs = before ++ declare name :: after →
    ∃ rule, define (next + entered before) rule ∈ after

theorem definesDeclared_nil (next : Nat) : DefinesDeclared next [] := by
  intro before name after h
  cases before <;> cases h

theorem definesDeclared_cons {next : Nat} {c : ArenaCall} {cs : List ArenaCall} :
    DefinesDeclared next (c :: cs) ↔
      (∀ name, c = declare name → ∃ rule, define next rule ∈ cs) ∧
        DefinesDeclared (next + entered [c]) cs := by
  have hentered : ∀ before, entered (c :: before) = entered [c] + entered before := by
    intro before
    cases c <;> simp [entered, Nat.add_comm]
  constructor
  · intro h
    refine ⟨fun name hc => h [] name cs (by rw [hc]; rfl), fun before name after hcs => ?_⟩
    obtain ⟨rule, hrule⟩ := h (c :: before) name after (by rw [hcs]; rfl)
    exact ⟨rule, by rw [Nat.add_assoc, ← hentered]; exact hrule⟩
  · rintro ⟨hfirst, hrest⟩ before name after h
    cases before with
    | nil =>
      obtain ⟨rfl, rfl⟩ := List.cons.inj h
      exact hfirst name rfl
    | cons c' before =>
      obtain ⟨rfl, rfl⟩ := List.cons.inj h
      obtain ⟨rule, hrule⟩ := hrest before name after rfl
      exact ⟨rule, by rw [hentered, ← Nat.add_assoc]; exact hrule⟩

/-- Calls leave no rule without a body exactly if they give one to the rules that had none and, after
declaring it, to each rule that they declare. -/
theorem bodies_attemptAll (a : Arena) (cs : List ArenaCall) :
    (∀ slot ∈ (attemptAll a cs).slots, slot.rule? ≠ none) ↔
      Fills cs a.slots ∧ DefinesDeclared a.slots.length cs := by
  induction cs generalizing a with
  | nil =>
    rw [and_iff_left (definesDeclared_nil _)]
    constructor
    · intro h id name hslot
      exact absurd rfl (h _ (List.mem_of_getElem? hslot))
    · rintro h ⟨name, rule?⟩ hmem rfl
      obtain ⟨id, hslot⟩ := List.getElem?_of_mem hmem
      obtain ⟨rule, hrule⟩ := h id name hslot
      cases hrule
  | cons c cs ih =>
    have hstep : (∀ slot ∈ (attemptAll a (c :: cs)).slots, slot.rule? ≠ none) ↔
        Fills cs (attempt a c).slots ∧ DefinesDeclared (attempt a c).slots.length cs := ih _
    rw [hstep, definesDeclared_cons]
    cases c with
    | declare name =>
      have hfills : Fills cs (a.slots ++ [⟨name, none⟩]) ↔
          Fills cs a.slots ∧ ∃ rule, define a.slots.length rule ∈ cs := by
        simp only [Fills, Arena.slot_concat]
        constructor
        · intro h
          exact ⟨fun id name' hslot => h id name' (Or.inl hslot), h _ name (Or.inr ⟨rfl, rfl⟩)⟩
        · rintro ⟨hold, hnew⟩ id name' (hslot | ⟨rfl, -⟩)
          · exact hold id name' hslot
          · exact hnew
      have harena : attempt a (declare name) = ⟨a.slots ++ [⟨name, none⟩]⟩ := rfl
      rw [harena, hfills, fills_cons_of_ne fun id rule => ArenaCall.noConfusion, List.length_append,
        List.length_singleton, and_assoc]
      simp [entered]
    | add rule =>
      have hfills : ∀ slot : Slot, slot.rule? ≠ none →
          (Fills cs (a.slots ++ [slot]) ↔ Fills cs a.slots) := by
        intro slot hslot
        simp only [Fills, Arena.slot_concat]
        constructor
        · exact fun h id name hid => h id name (Or.inl hid)
        · rintro h id name (hid | ⟨-, rfl⟩)
          · exact h id name hid
          · exact absurd rfl hslot
      have harena : attempt a (add rule) = (a.add rule).2 := rfl
      rw [harena, Arena.add, hfills _ (Option.some_ne_none _),
        fills_cons_of_ne fun id rule => ArenaCall.noConfusion, List.length_append,
        List.length_singleton]
      simp [entered]
    | define target rule =>
      have hlength : (attempt a (define target rule)).slots.length = a.slots.length := by
        have h := length_attemptAll a [define target rule]
        exact h
      rw [fills_attempt_define, hlength]
      simp [entered]

end ArenaCall

/-! ## What closes -/

/-- Every rule has a body, and the entry and all numbers that steps mention belong to rules. -/
structure Arena.Closed (a : Arena) (entry : RuleId) : Prop where
  defined : ∀ slot ∈ a.slots, slot.rule? ≠ none
  entry : entry < a.slots.length
  mentioned : ∀ slot ∈ a.slots, ∀ rule ∈ slot.rule?, ∀ step ∈ rule.steps, ∀ id ∈ step.references,
    id < a.slots.length

theorem Arena.exists_build_iff (a : Arena) (entry : RuleId) :
    (∃ g, a.build entry = .ok g) ↔ a.Closed entry := by
  have hmentioned : ∀ rules : List NamedRule,
      (∀ slot ∈ rules.map NamedRule.slot, ∀ rule ∈ slot.rule?, ∀ step ∈ rule.steps,
        ∀ id ∈ step.references, id < rules.length) ↔
      ∀ id ∈ (rules.flatMap (·.rule.steps)).flatMap Step.references, id < rules.length := by
    intro rules
    simp only [List.mem_flatMap, List.forall_mem_map, NamedRule.slot, Option.mem_some_iff]
    constructor
    · rintro h id ⟨step, ⟨r, hr, hstep⟩, hid⟩
      exact h r hr r.rule rfl step hstep id hid
    · rintro h r hr rule rfl step hstep id hid
      exact h id ⟨step, ⟨r, hr, hstep⟩, hid⟩
  constructor
  · rintro ⟨g, h⟩
    obtain ⟨hslots, -, -, hknown⟩ := build_ok_iff.mp h
    obtain ⟨hentry, hsteps⟩ := List.forall_mem_cons.mp hknown
    refine ⟨(rule_of_build h).2.2, ?_, ?_⟩
    · rw [hslots, List.length_map]
      exact hentry
    · rw [hslots, List.length_map]
      exact (hmentioned g.rules).mpr hsteps
  · intro h
    obtain ⟨rules, hslots⟩ := exists_rules h.defined
    have hentry := h.entry
    have hsteps := h.mentioned
    rw [hslots, List.length_map] at hentry hsteps
    let keywords := WordSet.ofList ((rules.flatMap (·.rule.steps)).flatMap Step.keywords)
    exact ⟨⟨rules, entry, keywords⟩, build_ok_iff.mpr
      ⟨hslots, rfl, rfl, List.forall_mem_cons.mpr ⟨hentry, (hmentioned rules).mp hsteps⟩⟩⟩

/-- The entry is a rule, and rules refer to rules only. -/
structure Grammar.Closed (g : Grammar) : Prop where
  entry : g.entry < g.rules.length
  references : ∀ id body, g.rule? id = some body → ∀ step ∈ body.steps, ∀ id' ∈ step.references,
    id' < g.rules.length

theorem Grammar.closed_of_build {a : Arena} {entry : RuleId} {g : Grammar}
    (h : a.build entry = .ok g) : g.Closed := by
  obtain ⟨hentry, hsteps⟩ := Arena.lt_of_build h
  refine ⟨hentry, fun id body hbody => ?_⟩
  obtain ⟨r, hr, rfl⟩ := Option.map_eq_some_iff.mp hbody
  exact hsteps r (List.mem_of_getElem? hr)

/-! ## Unknown rules -/

/-- What to do about a rule that is not there, when it is asked whether it can start and when it is
to be matched. -/
structure Fallback (σ : Type) where
  starts : RuleId → Nat → Match σ Bool
  matched : RuleId → Nat → Match σ Matched

namespace Fallback

variable {σ : Type}

/-- An unknown rule starts nowhere and is refused. -/
def plain : Fallback σ where
  starts _ _ := return false
  matched id pos := refuse pos ("rule " ++ toString id)

def startsWithin (f : Fallback σ) (g : Grammar) (look : Lookahead σ) (pos : Nat) :
    Nat → List RuleId → RuleId → Match σ Bool
  | 0, _, _ => throw .diverged
  | depth + 1, inspected, id =>
    match g.rule? id with
    | none => f.starts id pos
    | some rule =>
      if inspected.contains id then
        return false
      else
        Grammar.stepsStart look (f.startsWithin g look pos depth (id :: inspected)) pos rule.steps

/-- The answers about rules, with at most `depth` rules inside each other. -/
def answers (f : Fallback σ) (g : Grammar) (look : Lookahead σ)
    (matched : RuleId → Nat → Match σ Matched) : Answers σ where
  starts id pos := f.startsWithin g look pos (g.rules.length + 1) [] id
  candidates := g.candidates
  matched := matched

def matchRule (f : Fallback σ) (g : Grammar) (look : Lookahead σ) :
    Nat → RuleId → Nat → Match σ Matched
  | 0, _, _ => throw .diverged
  | depth + 1, id, pos =>
    match g.rule? id with
    | none => f.matched id pos
    | some rule => do
      let line := (← tokenAt look pos).line
      let step := Grammar.matchStepBy look (f.answers g look (f.matchRule g look depth)) depth
      let m ← Grammar.matchStepsBy step line rule.steps ⟨[], pos⟩
      return { m with nodes := Grammar.ruleNodes rule line m.nodes }

def matchAll (f : Fallback σ) (g : Grammar) (look : Lookahead σ) (depth : Nat) :
    Match σ (ParseTree × Nat) := do
  let m ← f.matchRule g look depth g.entry 0
  let last ← tokenAt look m.next
  if last.isEof then
    let first ← tokenAt look 0
    return (Grammar.treeOf first.line m.nodes, m.next)
  else
    refuse m.next "end of input"

/-- Parse all that is left of a stream, with this to do about unknown rules. -/
def parse (f : Fallback TokenStream) (g : Grammar) : EStateM ParseError TokenStream ParseTree := fun s =>
  let added := g.keywords.words.filter (!s.isReserved ·)
  match f.matchAll g TokenStream.peek (g.depthFor s.size) ⟨s.reserveAll added, .start⟩ with
  | .ok (tree, count) p => .ok tree (p.source.advance count)
  | .error stop p =>
    let (e, s') := Grammar.errorOf TokenStream.peek stop p
    .error e (s'.releaseAll added)

/-- From rules that satisfy `K` only such rules are looked up, and where one of them is not there,
the same is done as always. -/
structure Idle (f : Fallback σ) (g : Grammar) (K : RuleId → Prop) : Prop where
  passes : ∀ id body, K id → g.rule? id = some body → ∀ step ∈ body.steps, ∀ id' ∈ step.references, K id'
  starts : ∀ id, K id → g.rule? id = none → f.starts id = plain.starts id
  matched : ∀ id, K id → g.rule? id = none → f.matched id = plain.matched id

section
variable {f : Fallback σ} {g : Grammar} {K : RuleId → Prop} {look : Lookahead σ} (h : f.Idle g K)
include h

theorem Idle.startsWithin_eq (pos depth : Nat) (inspected : List RuleId) {id : RuleId} (hid : K id) :
    f.startsWithin g look pos depth inspected id = g.startsWithin look pos depth inspected id := by
  induction depth generalizing inspected id with
  | zero => rfl
  | succ depth ih =>
    unfold startsWithin Grammar.startsWithin
    cases hbody : g.rule? id with
    | none => exact congrFun (h.starts id hid hbody) pos
    | some body =>
      have hsteps := Grammar.stepsStart_congr look (fun id' hid' => ih (id :: inspected) hid') pos
        (h.passes id body hid hbody)
      dsimp only
      rw [hsteps]

variable (look) in
theorem Idle.agree_answers {matched matched' : RuleId → Nat → Match σ Matched}
    (hmatched : ∀ id, K id → matched' id = matched id) :
    (g.answers look matched).Agree (fun id => id) K (f.answers g look matched') where
  starts id hid := funext fun pos => h.startsWithin_eq pos _ [] hid
  candidates ids _ word := by simp [answers, Grammar.answers]
  among ids word id hid := (Grammar.mem_candidates.mp hid).1
  matched := hmatched

theorem Idle.matchRule_eq (depth : Nat) {id : RuleId} (hid : K id) :
    f.matchRule g look depth id = g.matchRule look depth id := by
  induction depth generalizing id with
  | zero => rfl
  | succ depth ih =>
    funext pos
    unfold matchRule Grammar.matchRule
    cases hbody : g.rule? id with
    | none => exact congrFun (h.matched id hid hbody) pos
    | some body =>
      have hanswers := h.agree_answers look fun id hid => ih hid
      dsimp only
      apply bind_congr
      intro t
      rw [Grammar.matchSteps_eq_matchStepsBy,
        Grammar.matchStepsBy_congr hanswers depth t.line (h.passes id body hid hbody)]

end

/-- Where nothing else is done about unknown rules, or none is ever looked up, the parse is the same. -/
theorem Idle.parse_eq {f : Fallback TokenStream} {g : Grammar} {K : RuleId → Prop} (h : f.Idle g K)
    (hentry : K g.entry) (s : TokenStream) : f.parse g s = g.parse s := by
  have hall : ∀ depth, f.matchAll g TokenStream.peek depth = g.matchAll TokenStream.peek depth := by
    intro depth
    rw [matchAll, Grammar.matchAll, h.matchRule_eq depth hentry]
  rw [parse, hall]
  rfl

/-- If all that is done is what matching does anyway, the parse is the parse. -/
theorem plain_parse (g : Grammar) : plain.parse g = g.parse :=
  funext fun s => Idle.parse_eq (K := fun _ => True)
    ⟨fun _ _ _ _ _ _ _ _ => trivial, fun _ _ _ => rfl, fun _ _ _ => rfl⟩ trivial s

theorem idle_of_closed {g : Grammar} (hg : g.Closed) (f : Fallback σ) : f.Idle g (· < g.rules.length) := by
  have hknown : ∀ id, id < g.rules.length → g.rule? id ≠ none := by
    intro id hid hnone
    rw [Grammar.rule?, List.getElem?_eq_getElem hid] at hnone
    cases hnone
  exact ⟨fun id body _ hbody => hg.references id body hbody,
    fun id hid hnone => absurd hnone (hknown id hid), fun id hid hnone => absurd hnone (hknown id hid)⟩

end Fallback

/-! ## Closing and parsing -/

/-- After any calls, of which those that fail change nothing, an arena closes to a grammar exactly if
every rule in it has a body and the entry and all numbers mentioned belong to rules. It holds the
rules declared and added, and all of them have a body if each that is declared is given one
afterwards. A parse with the grammar never comes to an unknown rule, from whatever stream: nothing
that could be done about one changes any parse. -/
theorem build_admits_closed (calls : List ArenaCall) (entry : RuleId) :
    let a := ArenaCall.attemptAll .empty calls
    ((∃ g, a.build entry = .ok g) ↔ a.Closed entry) ∧
    a.slots.length = ArenaCall.entered calls ∧
    ((∀ slot ∈ a.slots, slot.rule? ≠ none) ↔ ArenaCall.DefinesDeclared 0 calls) ∧
    ∀ g, a.build entry = .ok g → ∀ (f : Fallback TokenStream) s, f.parse g s = g.parse s := by
  intro a
  refine ⟨a.exists_build_iff entry, ?_, ?_, fun g hbuild f s => ?_⟩
  · exact (ArenaCall.length_attemptAll .empty calls).trans (Nat.zero_add _)
  · have hempty : ArenaCall.Fills calls Arena.empty.slots := by
      intro id name hslot
      cases hslot
    exact (ArenaCall.bodies_attemptAll .empty calls).trans (and_iff_right hempty)
  · have hclosed := Grammar.closed_of_build hbuild
    exact (Fallback.idle_of_closed hclosed f).parse_eq hclosed.entry s

/-- Calls for numbers in brackets, nested to any depth. The first body comes too early, for a rule that
is not there, and the last too late, for one that has a body already. -/
def nestedCalls : List ArenaCall :=
  [.define 0 (.plain []), .declare "list", .add (.plain [.token .number]),
    .add (.plain [.choice [0, 1]]),
    .define 0 (.labeled "list" [.separator "[", .many 2, .separator "]"]), .define 1 (.plain [])]

theorem build_admits_closed_sample : (ArenaCall.attemptAll .empty nestedCalls).Closed 0 ∧
    ArenaCall.DefinesDeclared 0 nestedCalls ∧
    ∃ g, (ArenaCall.attemptAll .empty nestedCalls).build 0 = .ok g ∧
      ∀ (f : Fallback TokenStream) s, f.parse g s = g.parse s := by
  obtain ⟨hclosed, -, hbodies, hparse⟩ := build_admits_closed nestedCalls 0
  obtain ⟨g, hbuild⟩ : ∃ g, (ArenaCall.attemptAll .empty nestedCalls).build 0 = .ok g := ⟨_, rfl⟩
  have h := hclosed.mp ⟨g, hbuild⟩
  exact ⟨h, hbodies.mp h.defined, g, hbuild, hparse g hbuild⟩

/-- With rules missing, what is done about them shows. -/
example : (⟨fun _ _ => return true, fun _ pos => return ⟨[], pos⟩⟩ : Fallback TokenStream).parse
      ⟨[], 0, .empty⟩ (.ofBytes .standard []) ≠
    Grammar.parse ⟨[], 0, .empty⟩ (.ofBytes .standard []) :=
  fun h => nomatch h

end HandlerGrammar
