import HandlerGrammar.Proofs.Matching.Contracts

/-! # What matching asks about other rules

A step asks about the rules that it refers to and about no others: whether they can start, which of
them are candidates and what they match. So where these answers are the same, the step matches the
same, also if the rules go by other numbers there.

* `Step.rename`, `Rule.rename`: other numbers for the rules referred to;
* `Answers`, `Grammar.matchStepBy`, `Grammar.matchStepsBy`: matching with the answers as arguments;
* `Answers.Agree`: the same answers about the rules that matter;
* `stepsStart_rename`, `matchStepBy_rename`, `matchStepsBy_rename`: they give the same match. -/
namespace HandlerGrammar
set_option autoImplicit false

/-- The step with another number for each rule that it refers to. -/
def Step.rename (ρ : RuleId → RuleId) : Step → Step
  | rule id => rule (ρ id)
  | optional id => optional (ρ id)
  | many id => many (ρ id)
  | choice ids => choice (ids.map ρ)
  | dispatch ids => dispatch (ids.map ρ)
  | terminal x => terminal x
  | gather label members => gather label members

def Rule.rename (ρ : RuleId → RuleId) (r : Rule) : Rule := ⟨r.label?, r.steps.map (Step.rename ρ)⟩

namespace Step

@[simp] theorem rename_self (step : Step) : step.rename (fun id => id) = step := by
  cases step <;> simp [rename]

theorem map_rename_self (steps : List Step) : steps.map (Step.rename fun id => id) = steps :=
  List.map_id'' rename_self steps

@[simp] theorem references_rename (ρ : RuleId → RuleId) (step : Step) :
    (step.rename ρ).references = step.references.map ρ := by
  cases step <;> rfl

@[simp] theorem keywords_rename (ρ : RuleId → RuleId) (step : Step) :
    (step.rename ρ).keywords = step.keywords := by
  cases step <;> rfl

end Step

@[simp] theorem Rule.rename_self (r : Rule) : r.rename (fun id => id) = r := by
  rw [Rule.rename, Step.map_rename_self]

/-- What a match is told about rules: which of them can start at a position, which of several are
candidates at a word, and what they match. -/
structure Answers (σ : Type) where
  starts : RuleId → Nat → Match σ Bool
  candidates : List RuleId → String → List RuleId
  matched : RuleId → Nat → Match σ Matched

/-- The same answers about the rules that satisfy `K`, which go by the numbers `ρ` in the second. -/
structure Answers.Agree {σ : Type} (ρ : RuleId → RuleId) (K : RuleId → Prop) (r r' : Answers σ) :
    Prop where
  starts : ∀ id, K id → r'.starts (ρ id) = r.starts id
  candidates : ∀ ids, (∀ id ∈ ids, K id) → ∀ word,
    r'.candidates (ids.map ρ) word = (r.candidates ids word).map ρ
  among : ∀ ids word, r.candidates ids word ⊆ ids
  matched : ∀ id, K id → r'.matched (ρ id) = r.matched id

namespace Grammar

variable {σ : Type}

/-! ## Matching with the answers as arguments -/

/-- Match a step, given the answers about rules. -/
def matchStepBy (look : Lookahead σ) (r : Answers σ) (count : Nat) (step : Step) (pos : Nat) :
    Match σ Matched :=
  match step with
  | .terminal x => matchTerminal look x pos
  | .rule id => r.matched id pos
  | .optional id => do
    if ← r.starts id pos then
      r.matched id pos
    else
      return ⟨[], pos⟩
  | .many id => matchMany (r.starts id) (r.matched id) count pos
  | .choice ids => matchChoice r.matched ids pos
  | .dispatch ids => do
    let t ← tokenAt look pos
    matchChoice r.matched (r.candidates ids t.word) pos
  | .gather _ _ => return ⟨[], pos⟩

/-- Match a sequence of steps, given what each step matches. -/
def matchStepsBy (matchOne : Step → Nat → Match σ Matched) (line : Nat) :
    List Step → Matched → Match σ Matched
  | [], m => return m
  | .gather label members :: steps, m =>
    matchStepsBy matchOne line steps { m with nodes := ParseTree.gather label members line m.nodes }
  | step :: steps, m => do
    let one ← matchOne step m.next
    matchStepsBy matchOne line steps ⟨m.nodes ++ one.nodes, one.next⟩

/-- The answers of a grammar, given what its rules match. -/
def answers (g : Grammar) (look : Lookahead σ) (matched : RuleId → Nat → Match σ Matched) : Answers σ :=
  ⟨g.starts look, g.candidates, matched⟩

theorem matchStep_eq_matchStepBy (g : Grammar) (look : Lookahead σ)
    (matchRef : RuleId → Nat → Match σ Matched) (count : Nat) (step : Step) (pos : Nat) :
    g.matchStep look matchRef count step pos =
      matchStepBy look (g.answers look matchRef) count step pos := by
  cases step <;> rfl

theorem matchSteps_eq_matchStepsBy (g : Grammar) (look : Lookahead σ)
    (matchRef : RuleId → Nat → Match σ Matched) (count line : Nat) (steps : List Step) (m : Matched) :
    g.matchSteps look matchRef count line steps m =
      matchStepsBy (matchStepBy look (g.answers look matchRef) count) line steps m := by
  induction steps generalizing m with
  | nil => rfl
  | cons step steps ih =>
    cases step with
    | gather label members => exact ih _
    | _ =>
      simp only [matchSteps, matchStepsBy, matchStep_eq_matchStepBy]
      apply bind_congr
      intro one
      exact ih _

/-! ## The same answers -/

section
variable {ρ : RuleId → RuleId} {K : RuleId → Prop}

theorem anyStarts_map {starts starts' : RuleId → Match σ Bool}
    (hstarts : ∀ id, K id → starts' (ρ id) = starts id) {ids : List RuleId} (hids : ∀ id ∈ ids, K id) :
    anyStarts starts' (ids.map ρ) = anyStarts starts ids := by
  induction ids with
  | nil => rfl
  | cons id ids ih =>
    obtain ⟨hid, hids⟩ := List.forall_mem_cons.mp hids
    rw [List.map_cons, anyStarts, anyStarts, hstarts id hid, ih hids]

theorem stepsStart_rename (look : Lookahead σ) {starts starts' : RuleId → Match σ Bool}
    (hstarts : ∀ id, K id → starts' (ρ id) = starts id) (pos : Nat) {steps : List Step}
    (hsteps : ∀ step ∈ steps, ∀ id ∈ step.references, K id) :
    stepsStart look starts' pos (steps.map (Step.rename ρ)) = stepsStart look starts pos steps := by
  induction steps with
  | nil => rfl
  | cons step steps ih =>
    obtain ⟨hstep, hsteps⟩ := List.forall_mem_cons.mp hsteps
    have hrest := ih hsteps
    rw [List.map_cons]
    cases step with
    | terminal x => rfl
    | rule id => exact hstarts id (hstep id (List.mem_singleton_self id))
    | optional id | many id =>
      have hid := hstarts id (hstep id (List.mem_singleton_self id))
      simp only [Step.rename, stepsStart, hid, hrest]
    | choice ids | dispatch ids => exact anyStarts_map hstarts hstep
    | gather label members => exact hrest

section
variable {matchRef matchRef' : RuleId → Nat → Match σ Matched}
  (href : ∀ id, K id → matchRef' (ρ id) = matchRef id)
include href

theorem matchFirst_map (pos : Nat) {ids : List RuleId} (hids : ∀ id ∈ ids, K id) :
    matchFirst matchRef' pos (ids.map ρ) = matchFirst matchRef pos ids := by
  induction ids with
  | nil => rfl
  | cons id ids ih =>
    obtain ⟨hid, hids⟩ := List.forall_mem_cons.mp hids
    funext p
    simp only [List.map_cons, matchFirst, href id hid, ih hids]

theorem matchChoice_map (pos : Nat) {ids : List RuleId} (hids : ∀ id ∈ ids, K id) :
    matchChoice matchRef' (ids.map ρ) pos = matchChoice matchRef ids pos := by
  rw [matchChoice, matchChoice, List.isEmpty_map, matchFirst_map href pos hids]

end

theorem matchStepBy_rename (look : Lookahead σ) {r r' : Answers σ} (h : r.Agree ρ K r') (count : Nat)
    {step : Step} (hstep : ∀ id ∈ step.references, K id) (pos : Nat) :
    matchStepBy look r' count (step.rename ρ) pos = matchStepBy look r count step pos := by
  cases step with
  | terminal x => rfl
  | rule id => exact congrFun (h.matched id (hstep id (List.mem_singleton_self id))) pos
  | optional id | many id =>
    have hid := hstep id (List.mem_singleton_self id)
    simp only [Step.rename, matchStepBy, h.starts id hid, h.matched id hid]
  | choice ids => exact matchChoice_map h.matched pos hstep
  | dispatch ids =>
    simp only [Step.rename, matchStepBy, h.candidates ids hstep]
    apply bind_congr
    intro t
    exact matchChoice_map h.matched pos fun id hid => hstep id (h.among ids t.word hid)
  | gather label members => rfl

theorem matchStepsBy_rename {matchOne matchOne' : Step → Nat → Match σ Matched} {steps : List Step}
    (hone : ∀ step ∈ steps, ∀ pos, matchOne' (step.rename ρ) pos = matchOne step pos) (line : Nat)
    (m : Matched) : matchStepsBy matchOne' line (steps.map (Step.rename ρ)) m =
      matchStepsBy matchOne line steps m := by
  induction steps generalizing m with
  | nil => rfl
  | cons step steps ih =>
    obtain ⟨hstep, hsteps⟩ := List.forall_mem_cons.mp hone
    have hrest := ih hsteps
    have hfirst := hstep m.next
    rw [List.map_cons]
    cases step with
    | gather label members => exact hrest _
    | _ =>
      simp only [Step.rename, matchStepsBy] at hfirst ⊢
      rw [hfirst]
      apply bind_congr
      intro one
      exact hrest _

/-! ### Under the same numbers -/

theorem stepsStart_congr (look : Lookahead σ) {starts starts' : RuleId → Match σ Bool}
    (hstarts : ∀ id, K id → starts' id = starts id) (pos : Nat) {steps : List Step}
    (hsteps : ∀ step ∈ steps, ∀ id ∈ step.references, K id) :
    stepsStart look starts' pos steps = stepsStart look starts pos steps := by
  have h := stepsStart_rename (ρ := fun id => id) look hstarts pos hsteps
  rwa [Step.map_rename_self] at h

theorem matchStepsBy_congr {look : Lookahead σ} {r r' : Answers σ} (h : r.Agree (fun id => id) K r')
    (count line : Nat) {steps : List Step} (hsteps : ∀ step ∈ steps, ∀ id ∈ step.references, K id)
    (m : Matched) : matchStepsBy (matchStepBy look r' count) line steps m =
      matchStepsBy (matchStepBy look r count) line steps m := by
  have h := matchStepsBy_rename (fun step hstep pos => matchStepBy_rename look h count
    (hsteps step hstep) pos) line m
  rwa [Step.map_rename_self] at h

end
end Grammar
end HandlerGrammar
