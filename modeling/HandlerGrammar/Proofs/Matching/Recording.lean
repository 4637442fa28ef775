import HandlerGrammar.Grammar.Parse
import HandlerGrammar.Proofs.Matching.Frontier

/-! # Matches that record their tests

A recorded match does what a match does and writes down every test on the way: those of prediction,
and those in branches that come to nothing, too. A choice that has nothing to try and a token behind
the match that is not the end of input are failed tests like those of a terminal.

* `Test`, `Recorded`: a test, and a source with the tests made so far;
* `Recording.matchRule`, `Recording.matchAll`: recorded matches;
* `Records`: without what it has written down, a match is another one;
* `records_matchAll`: without what it has written down, a recorded match is the match. -/
namespace HandlerGrammar
set_option autoImplicit false

/-- A test of the token at a position, by what was expected there. -/
structure Test where
  position : Nat
  expectation : String
  passed : Bool
  deriving DecidableEq, Repr

/-- A source with the tests made so far, first one first. -/
structure Recorded (σ : Type) where
  source : σ
  tests : List Test

variable {σ α β : Type}

namespace Recording

/-! ## Recorded matches -/

/-- Looking into the source. -/
def through (look : Lookahead σ) : Lookahead (Recorded σ) := fun k r =>
  match look k r.source with
  | .ok t source => .ok t { r with source }
  | .error e source => .error e { r with source }

def record (t : Test) : Match (Recorded σ) Unit :=
  modify fun p => { p with source := { p.source with tests := p.source.tests ++ [t] } }

def refuse (pos : Nat) (what : String) : Match (Recorded σ) α := do
  record ⟨pos, what, false⟩
  HandlerGrammar.refuse pos what

def test (look : Lookahead σ) (pos : Nat) (x : Terminal) : Match (Recorded σ) (Option Token) := do
  let o ← HandlerGrammar.test (through look) pos x
  record ⟨pos, x.describe, o.isSome⟩
  return o

def stepsStart (look : Lookahead σ) (starts : RuleId → Match (Recorded σ) Bool) (pos : Nat) :
    List Step → Match (Recorded σ) Bool
  | [] => return true
  | .terminal x :: _ => return (← test look pos x).isSome
  | .rule id :: _ => starts id
  | .optional id :: steps | .many id :: steps => do
    if ← starts id then
      return true
    else
      stepsStart look starts pos steps
  | .choice ids :: _ | .dispatch ids :: _ => Grammar.anyStarts starts ids
  | .gather _ _ :: steps => stepsStart look starts pos steps

def startsWithin (g : Grammar) (look : Lookahead σ) (pos : Nat) :
    Nat → List RuleId → RuleId → Match (Recorded σ) Bool
  | 0, _, _ => throw .diverged
  | depth + 1, inspected, id =>
    match g.rule? id with
    | none => return false
    | some rule =>
      if inspected.contains id then
        return false
      else
        stepsStart look (startsWithin g look pos depth (id :: inspected)) pos rule.steps

def starts (g : Grammar) (look : Lookahead σ) (id : RuleId) (pos : Nat) : Match (Recorded σ) Bool :=
  startsWithin g look pos (g.rules.length + 1) [] id

def matchTerminal (look : Lookahead σ) (x : Terminal) (pos : Nat) : Match (Recorded σ) Matched := do
  match ← test look pos x with
  | some t => return ⟨if x.isKept then [.leaf none t] else [], pos + 1⟩
  | none => throw .mismatch

def matchChoice (matchRef : RuleId → Nat → Match (Recorded σ) Matched) (ids : List RuleId)
    (pos : Nat) : Match (Recorded σ) Matched :=
  if ids.isEmpty then refuse pos "a known key" else Grammar.matchFirst matchRef pos ids

def matchStep (g : Grammar) (look : Lookahead σ)
    (matchRef : RuleId → Nat → Match (Recorded σ) Matched) (count : Nat) (step : Step) (pos : Nat) :
    Match (Recorded σ) Matched :=
  match step with
  | .terminal x => matchTerminal look x pos
  | .rule id => matchRef id pos
  | .optional id => do
    if ← starts g look id pos then
      matchRef id pos
    else
      return ⟨[], pos⟩
  | .many id => Grammar.matchMany (starts g look id) (matchRef id) count pos
  | .choice ids => matchChoice matchRef ids pos
  | .dispatch ids => do
    let t ← tokenAt (through look) pos
    matchChoice matchRef (g.candidates ids t.word) pos
  | .gather _ _ => return ⟨[], pos⟩

def matchSteps (g : Grammar) (look : Lookahead σ)
    (matchRef : RuleId → Nat → Match (Recorded σ) Matched) (count line : Nat) :
    List Step → Matched → Match (Recorded σ) Matched
  | [], m => return m
  | .gather label members :: steps, m =>
    matchSteps g look matchRef count line steps
      { m with nodes := ParseTree.gather label members line m.nodes }
  | step :: steps, m => do
    let one ← matchStep g look matchRef count step m.next
    matchSteps g look matchRef count line steps ⟨m.nodes ++ one.nodes, one.next⟩

def matchRule (g : Grammar) (look : Lookahead σ) :
    Nat → RuleId → Nat → Match (Recorded σ) Matched
  | 0, _, _ => throw .diverged
  | depth + 1, id, pos =>
    match g.rule? id with
    | none => refuse pos ("rule " ++ toString id)
    | some rule => do
      let line := (← tokenAt (through look) pos).line
      let m ← matchSteps g look (matchRule g look depth) depth line rule.steps ⟨[], pos⟩
      return { m with nodes := Grammar.ruleNodes rule line m.nodes }

/-- The end of input is tested for as well. -/
def matchAll (g : Grammar) (look : Lookahead σ) (depth : Nat) :
    Match (Recorded σ) (ParseTree × Nat) := do
  let m ← matchRule g look depth g.entry 0
  let last ← tokenAt (through look) m.next
  if last.isEof then
    record ⟨m.next, "end of input", true⟩
    let first ← tokenAt (through look) 0
    return (Grammar.treeOf first.line m.nodes, m.next)
  else
    refuse m.next "end of input"

theorem matchSteps_cons (g : Grammar) (look : Lookahead σ)
    (matchRef : RuleId → Nat → Match (Recorded σ) Matched) (count line : Nat) {step : Step}
    (hstep : ∀ label members, step ≠ .gather label members) (steps : List Step) (m : Matched) :
    matchSteps g look matchRef count line (step :: steps) m =
      matchStep g look matchRef count step m.next >>= fun one =>
        matchSteps g look matchRef count line steps ⟨m.nodes ++ one.nodes, one.next⟩ := by
  cases step with
  | gather label members => exact absurd rfl (hstep label members)
  | _ => rfl

end Recording

/-! ## Without what is written down -/

def Progress.plain (p : Progress (Recorded σ)) : Progress σ := ⟨p.source.source, p.frontier⟩

/-- The end of a recorded match without what it has written down. -/
def plainly : EStateM.Result Stop (Progress (Recorded σ)) α → EStateM.Result Stop (Progress σ) α
  | .ok a p => .ok a p.plain
  | .error stop p => .error stop p.plain

/-- Without what it has written down, the first match is the second. -/
def Records (m : Match (Recorded σ) α) (m' : Match σ α) : Prop := ∀ p, plainly (m p) = m' p.plain

theorem records_pure (a : α) : Records (pure a : Match (Recorded σ) α) (pure a) := fun _ => rfl

theorem records_throw (stop : Stop) :
    Records (throw stop : Match (Recorded σ) α) (throw stop) :=
  fun _ => rfl

theorem records_bind {m : Match (Recorded σ) α} {m' : Match σ α}
    {f : α → Match (Recorded σ) β} {f' : α → Match σ β} (hm : Records m m')
    (hf : ∀ a, Records (f a) (f' a)) : Records (m >>= f) (m' >>= f') := by
  intro p
  change plainly (EStateM.bind m f p) = EStateM.bind m' f' p.plain
  unfold EStateM.bind
  rw [← hm p]
  cases m p with
  | ok a q => exact hf a q
  | error stop q => rfl

theorem records_record (t : Test) :
    Records (Recording.record t : Match (Recorded σ) Unit) (pure ()) :=
  fun _ => rfl

theorem records_refuse (pos : Nat) (what : String) :
    Records (Recording.refuse pos what : Match (Recorded σ) α) (refuse pos what) :=
  fun _ => rfl

/-- A recorded match keeps the contracts of the match. -/
theorem Records.secures {m : Match (Recorded σ) α} {m' : Match σ α} (h : Records m m')
    {Pre Refused : Progress σ → Prop} {Post : α → Progress σ → Prop}
    (hm : Secures Pre m' Post Refused) :
    Secures (fun p => Pre p.plain) m (fun a p => Post a p.plain) (fun p => Refused p.plain) := by
  intro p hp
  have hplain := hm p.plain hp
  rw [← h p] at hplain
  cases hmp : m p with
  | ok a q =>
    rw [hmp] at hplain
    exact hplain
  | error e q =>
    rw [hmp] at hplain
    cases e with
    | mismatch => exact hplain
    | lexical e => trivial
    | diverged => trivial

section
variable (look : Lookahead σ)

theorem records_tokenAt (pos : Nat) :
    Records (tokenAt (Recording.through look) pos) (tokenAt look pos) := by
  intro p
  unfold tokenAt Recording.through Progress.plain
  cases look pos p.source.source <;> rfl

theorem records_test (pos : Nat) (x : Terminal) :
    Records (Recording.test look pos x) (test look pos x) := by
  have htest : Records (test (Recording.through look) pos x) (test look pos x) := by
    refine records_bind (records_tokenAt look pos) fun t => ?_
    split
    · exact records_pure _
    · exact fun _ => rfl
  rw [← bind_pure (test look pos x)]
  exact records_bind htest fun o => records_bind (records_record _) fun _ => records_pure o

namespace Grammar

variable (g : Grammar)

theorem records_anyStarts {starts : RuleId → Match (Recorded σ) Bool}
    {starts' : RuleId → Match σ Bool} (hstarts : ∀ id, Records (starts id) (starts' id))
    (ids : List RuleId) : Records (anyStarts starts ids) (anyStarts starts' ids) := by
  induction ids with
  | nil => exact records_pure _
  | cons id ids ih =>
    refine records_bind (hstarts id) fun b => ?_
    cases b with
    | true => exact records_pure _
    | false => exact ih

theorem records_stepsStart {starts : RuleId → Match (Recorded σ) Bool}
    {starts' : RuleId → Match σ Bool} (hstarts : ∀ id, Records (starts id) (starts' id)) (pos : Nat)
    (steps : List Step) :
    Records (Recording.stepsStart look starts pos steps) (stepsStart look starts' pos steps) := by
  induction steps with
  | nil => exact records_pure _
  | cons step steps ih =>
    cases step with
    | terminal x => exact records_bind (records_test look pos x) fun o => records_pure _
    | rule id => exact hstarts id
    | optional id | many id =>
      refine records_bind (hstarts id) fun b => ?_
      cases b with
      | true => exact records_pure _
      | false => exact ih
    | choice ids | dispatch ids => exact records_anyStarts hstarts ids
    | gather label members => exact ih

theorem records_startsWithin (pos depth : Nat) (inspected : List RuleId) (id : RuleId) :
    Records (Recording.startsWithin g look pos depth inspected id)
      (g.startsWithin look pos depth inspected id) := by
  induction depth generalizing inspected id with
  | zero => exact records_throw _
  | succ depth ih =>
    unfold Recording.startsWithin startsWithin
    cases g.rule? id with
    | none => exact records_pure _
    | some rule =>
      dsimp only
      split
      · exact records_pure _
      · exact records_stepsStart look (ih (id :: inspected)) pos rule.steps

theorem records_starts (id : RuleId) (pos : Nat) :
    Records (Recording.starts g look id pos) (g.starts look id pos) :=
  records_startsWithin look g pos _ [] id

theorem records_matchTerminal (x : Terminal) (pos : Nat) :
    Records (Recording.matchTerminal look x pos) (matchTerminal look x pos) := by
  refine records_bind (records_test look pos x) fun o => ?_
  cases o with
  | none => exact records_throw _
  | some t => exact records_pure _

section
variable {matchRef : RuleId → Nat → Match (Recorded σ) Matched}
  {matchRef' : RuleId → Nat → Match σ Matched}

theorem records_matchFirst {pos : Nat}
    (href : ∀ id, Records (matchRef id pos) (matchRef' id pos)) (ids : List RuleId) :
    Records (matchFirst matchRef pos ids) (matchFirst matchRef' pos ids) := by
  induction ids with
  | nil => exact records_throw _
  | cons id ids ih =>
    intro p
    unfold matchFirst
    rw [← href id p]
    cases matchRef id pos p with
    | ok m q => rfl
    | error stop q =>
      cases stop with
      | mismatch => exact ih q
      | lexical e => rfl
      | diverged => rfl

theorem records_matchChoice {pos : Nat}
    (href : ∀ id, Records (matchRef id pos) (matchRef' id pos)) (ids : List RuleId) :
    Records (Recording.matchChoice matchRef ids pos) (matchChoice matchRef' ids pos) := by
  unfold Recording.matchChoice matchChoice
  split
  · exact records_refuse pos _
  · exact records_matchFirst href ids

theorem records_matchMany {starts : Nat → Match (Recorded σ) Bool} {starts' : Nat → Match σ Bool}
    {matchOne : Nat → Match (Recorded σ) Matched} {matchOne' : Nat → Match σ Matched}
    (hstarts : ∀ pos, Records (starts pos) (starts' pos))
    (hone : ∀ pos, Records (matchOne pos) (matchOne' pos)) (count pos : Nat) :
    Records (matchMany starts matchOne count pos) (matchMany starts' matchOne' count pos) := by
  induction count generalizing pos with
  | zero => exact records_throw _
  | succ count ih =>
    refine records_bind (hstarts pos) fun b => ?_
    cases b with
    | false => exact records_pure _
    | true =>
      refine records_bind (hone pos) fun one => ?_
      split
      · exact records_pure _
      · exact records_bind (ih one.next) fun others => records_pure _

theorem records_matchStep (href : ∀ id pos, Records (matchRef id pos) (matchRef' id pos))
    (count : Nat) (step : Step) (pos : Nat) :
    Records (Recording.matchStep g look matchRef count step pos)
      (g.matchStep look matchRef' count step pos) := by
  cases step with
  | terminal x => exact records_matchTerminal look x pos
  | rule id => exact href id pos
  | optional id =>
    refine records_bind (records_starts look g id pos) fun b => ?_
    cases b with
    | true => exact href id pos
    | false => exact records_pure _
  | many id => exact records_matchMany (records_starts look g id) (href id) count pos
  | choice ids => exact records_matchChoice (fun id => href id pos) ids
  | dispatch ids =>
    exact records_bind (records_tokenAt look pos) fun t =>
      records_matchChoice (fun id => href id pos) _
  | gather label members => exact records_pure _

theorem records_matchSteps (href : ∀ id pos, Records (matchRef id pos) (matchRef' id pos))
    (count line : Nat) (steps : List Step) (m : Matched) :
    Records (Recording.matchSteps g look matchRef count line steps m)
      (g.matchSteps look matchRef' count line steps m) := by
  induction steps generalizing m with
  | nil => exact records_pure _
  | cons step steps ih =>
    rcases step.gather_or_ne with ⟨label, members, rfl⟩ | hstep
    · exact ih _
    · rw [Recording.matchSteps_cons g look matchRef count line hstep,
        matchSteps_cons g look matchRef' count line hstep]
      exact records_bind (records_matchStep look g href count step m.next) fun one => ih _

end

theorem records_matchRule (depth : Nat) (id : RuleId) (pos : Nat) :
    Records (Recording.matchRule g look depth id pos) (g.matchRule look depth id pos) := by
  induction depth generalizing id pos with
  | zero => exact records_throw _
  | succ depth ih =>
    unfold Recording.matchRule matchRule
    cases g.rule? id with
    | none => exact records_refuse pos _
    | some rule =>
      refine records_bind (records_tokenAt look pos) fun t => ?_
      exact records_bind (records_matchSteps look g ih depth t.line rule.steps ⟨[], pos⟩) fun m =>
        records_pure _

/-- Recording changes nothing. -/
theorem records_matchAll (depth : Nat) :
    Records (Recording.matchAll g look depth) (g.matchAll look depth) := by
  refine records_bind (records_matchRule look g depth g.entry 0) fun m => ?_
  refine records_bind (records_tokenAt look m.next) fun last => ?_
  split
  · exact records_bind (records_record _) fun _ =>
      records_bind (records_tokenAt look 0) fun first => records_pure _
  · exact records_refuse m.next _

end Grammar
end
end HandlerGrammar
