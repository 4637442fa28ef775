import HandlerGrammar.Proofs.Matching.Prediction
import HandlerGrammar.Proofs.Matching.References
import Mathlib.Data.Nat.Find

/-! # Inspections that share one trail

Prediction and the search for a leading literal go from a rule to the rules it begins with, and cut
off a rule that they are inside of. The rules they are inside of can be handed down from call to
call. They can as well stand on one trail that all the calls write to: a rule goes on it before its
steps are inspected, and what is last on it comes off when that inspection ends, with an answer or
without. The two agree as each inspection leaves the trail as it found it, so that the next
alternative is inspected like the first one. Neither goes on forever, through rules that begin with
each other in cycles either, since each rule it goes into is one less to go into.

* `Trailed`, `Progress.on`: a source beside a trail;
* `Inspection.inside`: an inspection of one rule;
* `Inspection.startsWithin`, `Inspection.leadingLiteralWithin`: inspections that share the trail;
* `Restores`: on a trail a match ends as another one does, and the trail is the same after it;
* `Ends`: a match gives an answer unless it comes upon a text that is no token;
* `inspections_restore`: inspections end, at every token and in every grammar, and restore the
  trail. -/
namespace HandlerGrammar
set_option autoImplicit false

/-- A source with the rules under inspection, the innermost one first. -/
structure Trailed (σ : Type) where
  source : σ
  trail : List RuleId

variable {σ α β : Type}

def Progress.on (trail : List RuleId) (p : Progress σ) : Progress (Trailed σ) :=
  ⟨⟨p.source, trail⟩, p.frontier⟩

/-- The end of a match, with the trail beside its source. -/
def endOn (trail : List RuleId) :
    EStateM.Result Stop (Progress σ) α → EStateM.Result Stop (Progress (Trailed σ)) α
  | .ok a p => .ok a (p.on trail)
  | .error e p => .error e (p.on trail)

namespace Inspection

/-! ## One trail for all -/

/-- Looking into the source. -/
def through (look : Lookahead σ) : Lookahead (Trailed σ) := fun k s =>
  match look k s.source with
  | .ok t source => .ok t { s with source }
  | .error e source => .error e { s with source }

def enter (id : RuleId) (p : Progress (Trailed σ)) : Progress (Trailed σ) :=
  { p with source := { p.source with trail := id :: p.source.trail } }

def leave (p : Progress (Trailed σ)) : Progress (Trailed σ) :=
  { p with source := { p.source with trail := p.source.trail.tail } }

/-- Inspect a rule: its number is on the trail until the inspection ends. -/
def inside (id : RuleId) (m : Match (Trailed σ) α) : Match (Trailed σ) α := fun p =>
  match m (enter id p) with
  | .ok a p' => .ok a (leave p')
  | .error e p' => .error e (leave p')

/-- Whether a rule can start, inspecting at most `depth` rules inside each other. -/
def startsWithin (g : Grammar) (look : Lookahead σ) (pos : Nat) :
    Nat → RuleId → Match (Trailed σ) Bool
  | 0, _ => throw .diverged
  | depth + 1, id =>
    match g.rule? id with
    | none => return false
    | some rule => do
      if (← get).source.trail.contains id then
        return false
      else
        inside id (Grammar.stepsStart (through look) (startsWithin g look pos depth) pos rule.steps)

/-- The literal with which a rule begins, inspecting at most `depth` rules inside each other. -/
def leadingLiteralWithin (g : Grammar) : Nat → RuleId → Match (Trailed σ) (Option String)
  | 0, _ => throw .diverged
  | depth + 1, id =>
    match g.rule? id with
    | none => return none
    | some rule => do
      if (← get).source.trail.contains id then
        return none
      else
        inside id (match rule.steps with
          | .terminal x :: _ => return x.literal?
          | .rule inner :: _ => leadingLiteralWithin g depth inner
          | _ => return none)

end Inspection

/-! ## Matches that restore the trail -/

/-- On the trail `m'` ends as `m` does, with the trail as it was. -/
def Restores (trail : List RuleId) (m' : Match (Trailed σ) α) (m : Match σ α) : Prop :=
  ∀ p, m' (p.on trail) = endOn trail (m p)

section
variable {trail : List RuleId}

theorem restores_pure (a : α) : Restores trail (pure a) (pure a : Match σ α) := fun _ => rfl

theorem restores_bind {m' : Match (Trailed σ) α} {m : Match σ α} {f' : α → Match (Trailed σ) β}
    {f : α → Match σ β} (hm : Restores trail m' m) (hf : ∀ a, Restores trail (f' a) (f a)) :
    Restores trail (m' >>= f') (m >>= f) := by
  intro p
  show EStateM.bind m' f' (p.on trail) = endOn trail (EStateM.bind m f p)
  unfold EStateM.bind
  rw [hm p]
  cases m p with
  | ok a q => exact hf a q
  | error e q => rfl

theorem restores_tokenAt (look : Lookahead σ) (pos : Nat) :
    Restores trail (tokenAt (Inspection.through look) pos) (tokenAt look pos) := by
  intro p
  simp only [tokenAt, Inspection.through, Progress.on]
  cases look pos p.source <;> rfl

theorem restores_test (look : Lookahead σ) (pos : Nat) (x : Terminal) :
    Restores trail (test (Inspection.through look) pos x) (test look pos x) := by
  apply restores_bind (restores_tokenAt look pos)
  intro t
  by_cases hx : x.accepts t = true
  · simpa only [if_pos hx] using restores_pure (some t)
  · simp only [if_neg hx]
    exact fun _ => rfl

theorem restores_anyStarts {starts' : RuleId → Match (Trailed σ) Bool}
    {starts : RuleId → Match σ Bool} (h : ∀ id, Restores trail (starts' id) (starts id))
    (ids : List RuleId) :
    Restores trail (Grammar.anyStarts starts' ids) (Grammar.anyStarts starts ids) := by
  induction ids with
  | nil => exact restores_pure false
  | cons id ids ih =>
    apply restores_bind (h id)
    intro b
    cases b with
    | true => exact restores_pure true
    | false => exact ih

theorem restores_stepsStart (look : Lookahead σ) {starts' : RuleId → Match (Trailed σ) Bool}
    {starts : RuleId → Match σ Bool} (h : ∀ id, Restores trail (starts' id) (starts id)) (pos : Nat)
    (steps : List Step) :
    Restores trail (Grammar.stepsStart (Inspection.through look) starts' pos steps)
      (Grammar.stepsStart look starts pos steps) := by
  induction steps with
  | nil => exact restores_pure true
  | cons step steps ih =>
    cases step with
    | terminal x =>
      apply restores_bind (restores_test look pos x)
      intro o
      exact restores_pure o.isSome
    | rule id => exact h id
    | optional id | many id =>
      apply restores_bind (h id)
      intro b
      cases b with
      | true => exact restores_pure true
      | false => exact ih
    | choice ids | dispatch ids => exact restores_anyStarts h ids
    | gather label members => exact ih

/-- What an inspection leaves on top of the trail is the rule that was put there. -/
theorem restores_inside {id : RuleId} {m' : Match (Trailed σ) α} {m : Match σ α}
    (h : Restores (id :: trail) m' m) : Restores trail (Inspection.inside id m') m := by
  intro p
  have hm : m' (Inspection.enter id (p.on trail)) = endOn (id :: trail) (m p) := h p
  simp only [Inspection.inside, hm]
  cases m p <;> rfl

/-- An inspection first looks for its rule on the trail. -/
theorem restores_unless_on {id : RuleId} {m' n' : Match (Trailed σ) α} {m : Match σ α}
    (hon : id ∈ trail → Restores trail n' m) (hoff : id ∉ trail → Restores trail m' m) :
    Restores trail (get >>= fun p => if p.source.trail.contains id then n' else m') m := by
  intro p
  show (if trail.contains id then n' else m') (p.on trail) = _
  by_cases hid : id ∈ trail
  · simpa [hid] using hon hid p
  · simpa [hid] using hoff hid p

theorem restores_startsWithin (g : Grammar) (look : Lookahead σ) (pos depth : Nat)
    (trail : List RuleId) (id : RuleId) :
    Restores trail (Inspection.startsWithin g look pos depth id)
      (g.startsWithin look pos depth trail id) := by
  induction depth generalizing trail id with
  | zero => exact fun _ => rfl
  | succ depth ih =>
    unfold Inspection.startsWithin Grammar.startsWithin
    cases g.rule? id with
    | none => exact restores_pure false
    | some rule =>
      apply restores_unless_on <;> intro hid
      · simpa [hid] using restores_pure false
      · simpa [hid] using restores_inside (restores_stepsStart look (ih (id :: trail)) pos rule.steps)

end

/-! ## Matches that end -/

/-- The match gives an answer, or it comes upon a text that is no token. -/
def Ends (m : Match σ α) : Prop :=
  Ensures (fun _ => True) m (fun _ => True) fun e => ∃ l, e = .lexical l

theorem ends_pure (a : α) : Ends (pure a : Match σ α) := ensures_pure trivial

theorem ends_tokenAt (look : Lookahead σ) (pos : Nat) : Ends (tokenAt look pos) := by
  intro p _
  unfold tokenAt
  cases look pos p.source with
  | ok t s => exact ⟨trivial, trivial⟩
  | error l s => exact ⟨trivial, l, rfl⟩

theorem ends_test (look : Lookahead σ) (pos : Nat) (x : Terminal) : Ends (test look pos x) := by
  apply ensures_bind (ends_tokenAt look pos)
  intro t _
  by_cases hx : x.accepts t = true
  · simp only [if_pos hx]
    exact ends_pure (some t)
  · simp only [if_neg hx]
    exact ensures_bind (ensures_expect pos x.describe (Q := fun _ => True) trivial) fun _ _ =>
      ends_pure none

theorem ends_anyStarts {starts : RuleId → Match σ Bool} (h : ∀ id, Ends (starts id))
    (ids : List RuleId) : Ends (Grammar.anyStarts starts ids) := by
  induction ids with
  | nil => exact ends_pure false
  | cons id ids ih =>
    apply ensures_bind (h id)
    intro b _
    cases b with
    | true => exact ends_pure true
    | false => exact ih

theorem ends_stepsStart (look : Lookahead σ) {starts : RuleId → Match σ Bool}
    (h : ∀ id, Ends (starts id)) (pos : Nat) (steps : List Step) :
    Ends (Grammar.stepsStart look starts pos steps) := by
  induction steps with
  | nil => exact ends_pure true
  | cons step steps ih =>
    cases step with
    | terminal x => exact ensures_bind (ends_test look pos x) fun o _ => ends_pure o.isSome
    | rule id => exact h id
    | optional id | many id =>
      apply ensures_bind (h id)
      intro b _
      cases b with
      | true => exact ends_pure true
      | false => exact ih
    | choice ids | dispatch ids => exact ends_anyStarts h ids
    | gather label members => exact ih

namespace Grammar
variable {g : Grammar}

/-- A rule that can be gone into is not on the trail yet, so the depth lasts. -/
theorem ends_startsWithin (look : Lookahead σ) (pos : Nat) {depth : Nat} {trail : List RuleId}
    (hdepth : g.uninspected trail < depth) (id : RuleId) :
    Ends (g.startsWithin look pos depth trail id) := by
  induction depth generalizing trail id with
  | zero => omega
  | succ depth ih =>
    unfold startsWithin
    cases hrule : g.rule? id with
    | none => exact ends_pure false
    | some rule =>
      by_cases hid : id ∈ trail
      · simpa [hid] using ends_pure false
      · have hless := uninspected_cons_lt hrule hid
        simpa [hid] using ends_stepsStart look (ih (by omega)) pos rule.steps

/-- Depth beyond what an inspection can use changes nothing. -/
theorem startsWithin_depth (look : Lookahead σ) (pos : Nat) {depth depth' : Nat}
    {trail : List RuleId} (hdepth : g.uninspected trail < depth)
    (hdepth' : g.uninspected trail < depth') (id : RuleId) :
    g.startsWithin look pos depth trail id = g.startsWithin look pos depth' trail id := by
  induction depth generalizing depth' trail id with
  | zero => omega
  | succ depth ih =>
    obtain ⟨d, rfl⟩ : ∃ d, depth' = d + 1 := ⟨depth' - 1, by omega⟩
    rw [startsWithin, startsWithin]
    cases hrule : g.rule? id with
    | none => rfl
    | some rule =>
      by_cases hid : id ∈ trail
      · simp [hid]
      · have hless := uninspected_cons_lt hrule hid
        have hinner : ∀ i, True → g.startsWithin look pos depth (id :: trail) i =
            g.startsWithin look pos d (id :: trail) i := fun i _ => ih (by omega) (by omega) i
        have hsteps := stepsStart_congr look hinner pos fun step (_ : step ∈ rule.steps) _ _ => trivial
        simpa [hid] using hsteps

/-! ## Leading literals -/

/-- The literal with which a rule begins, looked for in rules that are not under inspection. -/
def leadingLiteralOff (g : Grammar) : Nat → List RuleId → RuleId → Option String
  | 0, _, _ => none
  | depth + 1, inspected, id =>
    match g.rule? id with
    | none => none
    | some rule =>
      if inspected.contains id then
        none
      else
        match rule.steps with
        | .terminal x :: _ => x.literal?
        | .rule inner :: _ => g.leadingLiteralOff depth (id :: inspected) inner
        | _ => none

theorem restores_leadingLiteralWithin {depth : Nat} {trail : List RuleId}
    (hdepth : g.uninspected trail < depth) (id : RuleId) :
    Restores trail (Inspection.leadingLiteralWithin g depth id)
      (pure (g.leadingLiteralOff depth trail id) : Match σ (Option String)) := by
  induction depth generalizing trail id with
  | zero => omega
  | succ depth ih =>
    unfold Inspection.leadingLiteralWithin leadingLiteralOff
    cases hrule : g.rule? id with
    | none => exact restores_pure none
    | some rule =>
      apply restores_unless_on <;> intro hid
      · simpa [hid] using restores_pure none
      · have hless := uninspected_cons_lt hrule hid
        simp only [List.contains_iff_mem, hid, if_false]
        apply restores_inside
        split
        · exact restores_pure _
        · exact ih (by omega) _
        · exact restores_pure _

theorem leadingLiteralWithin_mono {m n : Nat} (hmn : m ≤ n) {id : RuleId} {l : String}
    (h : g.leadingLiteralWithin m id = some l) : g.leadingLiteralWithin n id = some l := by
  induction m generalizing n id with
  | zero => simp [leadingLiteralWithin] at h
  | succ m ih =>
    obtain ⟨n, rfl⟩ : ∃ k, n = k + 1 := ⟨n - 1, by omega⟩
    unfold leadingLiteralWithin at h ⊢
    split at h
    · exact h
    · exact ih (by omega) h
    · simp at h

/-- No more rules are passed than are not under inspection. -/
theorem leadingLiteralWithin_of_off {depth : Nat} {inspected : List RuleId} {id : RuleId}
    {l : String} (h : g.leadingLiteralOff depth inspected id = some l) :
    g.leadingLiteralWithin (g.uninspected inspected) id = some l := by
  induction depth generalizing inspected id with
  | zero => simp [leadingLiteralOff] at h
  | succ depth ih =>
    unfold leadingLiteralOff at h
    cases hrule : g.rule? id with
    | none => simp [hrule] at h
    | some rule =>
      by_cases hid : id ∈ inspected
      · simp [hrule, hid] at h
      · have hless := uninspected_cons_lt hrule hid
        obtain ⟨n, hn⟩ : ∃ n, g.uninspected inspected = n + 1 :=
          ⟨g.uninspected inspected - 1, by omega⟩
        obtain ⟨label?, steps⟩ := rule
        simp only [hrule, List.contains_iff_mem, hid, if_false] at h
        rw [hn, leadingLiteralWithin, hrule]
        split at h
        · exact h
        · exact leadingLiteralWithin_mono (by omega) (ih h)
        · simp at h

/-- A rule that leads to a literal leads there without coming back to a rule that it passes. -/
theorem leadingLiteralOff_of_within {depth n : Nat} {inspected : List RuleId} {id : RuleId}
    {l : String} (hdepth : g.uninspected inspected < depth)
    (hoff : ∀ j ∈ inspected, g.leadingLiteralWithin n j ≠ some l)
    (h : g.leadingLiteralWithin n id = some l) :
    g.leadingLiteralOff depth inspected id = some l := by
  induction depth generalizing n inspected id with
  | zero => omega
  | succ depth ih =>
    have hid : id ∉ inspected := fun hmem => hoff id hmem h
    -- the least depth that finds the literal: from there on `id` is not met again
    have hleads : ∃ k, g.leadingLiteralWithin k id = some l := ⟨n, h⟩
    obtain ⟨k, hk, hmin⟩ : ∃ k, g.leadingLiteralWithin k id = some l ∧
        ∀ i < k, g.leadingLiteralWithin i id ≠ some l :=
      ⟨Nat.find hleads, Nat.find_spec hleads, fun _ hi => Nat.find_min hleads hi⟩
    have hkn : k ≤ n := Nat.le_of_not_lt fun hlt => hmin n hlt h
    cases k with
    | zero => simp [leadingLiteralWithin] at hk
    | succ k =>
      unfold leadingLiteralWithin at hk
      unfold leadingLiteralOff
      split at hk
      · next hrule => simpa [hrule, hid] using hk
      · next _ inner _ hrule =>
        have hless := uninspected_cons_lt hrule hid
        have hpassed : ∀ j ∈ id :: inspected, g.leadingLiteralWithin k j ≠ some l :=
          List.forall_mem_cons.mpr ⟨hmin k (Nat.lt_succ_self k), fun j hj hleads =>
            hoff j hj (leadingLiteralWithin_mono (by omega) hleads)⟩
        have hinner : g.leadingLiteralOff depth (id :: inspected) inner = some l :=
          ih (by omega) hpassed hk
        simpa [hrule, hid] using hinner
      · simp at hk

theorem leadingLiteralOff_nil {depth : Nat} (hdepth : g.rules.length < depth) (id : RuleId) :
    g.leadingLiteralOff depth [] id = g.leadingLiteral id := by
  have hle := g.uninspected_le []
  apply Option.ext
  intro l
  constructor
  · intro h
    exact leadingLiteralWithin_mono hle (leadingLiteralWithin_of_off h)
  · intro h
    exact leadingLiteralOff_of_within (by omega) (fun _ hj => absurd hj List.not_mem_nil) h

/-! ## Inspections in every grammar -/

/-- Whatever a grammar's rules refer to and whatever stands at a position, inspections with a rule
more of depth than there are rules end: with an answer, or at a text that is no token. Those that
share one trail leave it as it was and end as those that are handed the rules under inspection, the
same ones to each of several alternatives; so an alternative is let in if and only if a chain that
meets no rule under inspection leads from it to the token, whatever has been cut off in those before
it. More depth changes nothing. The search for a leading literal finds it, on no trail, as far as
the rules lead. -/
theorem inspections_restore (g : Grammar) (look : Lookahead σ) (pos : Nat) {depth : Nat}
    (hdepth : g.rules.length < depth) (trail : List RuleId) :
    (∀ id, Ends (g.startsWithin look pos depth trail id) ∧
      Restores trail (Inspection.startsWithin g look pos depth id)
        (g.startsWithin look pos depth trail id)) ∧
    (∀ steps, Ends (stepsStart look (g.startsWithin look pos depth trail) pos steps) ∧
      Restores trail
        (stepsStart (Inspection.through look) (Inspection.startsWithin g look pos depth) pos steps)
        (stepsStart look (g.startsWithin look pos depth trail) pos steps)) ∧
    (∀ ids, Ends (anyStarts (g.startsWithin look pos depth trail) ids) ∧
      Restores trail (anyStarts (Inspection.startsWithin g look pos depth) ids)
        (anyStarts (g.startsWithin look pos depth trail) ids)) ∧
    (∀ I E t, Ensures I (tokenAt look pos) (· = t) E → ∀ ids,
      Ensures I (anyStarts (g.startsWithin look pos depth trail) ids)
        (fun b => b = true ↔ ∃ id ∈ ids, ∃ n, g.BeginsWithin t trail n id) E) ∧
    (∀ id, g.startsWithin look pos depth trail id =
      g.startsWithin look pos (g.rules.length + 1) trail id) ∧
    (∀ id, ∃ literal?, Restores trail (Inspection.leadingLiteralWithin g depth id)
      (pure literal? : Match σ (Option String))) ∧
    ∀ id, Restores [] (Inspection.leadingLiteralWithin g depth id)
      (pure (g.leadingLiteral id) : Match σ (Option String)) := by
  have hfree : ∀ inspected, g.uninspected inspected < depth := fun inspected =>
    Nat.lt_of_le_of_lt (g.uninspected_le inspected) hdepth
  have hends := g.ends_startsWithin look pos (hfree trail)
  have hrestores := restores_startsWithin g look pos depth trail
  refine ⟨fun id => ⟨hends id, hrestores id⟩, fun steps => ?_, fun ids => ?_, ?_, fun id => ?_,
    fun id => ?_, fun id => ?_⟩
  · exact ⟨ends_stepsStart look hends pos steps, restores_stepsStart look hrestores pos steps⟩
  · exact ⟨ends_anyStarts hends ids, restores_anyStarts hrestores ids⟩
  · intro I E t hlook ids
    exact ensures_anyStarts (ensures_startsWithin hlook depth trail (hfree trail)) ids
  · exact startsWithin_depth look pos (hfree trail)
      (Nat.lt_succ_of_le (g.uninspected_le trail)) id
  · exact ⟨_, restores_leadingLiteralWithin (hfree trail) id⟩
  · rw [← leadingLiteralOff_nil hdepth]
    exact restores_leadingLiteralWithin (hfree []) id

/-- Sums that begin with the expression they belong to, and numbers. -/
def leftRecursive : Grammar :=
  ⟨[⟨"expression", ⟨none, [.choice [1, 2]]⟩⟩,
    ⟨"sum", ⟨none, [.rule 0, .terminal (.separator "+"), .rule 0]⟩⟩,
    ⟨"number", ⟨none, [.optional 0, .terminal (.token .number)]⟩⟩], 0,
    .ofList []⟩

/-- Inside an expression a sum is cut off, and the number after it is found. -/
theorem inspections_restore_leftRecursive :
    leftRecursive.rules.length < 4 ∧
    anyStarts (Inspection.startsWithin leftRecursive
        (fun _ => pure ⟨.integer, 1, "1", .integer 1⟩) 0 4) [1, 2] (Progress.on [0] ⟨(), .start⟩) =
      .ok true (Progress.on [0] ⟨(), .start⟩) := by
  have hdepth : leftRecursive.rules.length < 4 := by decide
  refine ⟨hdepth, ?_⟩
  exact ((inspections_restore leftRecursive _ 0 hdepth [0]).2.2.1 [1, 2]).2 ⟨(), .start⟩

end Grammar
end HandlerGrammar
