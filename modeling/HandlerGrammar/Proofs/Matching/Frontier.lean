import HandlerGrammar.Proofs.Matching.Derivation

/-! # The frontier of a match

The frontier never moves back, whatever becomes of the branch of a match that has moved it. A match
from a position on gets to that position or beyond, and if it is refused, something has been refused
there or beyond, so the frontier stands there at least.

* `Secures`: contracts that speak of the frontier;
* `Advances`: a match from a position on;
* `advances_starts`, `advances_matchSteps`, `advances_matchRule`: prediction and matching. -/
namespace HandlerGrammar
set_option autoImplicit false

namespace Frontier

@[simp] theorem position_expect (f : Frontier) (pos : Nat) (what : String) :
    (f.expect pos what).position = max f.position pos := by
  unfold expect
  split
  · omega
  · split
    · simp only
      omega
    · split
      · omega
      · simp only
        omega

end Frontier

variable {σ α β : Type}

/-! ## Contracts about the whole state -/

/-- From a state that satisfies `Pre` the match gets to a result and a state that satisfy `Post`, or
is refused in a state that satisfies `Refused`. Nothing is said of any other end. -/
def Secures (Pre : Progress σ → Prop) (m : Match σ α) (Post : α → Progress σ → Prop)
    (Refused : Progress σ → Prop) : Prop :=
  ∀ p, Pre p → match m p with
    | .ok a p' => Post a p'
    | .error .mismatch p' => Refused p'
    | .error _ _ => True

section
variable {Pre Refused : Progress σ → Prop} {Post : α → Progress σ → Prop}

theorem secures_pure {a : α} (h : ∀ p, Pre p → Post a p) : Secures Pre (pure a) Post Refused :=
  fun p hp => h p hp

theorem secures_mismatch (h : ∀ p, Pre p → Refused p) :
    Secures Pre (throw .mismatch) Post Refused :=
  fun p hp => h p hp

theorem secures_diverged : Secures Pre (throw .diverged) Post Refused := fun _ _ => trivial

theorem secures_bind {m : Match σ α} {f : α → Match σ β} {Post' : β → Progress σ → Prop}
    (hm : Secures Pre m Post Refused) (hf : ∀ a, Secures (Post a) (f a) Post' Refused) :
    Secures Pre (m >>= f) Post' Refused := by
  intro p hp
  have h := hm p hp
  change match EStateM.bind m f p with
    | .ok a p' => Post' a p'
    | .error .mismatch p' => Refused p'
    | .error _ _ => True
  unfold EStateM.bind
  cases hm : m p with
  | ok a q =>
    rw [hm] at h
    exact hf a q h
  | error e q =>
    rw [hm] at h
    cases e with
    | mismatch => exact h
    | lexical e => trivial
    | diverged => trivial

theorem Secures.mono {m : Match σ α} {Pre' Refused' : Progress σ → Prop}
    {Post' : α → Progress σ → Prop} (h : Secures Pre m Post Refused) (hpre : ∀ p, Pre' p → Pre p)
    (hpost : ∀ a p, Post a p → Post' a p) (hrefused : ∀ p, Refused p → Refused' p) :
    Secures Pre' m Post' Refused' := by
  intro p hp
  have hmp := h p (hpre p hp)
  cases hm : m p with
  | ok a q =>
    rw [hm] at hmp
    exact hpost a q hmp
  | error e q =>
    rw [hm] at hmp
    cases e with
    | mismatch => exact hrefused q hmp
    | lexical e => trivial
    | diverged => trivial

theorem Secures.and_of_ok {m : Match σ α} {Post' : α → Progress σ → Prop}
    (h : Secures Pre m Post Refused) (hok : ∀ p a q, Pre p → m p = .ok a q → Post' a q) :
    Secures Pre m (fun a p => Post a p ∧ Post' a p) Refused := by
  intro p hp
  have hmp := h p hp
  cases hm : m p with
  | ok a q =>
    rw [hm] at hmp
    exact ⟨hmp, hok p a q hp hm⟩
  | error e q =>
    rw [hm] at hmp
    cases e with
    | mismatch => exact hmp
    | lexical e => trivial
    | diverged => trivial

/-- A contract about the source alone, of a match that is never refused. -/
theorem Ensures.secures {I : σ → Prop} {m : Match σ α} {Q : α → Prop} {E : Stop → Prop}
    (hm : Ensures I m Q E) (hE : ¬ E .mismatch) :
    Secures (fun p => I p.source) m (fun a p => I p.source ∧ Q a) Refused := by
  intro p hp
  have h := hm p hp
  cases hmp : m p with
  | ok a q =>
    rw [hmp] at h
    exact h
  | error e q =>
    rw [hmp] at h
    cases e with
    | mismatch => exact absurd h.2 hE
    | lexical e => trivial
    | diverged => trivial

theorem secures_tokenAt (look : Lookahead σ) (pos : Nat) :
    Secures (fun _ => True) (tokenAt look pos) (fun _ _ => True) Refused := by
  intro p _
  unfold tokenAt
  cases look pos p.source <;> trivial

end

/-! ## Matches from a position on -/

/-- The match gets from `pos` to `next`, or is refused at `pos` or beyond. -/
def Advances (pos : Nat) (next : α → Nat) (m : Match σ α) : Prop :=
  ∀ k, Secures (k ≤ ·.frontier.position) m (fun a p => k ≤ p.frontier.position ∧ pos ≤ next a)
    (max k pos ≤ ·.frontier.position)

section
variable {pos : Nat}

theorem advances_pure {a : α} {next : α → Nat} (h : pos ≤ next a) :
    Advances pos next (pure a : Match σ α) :=
  fun _ => secures_pure fun _ hp => ⟨hp, h⟩

theorem advances_diverged {next : α → Nat} : Advances pos next (throw .diverged : Match σ α) :=
  fun _ => secures_diverged

theorem advances_bind {m : Match σ α} {f : α → Match σ β} {next : α → Nat} {next' : β → Nat}
    (hm : Advances pos next m) (hf : ∀ a, Advances (next a) next' (f a)) :
    Advances pos next' (m >>= f) := by
  intro k
  refine secures_bind (hm k) fun a p hp => ?_
  refine (hf a k).mono (fun _ => And.left) (fun b q hq => ?_) (fun q hq => ?_) p hp
  · exact ⟨hq.1, Nat.le_trans hp.2 hq.2⟩
  · have hle := hp.2
    omega

theorem advances_tokenAt (look : Lookahead σ) (pos' : Nat) :
    Advances pos (fun _ => pos) (tokenAt look pos') := by
  intro k p hp
  unfold tokenAt
  cases look pos' p.source with
  | ok t s => exact ⟨hp, Nat.le_refl _⟩
  | error e s => trivial

theorem advances_refuse (what : String) {next : α → Nat} :
    Advances pos next (refuse pos what : Match σ α) := by
  intro k p hp
  change max k pos ≤ (p.frontier.expect pos what).position
  rw [Frontier.position_expect]
  omega

/-- A test leaves the position, and is followed by a refusal only where the frontier stands. -/
theorem secures_test (look : Lookahead σ) (x : Terminal) (k : Nat) :
    Secures (k ≤ ·.frontier.position) (test look pos x)
      (fun o p => if o.isSome then k ≤ p.frontier.position else max k pos ≤ p.frontier.position)
      (max k pos ≤ ·.frontier.position) := by
  refine secures_bind (advances_tokenAt look pos k) fun t => ?_
  split
  · exact secures_pure fun p hp => hp.1
  · intro p hp
    change max k pos ≤ (p.frontier.expect pos x.describe).position
    have hk := hp.1
    rw [Frontier.position_expect]
    omega

theorem advances_test (look : Lookahead σ) (x : Terminal) :
    Advances pos (fun _ => pos) (test look pos x) := by
  intro k
  refine (secures_test look x k).mono (fun _ => id) (fun o p hp => ⟨?_, Nat.le_refl _⟩) fun _ => id
  split at hp
  · exact hp
  · exact Nat.le_trans (Nat.le_max_left _ _) hp

end

namespace Grammar

variable {g : Grammar} {look : Lookahead σ} {pos : Nat}

/-! ## Prediction -/

theorem advances_anyStarts {starts : RuleId → Match σ Bool}
    (hstarts : ∀ id, Advances pos (fun _ => pos) (starts id)) (ids : List RuleId) :
    Advances pos (fun _ => pos) (anyStarts starts ids) := by
  induction ids with
  | nil => exact advances_pure (Nat.le_refl _)
  | cons id ids ih =>
    refine advances_bind (hstarts id) fun b => ?_
    cases b with
    | true => exact advances_pure (Nat.le_refl _)
    | false => exact ih

theorem advances_stepsStart {starts : RuleId → Match σ Bool}
    (hstarts : ∀ id, Advances pos (fun _ => pos) (starts id)) (steps : List Step) :
    Advances pos (fun _ => pos) (stepsStart look starts pos steps) := by
  induction steps with
  | nil => exact advances_pure (Nat.le_refl _)
  | cons step steps ih =>
    cases step with
    | terminal x =>
      exact advances_bind (advances_test look x) fun _ => advances_pure (Nat.le_refl _)
    | rule id => exact hstarts id
    | optional id | many id =>
      refine advances_bind (hstarts id) fun b => ?_
      cases b with
      | true => exact advances_pure (Nat.le_refl _)
      | false => exact ih
    | choice ids | dispatch ids => exact advances_anyStarts hstarts ids
    | gather label members => exact ih

theorem advances_startsWithin (depth : Nat) (inspected : List RuleId) (id : RuleId) :
    Advances pos (fun _ => pos) (g.startsWithin look pos depth inspected id) := by
  induction depth generalizing inspected id with
  | zero => exact advances_diverged
  | succ depth ih =>
    unfold startsWithin
    cases g.rule? id with
    | none => exact advances_pure (Nat.le_refl _)
    | some rule =>
      dsimp only
      split
      · exact advances_pure (Nat.le_refl _)
      · exact advances_stepsStart (ih (id :: inspected)) rule.steps

theorem advances_starts (id : RuleId) : Advances pos (fun _ => pos) (g.starts look id pos) :=
  advances_startsWithin _ [] id

/-! ## Matching -/

theorem advances_matchTerminal (x : Terminal) :
    Advances pos Matched.next (matchTerminal look x pos) := by
  intro k
  refine secures_bind (secures_test look x k) fun o => ?_
  cases o with
  | none => exact secures_mismatch fun p hp => by simpa using hp
  | some t => exact secures_pure fun p hp => ⟨by simpa using hp, Nat.le_succ pos⟩

variable {matchRef : RuleId → Nat → Match σ Matched}

theorem secures_matchFirst_cons {Pre Mid Refused : Progress σ → Prop}
    {Post : Matched → Progress σ → Prop} {id : RuleId} {ids : List RuleId}
    (hid : Secures Pre (matchRef id pos) Post Mid)
    (hids : Secures Mid (matchFirst matchRef pos ids) Post Refused) :
    Secures Pre (matchFirst matchRef pos (id :: ids)) Post Refused := by
  intro p hp
  have h := hid p hp
  unfold matchFirst
  cases hm : matchRef id pos p with
  | ok m q =>
    rw [hm] at h
    exact h
  | error e q =>
    rw [hm] at h
    cases e with
    | mismatch => exact hids q h
    | lexical e => trivial
    | diverged => trivial

/-- Alternatives are tried in order, each from where the ones before it have been refused. -/
theorem secures_matchFirst {Inv : Progress σ → Prop} {Post : Matched → Progress σ → Prop}
    {ids : List RuleId} (h : ∀ id ∈ ids, Secures Inv (matchRef id pos) Post Inv) :
    Secures Inv (matchFirst matchRef pos ids) Post Inv := by
  induction ids with
  | nil => exact secures_mismatch fun _ hp => hp
  | cons id ids ih =>
    exact secures_matchFirst_cons (h id (List.mem_cons_self ..))
      (ih fun id' hmem => h id' (List.mem_cons_of_mem _ hmem))

theorem advances_matchChoice {ids : List RuleId}
    (href : ∀ id ∈ ids, Advances pos Matched.next (matchRef id pos)) :
    Advances pos Matched.next (matchChoice matchRef ids pos) := by
  unfold matchChoice
  cases ids with
  | nil => exact advances_refuse _
  | cons id ids =>
    intro k
    have hrest : ∀ id' ∈ ids, Secures (max k pos ≤ ·.frontier.position) (matchRef id' pos)
        (fun m p => k ≤ p.frontier.position ∧ pos ≤ m.next) (max k pos ≤ ·.frontier.position) := by
      intro id' hid'
      refine (href id' (List.mem_cons_of_mem _ hid') k).mono (fun p hp => ?_) (fun _ _ h => h)
        fun _ h => h
      exact Nat.le_trans (Nat.le_max_left _ _) hp
    exact secures_matchFirst_cons (href id (List.mem_cons_self ..) k) (secures_matchFirst hrest)

theorem advances_matchMany {starts : Nat → Match σ Bool} {matchOne : Nat → Match σ Matched}
    (hstarts : ∀ pos, Advances pos (fun _ => pos) (starts pos))
    (hone : ∀ pos, Advances pos Matched.next (matchOne pos)) (count pos : Nat) :
    Advances pos Matched.next (matchMany starts matchOne count pos) := by
  induction count generalizing pos with
  | zero => exact advances_diverged
  | succ count ih =>
    refine advances_bind (hstarts pos) fun b => ?_
    cases b with
    | false => exact advances_pure (Nat.le_refl _)
    | true =>
      refine advances_bind (hone pos) fun one => ?_
      split
      · exact advances_pure (Nat.le_refl _)
      · exact advances_bind (ih one.next) fun others => advances_pure (Nat.le_refl _)

theorem advances_matchStep (href : ∀ id pos, Advances pos Matched.next (matchRef id pos))
    (count : Nat) (step : Step) (pos : Nat) :
    Advances pos Matched.next (g.matchStep look matchRef count step pos) := by
  cases step with
  | terminal x => exact advances_matchTerminal x
  | rule id => exact href id pos
  | optional id =>
    refine advances_bind (advances_starts id) fun b => ?_
    cases b with
    | true => exact href id pos
    | false => exact advances_pure (Nat.le_refl _)
  | many id => exact advances_matchMany (fun _ => advances_starts id) (href id) count pos
  | choice ids => exact advances_matchChoice fun id _ => href id pos
  | dispatch ids =>
    exact advances_bind (advances_tokenAt look pos) fun t =>
      advances_matchChoice fun id _ => href id pos
  | gather label members => exact advances_pure (Nat.le_refl _)

theorem advances_matchSteps (href : ∀ id pos, Advances pos Matched.next (matchRef id pos))
    (count line : Nat) (steps : List Step) (m : Matched) :
    Advances m.next Matched.next (g.matchSteps look matchRef count line steps m) := by
  induction steps generalizing m with
  | nil => exact advances_pure (Nat.le_refl _)
  | cons step steps ih =>
    rcases step.gather_or_ne with ⟨label, members, rfl⟩ | hstep
    · exact ih ⟨ParseTree.gather label members line m.nodes, m.next⟩
    · rw [matchSteps_cons g look matchRef count line hstep]
      exact advances_bind (advances_matchStep href count step m.next) fun one =>
        ih ⟨m.nodes ++ one.nodes, one.next⟩

theorem advances_matchRule (depth : Nat) (id : RuleId) (pos : Nat) :
    Advances pos Matched.next (g.matchRule look depth id pos) := by
  induction depth generalizing id pos with
  | zero => exact advances_diverged
  | succ depth ih =>
    unfold matchRule
    cases g.rule? id with
    | none => exact advances_refuse _
    | some rule =>
      refine advances_bind (advances_tokenAt look pos) fun t => ?_
      exact advances_bind (advances_matchSteps ih depth t.line rule.steps ⟨[], pos⟩) fun m =>
        advances_pure (Nat.le_refl _)

end Grammar
end HandlerGrammar
