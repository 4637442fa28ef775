import HandlerGrammar.Grammar.Parse
import HandlerGrammar.Proofs.Matching.Derivation

/-! # Matches in lockstep

Two matches of the same rules on two sources stay in lockstep if the sources show the same tokens:
each test, choice and repetition is decided alike, so they end alike, with the same nodes, the same
refusals or the same lexical error. One of the two may be given less depth; then it may also give up
where the other goes on.

* `Pairing`: what holds of the two matches while both go on and after a lexical error;
* `Alike`, `Follows`: ends that agree, and matches whose ends agree;
* `Paired`: the two sources show the same tokens, and accept none from `size` on;
* `follows_starts`, `follows_matchSteps`, `follows_matchRule_succ`, `follows_matchAll`: prediction
  and matching in lockstep. -/
namespace HandlerGrammar
set_option autoImplicit false

/-- What relates two matches: `together` while both go on and at every end but a lexical error,
`stopped` after that. If the pairing is `lenient`, the first may exceed its depth alone. -/
structure Pairing (σ τ : Type) where
  together : Progress σ → Progress τ → Prop
  stopped : LexError → Progress σ → Progress τ → Prop
  lenient : Prop

variable {σ τ α β : Type} {P : Pairing σ τ}

/-- Two matches end alike, with a result that satisfies `Q` if with any. -/
inductive Alike (P : Pairing σ τ) (Q : α → Prop) :
    EStateM.Result Stop (Progress σ) α → EStateM.Result Stop (Progress τ) α → Prop
  | result {a : α} {p : Progress σ} {p' : Progress τ} :
      Q a → P.together p p' → Alike P Q (.ok a p) (.ok a p')
  | refused {p : Progress σ} {p' : Progress τ} :
      P.together p p' → Alike P Q (.error .mismatch p) (.error .mismatch p')
  | lexical {e : LexError} {p : Progress σ} {p' : Progress τ} :
      P.stopped e p p' → Alike P Q (.error (.lexical e) p) (.error (.lexical e) p')
  | diverged {p : Progress σ} {p' : Progress τ} :
      P.together p p' → Alike P Q (.error .diverged p) (.error .diverged p')
  | excused {p : Progress σ} {r : EStateM.Result Stop (Progress τ) α} :
      P.lenient → Alike P Q (.error .diverged p) r

/-- From related states the two matches end alike. -/
def Follows (P : Pairing σ τ) (m : Match σ α) (m' : Match τ α) (Q : α → Prop) : Prop :=
  ∀ p p', P.together p p' → Alike P Q (m p) (m' p')

/-! ## Composition -/

theorem follows_pure {a : α} {Q : α → Prop} (h : Q a) : Follows P (pure a) (pure a) Q :=
  fun _ _ hp => .result h hp

theorem follows_mismatch {Q : α → Prop} : Follows P (throw .mismatch) (throw .mismatch) Q :=
  fun _ _ hp => .refused hp

theorem follows_diverged {Q : α → Prop} : Follows P (throw .diverged) (throw .diverged) Q :=
  fun _ _ hp => .diverged hp

theorem follows_bind {m : Match σ α} {m' : Match τ α} {f : α → Match σ β} {f' : α → Match τ β}
    {Q : α → Prop} {Q' : β → Prop} (hm : Follows P m m' Q)
    (hf : ∀ a, Q a → Follows P (f a) (f' a) Q') : Follows P (m >>= f) (m' >>= f') Q' := by
  intro p p' hp
  have h := hm p p' hp
  change Alike P Q' (EStateM.bind m f p) (EStateM.bind m' f' p')
  unfold EStateM.bind
  generalize m p = r, m' p' = r' at h
  cases h with
  | result hQ hq => exact hf _ hQ _ _ hq
  | refused hq => exact .refused hq
  | lexical hq => exact .lexical hq
  | diverged hq => exact .diverged hq
  | excused hl => exact .excused hl

theorem Follows.mono {m : Match σ α} {m' : Match τ α} {Q Q' : α → Prop} (hm : Follows P m m' Q)
    (hQ : ∀ a, Q a → Q' a) : Follows P m m' Q' := by
  intro p p' hp
  have h := hm p p' hp
  generalize m p = r, m' p' = r' at h
  cases h with
  | result ha hq => exact .result (hQ _ ha) hq
  | refused hq => exact .refused hq
  | lexical hq => exact .lexical hq
  | diverged hq => exact .diverged hq
  | excused hl => exact .excused hl

/-! ## Reading tokens -/

/-- The lookaheads show the same tokens, none that a rule accepts from position `size` on, and
recording an expectation on both sides keeps the pairing. -/
structure Paired (P : Pairing σ τ) (look : Lookahead σ) (look' : Lookahead τ) (size : Nat) :
    Prop where
  expect : ∀ {p p'} (pos : Nat) (what : String), P.together p p' →
    P.together { p with frontier := p.frontier.expect pos what }
      { p' with frontier := p'.frontier.expect pos what }
  token : ∀ pos, Follows P (tokenAt look pos) (tokenAt look' pos)
    fun t => ∀ x : Terminal, x.accepts t = true → pos < size

theorem Paired.mono {look : Lookahead σ} {look' : Lookahead τ} {size size' : Nat}
    (h : Paired P look look' size) (hle : size ≤ size') : Paired P look look' size' :=
  ⟨h.expect, fun pos => (h.token pos).mono fun _ ht x hx => Nat.lt_of_lt_of_le (ht x hx) hle⟩

/-- The match goes on from a position between `pos` and `size`. -/
def Matched.Within (size pos : Nat) (m : Matched) : Prop := pos ≤ m.next ∧ m.next ≤ size

/-- The first match is given no more repetitions than the second, or than there are tokens. -/
def Pairing.Covers (P : Pairing σ τ) (size count count' : Nat) : Prop :=
  count = count' ∨ P.lenient ∧ (count ≤ count' ∨ size < count')

section Reading
variable {look : Lookahead σ} {look' : Lookahead τ} {size : Nat}

theorem follows_expect (hlook : Paired P look look' size) (pos : Nat) (what : String) :
    Follows P (expect pos what) (expect pos what) fun _ => True :=
  fun _ _ hp => .result trivial (hlook.expect pos what hp)

theorem follows_refuse (hlook : Paired P look look' size) (pos : Nat) (what : String)
    {Q : α → Prop} : Follows P (refuse pos what) (refuse pos what) Q :=
  follows_bind (follows_expect hlook pos what) fun _ _ => follows_mismatch

theorem follows_test (hlook : Paired P look look' size) (pos : Nat) (x : Terminal) :
    Follows P (test look pos x) (test look' pos x) fun o => o.isSome = true → pos < size := by
  refine follows_bind (hlook.token pos) fun t ht => ?_
  split
  · next hx => exact follows_pure fun _ => ht x hx
  · exact follows_bind (follows_expect hlook pos x.describe) fun _ _ =>
      follows_pure fun h => (Bool.false_ne_true h).elim

/-! ## Prediction -/

namespace Grammar

variable {g : Grammar}

theorem follows_anyStarts {starts : RuleId → Match σ Bool} {starts' : RuleId → Match τ Bool}
    (hstarts : ∀ id, Follows P (starts id) (starts' id) fun _ => True) (ids : List RuleId) :
    Follows P (anyStarts starts ids) (anyStarts starts' ids) fun _ => True := by
  induction ids with
  | nil => exact follows_pure trivial
  | cons id ids ih =>
    refine follows_bind (hstarts id) fun b _ => ?_
    cases b with
    | true => exact follows_pure trivial
    | false => exact ih

theorem follows_stepsStart (hlook : Paired P look look' size) {starts : RuleId → Match σ Bool}
    {starts' : RuleId → Match τ Bool}
    (hstarts : ∀ id, Follows P (starts id) (starts' id) fun _ => True) (pos : Nat)
    (steps : List Step) :
    Follows P (stepsStart look starts pos steps) (stepsStart look' starts' pos steps)
      fun _ => True := by
  induction steps with
  | nil => exact follows_pure trivial
  | cons step steps ih =>
    cases step with
    | terminal x => exact follows_bind (follows_test hlook pos x) fun _ _ => follows_pure trivial
    | rule id => exact hstarts id
    | optional id | many id =>
      refine follows_bind (hstarts id) fun b _ => ?_
      cases b with
      | true => exact follows_pure trivial
      | false => exact ih
    | choice ids | dispatch ids => exact follows_anyStarts hstarts ids
    | gather label members => exact ih

theorem follows_startsWithin (hlook : Paired P look look' size) (pos depth : Nat)
    (inspected : List RuleId) (id : RuleId) :
    Follows P (g.startsWithin look pos depth inspected id)
      (g.startsWithin look' pos depth inspected id) fun _ => True := by
  induction depth generalizing inspected id with
  | zero => exact follows_diverged
  | succ depth ih =>
    unfold startsWithin
    cases g.rule? id with
    | none => exact follows_pure trivial
    | some rule =>
      dsimp only
      split
      · exact follows_pure trivial
      · exact follows_stepsStart hlook (ih (id :: inspected)) pos rule.steps

theorem follows_starts (hlook : Paired P look look' size) (id : RuleId) (pos : Nat) :
    Follows P (g.starts look id pos) (g.starts look' id pos) fun _ => True :=
  follows_startsWithin hlook pos _ [] id

/-! ## Matching -/

section Steps
variable {matchRef : RuleId → Nat → Match σ Matched} {matchRef' : RuleId → Nat → Match τ Matched}

theorem follows_matchTerminal (hlook : Paired P look look' size) (x : Terminal) (pos : Nat) :
    Follows P (matchTerminal look x pos) (matchTerminal look' x pos) (Matched.Within size pos) := by
  refine follows_bind (follows_test hlook pos x) fun o ho => ?_
  cases o with
  | none => exact follows_mismatch
  | some t => exact follows_pure ⟨Nat.le_succ pos, ho rfl⟩

theorem follows_matchFirst {pos : Nat} {ids : List RuleId}
    (href : ∀ id, Follows P (matchRef id pos) (matchRef' id pos) (Matched.Within size pos)) :
    Follows P (matchFirst matchRef pos ids) (matchFirst matchRef' pos ids)
      (Matched.Within size pos) := by
  induction ids with
  | nil => exact follows_mismatch
  | cons id ids ih =>
    intro p p' hp
    have h := href id p p' hp
    unfold matchFirst
    generalize matchRef id pos p = r, matchRef' id pos p' = r' at h
    cases h with
    | result hm hq => exact .result hm hq
    | refused hq => exact ih _ _ hq
    | lexical hq => exact .lexical hq
    | diverged hq => exact .diverged hq
    | excused hl =>
      -- a match that exceeds its depth is not followed by the next rule
      exact .excused hl

theorem follows_matchChoice (hlook : Paired P look look' size) {pos : Nat} {ids : List RuleId}
    (href : ∀ id, Follows P (matchRef id pos) (matchRef' id pos) (Matched.Within size pos)) :
    Follows P (matchChoice matchRef ids pos) (matchChoice matchRef' ids pos)
      (Matched.Within size pos) := by
  unfold matchChoice
  split
  · exact follows_refuse hlook pos _
  · exact follows_matchFirst href

/-- Each repetition but the last takes a token, so their number is bounded by the tokens left. -/
theorem follows_matchMany {starts : Nat → Match σ Bool} {starts' : Nat → Match τ Bool}
    {matchOne : Nat → Match σ Matched} {matchOne' : Nat → Match τ Matched}
    (hstarts : ∀ pos, Follows P (starts pos) (starts' pos) fun _ => True)
    (hone : ∀ pos, pos ≤ size →
      Follows P (matchOne pos) (matchOne' pos) (Matched.Within size pos))
    {count count' pos : Nat}
    (hcount : count = count' ∨ P.lenient ∧ (count ≤ count' ∨ size < pos + count'))
    (hpos : pos ≤ size) :
    Follows P (matchMany starts matchOne count pos) (matchMany starts' matchOne' count' pos)
      (Matched.Within size pos) := by
  induction count generalizing count' pos with
  | zero =>
    intro p p' hp
    rcases hcount with rfl | ⟨hl, -⟩
    · exact .diverged hp
    · exact .excused hl
  | succ count ih =>
    cases count' with
    | zero =>
      exfalso
      rcases hcount with h | ⟨-, h | h⟩ <;> omega
    | succ count' =>
      refine follows_bind (hstarts pos) fun b _ => ?_
      cases b with
      | false => exact follows_pure ⟨Nat.le_refl pos, hpos⟩
      | true =>
        refine follows_bind (hone pos hpos) fun one hm => ?_
        obtain ⟨hle, hsize⟩ := hm
        split
        · exact follows_pure ⟨hle, hsize⟩
        · next hne =>
          have hrest : count = count' ∨
              P.lenient ∧ (count ≤ count' ∨ size < one.next + count') := by
            rcases hcount with h | ⟨hl, h | h⟩
            · exact Or.inl (by omega)
            · exact Or.inr ⟨hl, Or.inl (by omega)⟩
            · exact Or.inr ⟨hl, Or.inr (by omega)⟩
          refine follows_bind (ih hrest hsize) fun others hothers => ?_
          exact follows_pure ⟨Nat.le_trans hle hothers.1, hothers.2⟩

variable {count count' : Nat}

theorem follows_matchStep (hlook : Paired P look look' size)
    (href : ∀ id pos, pos ≤ size →
      Follows P (matchRef id pos) (matchRef' id pos) (Matched.Within size pos))
    (hcount : P.Covers size count count') (step : Step) {pos : Nat} (hpos : pos ≤ size) :
    Follows P (g.matchStep look matchRef count step pos) (g.matchStep look' matchRef' count' step pos)
      (Matched.Within size pos) := by
  cases step with
  | terminal x => exact follows_matchTerminal hlook x pos
  | rule id => exact href id pos hpos
  | optional id =>
    refine follows_bind (follows_starts hlook id pos) fun b _ => ?_
    cases b with
    | true => exact href id pos hpos
    | false => exact follows_pure ⟨Nat.le_refl pos, hpos⟩
  | many id =>
    have hbound : count = count' ∨ P.lenient ∧ (count ≤ count' ∨ size < pos + count') := by
      rcases hcount with h | ⟨hl, h | h⟩
      · exact Or.inl h
      · exact Or.inr ⟨hl, Or.inl h⟩
      · exact Or.inr ⟨hl, Or.inr (by omega)⟩
    exact follows_matchMany (follows_starts hlook id) (href id) hbound hpos
  | choice ids => exact follows_matchChoice hlook fun id => href id pos hpos
  | dispatch ids =>
    refine follows_bind (hlook.token pos) fun t _ => ?_
    exact follows_matchChoice hlook fun id => href id pos hpos
  | gather label members => exact follows_pure ⟨Nat.le_refl pos, hpos⟩

theorem follows_matchSteps (hlook : Paired P look look' size)
    (href : ∀ id pos, pos ≤ size →
      Follows P (matchRef id pos) (matchRef' id pos) (Matched.Within size pos))
    (hcount : P.Covers size count count') (line : Nat) (steps : List Step) {m : Matched}
    (hm : m.next ≤ size) :
    Follows P (g.matchSteps look matchRef count line steps m)
      (g.matchSteps look' matchRef' count' line steps m) (Matched.Within size m.next) := by
  induction steps generalizing m with
  | nil => exact follows_pure ⟨Nat.le_refl _, hm⟩
  | cons step steps ih =>
    rcases step.gather_or_ne with ⟨label, members, rfl⟩ | hstep
    · exact ih (m := ⟨ParseTree.gather label members line m.nodes, m.next⟩) hm
    · rw [matchSteps_cons g look matchRef count line hstep,
        matchSteps_cons g look' matchRef' count' line hstep]
      refine follows_bind (follows_matchStep hlook href hcount step hm) fun one hone => ?_
      have hrest := ih (m := ⟨m.nodes ++ one.nodes, one.next⟩) hone.2
      exact hrest.mono fun m' hm' => ⟨Nat.le_trans hone.1 hm'.1, hm'.2⟩

end Steps

/-- One more level of rules: what is needed of the rules inside. -/
theorem follows_matchRule_succ (hlook : Paired P look look' size) {depth depth' : Nat}
    (href : ∀ id pos, pos ≤ size → Follows P (g.matchRule look depth id pos)
      (g.matchRule look' depth' id pos) (Matched.Within size pos))
    (hcount : P.Covers size depth depth') (id : RuleId) {pos : Nat} (hpos : pos ≤ size) :
    Follows P (g.matchRule look (depth + 1) id pos) (g.matchRule look' (depth' + 1) id pos)
      (Matched.Within size pos) := by
  unfold matchRule
  cases g.rule? id with
  | none => exact follows_refuse hlook pos _
  | some rule =>
    refine follows_bind (hlook.token pos) fun t _ => ?_
    refine follows_bind (follows_matchSteps (m := ⟨[], pos⟩) hlook href hcount t.line rule.steps hpos)
      fun m hm => ?_
    exact follows_pure hm

theorem follows_matchRule (hlook : Paired P look look' size) {depth depth' : Nat}
    (hdepth : depth = depth' ∨ P.lenient ∧ depth ≤ depth') (id : RuleId) {pos : Nat}
    (hpos : pos ≤ size) :
    Follows P (g.matchRule look depth id pos) (g.matchRule look' depth' id pos)
      (Matched.Within size pos) := by
  induction depth generalizing depth' id pos with
  | zero =>
    intro p p' hp
    rcases hdepth with rfl | ⟨hl, -⟩
    · exact .diverged hp
    · exact .excused hl
  | succ depth ih =>
    cases depth' with
    | zero =>
      exfalso
      rcases hdepth with h | ⟨-, h⟩ <;> omega
    | succ depth' =>
      have hless : depth = depth' ∨ P.lenient ∧ depth ≤ depth' := by
        rcases hdepth with h | ⟨hl, h⟩
        · exact Or.inl (by omega)
        · exact Or.inr ⟨hl, by omega⟩
      exact follows_matchRule_succ hlook (fun id _ => ih hless id)
        (hless.imp_right fun h => ⟨h.1, Or.inl h.2⟩) id hpos

theorem follows_matchAll (hlook : Paired P look look' size) {depth depth' : Nat}
    (hrule : Follows P (g.matchRule look depth g.entry 0) (g.matchRule look' depth' g.entry 0)
      (Matched.Within size 0)) :
    Follows P (g.matchAll look depth) (g.matchAll look' depth') fun _ => True := by
  refine follows_bind hrule fun m _ => ?_
  refine follows_bind (hlook.token m.next) fun last _ => ?_
  split
  · exact follows_bind (hlook.token 0) fun first _ => follows_pure trivial
  · exact follows_refuse hlook m.next _

end Grammar
end Reading
end HandlerGrammar
