import HandlerGrammar.Proofs.Matching.Contracts

/-! # Prediction is exact

Whether a rule can begin with a token is a question about the rules alone: a chain of rules, each
begun by the next, has to end at a test that accepts the token or at steps that are passed over.
Prediction decides this, in grammars whose rules begin with each other in cycles too, since a
shortest chain never meets a rule twice.

* `StepsBegin`, `Begins`: which rules can begin with a token;
* `begins_iff`: a rule begins as its steps do;
* `uninspected`: how many rules an inspection may still go into;
* `ensures_starts`: prediction answers this question and never stops by itself. -/
namespace HandlerGrammar
set_option autoImplicit false

/-- The steps can begin with the token, if rules begin as `L` says. -/
def StepsBegin (L : RuleId → Prop) (t : Token) : List Step → Prop
  | [] => True
  | .terminal x :: _ => x.accepts t = true
  | .rule id :: _ => L id
  | .optional id :: steps | .many id :: steps => L id ∨ StepsBegin L t steps
  | .choice ids :: _ | .dispatch ids :: _ => ∃ id ∈ ids, L id
  | .gather _ _ :: steps => StepsBegin L t steps

theorem StepsBegin.mono {L L' : RuleId → Prop} (h : ∀ id, L id → L' id) {t : Token}
    {steps : List Step} (hs : StepsBegin L t steps) : StepsBegin L' t steps := by
  induction steps with
  | nil => trivial
  | cons step steps ih =>
    cases step with
    | terminal x => exact hs
    | rule id => exact h id hs
    | optional id => exact hs.imp (h id) ih
    | many id => exact hs.imp (h id) ih
    | choice ids => exact hs.imp fun id hid => ⟨hid.1, h id hid.2⟩
    | dispatch ids => exact hs.imp fun id hid => ⟨hid.1, h id hid.2⟩
    | gather label members => exact ih hs

/-- Steps begin by one rule at most, so a bound on that rule bounds the steps. -/
theorem stepsBegin_exists {P : Nat → RuleId → Prop} {t : Token} {steps : List Step} :
    StepsBegin (fun id => ∃ n, P n id) t steps ↔ ∃ n, StepsBegin (P n) t steps := by
  refine ⟨fun hs => ?_, fun ⟨n, hs⟩ => hs.mono fun id h => ⟨n, h⟩⟩
  induction steps with
  | nil => exact ⟨0, trivial⟩
  | cons step steps ih =>
    cases step with
    | terminal x => exact ⟨0, hs⟩
    | rule id => exact hs
    | optional id | many id =>
      rcases hs with ⟨n, hn⟩ | hs
      · exact ⟨n, Or.inl hn⟩
      · obtain ⟨n, hn⟩ := ih hs
        exact ⟨n, Or.inr hn⟩
    | choice ids | dispatch ids =>
      obtain ⟨id, hid, n, hn⟩ := hs
      exact ⟨n, id, hid, hn⟩
    | gather label members => exact ih hs

namespace Grammar

/-! ## Which rules begin with a token -/

section Begins
variable (g : Grammar) (t : Token)

/-- The rule begins with the token by a chain of at most so many rules, none of them among
`avoided`. -/
def BeginsWithin (avoided : List RuleId) : Nat → RuleId → Prop
  | 0, _ => False
  | n + 1, id => id ∉ avoided ∧ ∃ rule, g.rule? id = some rule ∧
    StepsBegin (BeginsWithin avoided n) t rule.steps

/-- The rule can begin with the token. -/
def Begins (id : RuleId) : Prop := ∃ n, g.BeginsWithin t [] n id

end Begins

section
variable {g : Grammar} {t : Token}

theorem begins_iff {id : RuleId} :
    g.Begins t id ↔ ∃ rule, g.rule? id = some rule ∧ StepsBegin (g.Begins t) t rule.steps := by
  constructor
  · rintro ⟨n, hn⟩
    cases n with
    | zero => exact hn.elim
    | succ n =>
      obtain ⟨-, rule, hrule, hs⟩ := hn
      exact ⟨rule, hrule, hs.mono fun id h => ⟨n, h⟩⟩
  · rintro ⟨rule, hrule, hs⟩
    obtain ⟨n, hn⟩ := stepsBegin_exists.mp hs
    exact ⟨n + 1, by simp, rule, hrule, hn⟩

theorem BeginsWithin.of_avoided {avoided avoided' : List RuleId} (h : avoided ⊆ avoided') {n : Nat}
    {id : RuleId} (hn : g.BeginsWithin t avoided' n id) : g.BeginsWithin t avoided n id := by
  induction n generalizing id with
  | zero => exact hn.elim
  | succ n ih =>
    obtain ⟨hid, rule, hrule, hs⟩ := hn
    exact ⟨fun hmem => hid (h hmem), rule, hrule, hs.mono fun _ => ih⟩

/-- A chain shorter than every chain from `id` does not pass `id`. -/
theorem BeginsWithin.avoid {avoided : List RuleId} {id j : RuleId} {n : Nat}
    (hmin : ∀ k ≤ n, ¬ g.BeginsWithin t avoided k id) (hn : g.BeginsWithin t avoided n j) :
    g.BeginsWithin t (id :: avoided) n j := by
  induction n generalizing j with
  | zero => exact hn.elim
  | succ n ih =>
    have hj : j ≠ id := by
      intro h
      exact hmin (n + 1) (Nat.le_refl _) (h ▸ hn)
    obtain ⟨havoided, rule, hrule, hs⟩ := hn
    refine ⟨by simp [hj, havoided], rule, hrule, hs.mono fun i hi => ?_⟩
    exact ih (fun k hk => hmin k (by omega)) hi

/-- A rule that begins with the token has a chain that does not come back to it. -/
theorem beginsWithin_iff {avoided : List RuleId} {id : RuleId} {rule : Rule}
    (hrule : g.rule? id = some rule) (hid : id ∉ avoided) :
    (∃ n, g.BeginsWithin t avoided n id) ↔
      StepsBegin (fun i => ∃ n, g.BeginsWithin t (id :: avoided) n i) t rule.steps := by
  constructor
  · rintro ⟨n, hn⟩
    induction n using Nat.strongRecOn with
    | ind n ih =>
      by_cases hless : ∃ k < n, g.BeginsWithin t avoided k id
      · obtain ⟨k, hk, hbegins⟩ := hless
        exact ih k hk hbegins
      · cases n with
        | zero => exact hn.elim
        | succ n =>
          obtain ⟨-, rule', hrule', hs⟩ := hn
          obtain rfl : rule = rule' := Option.some.inj (hrule.symm.trans hrule')
          refine hs.mono fun i hi => ⟨n, hi.avoid fun k hk hbegins => hless ⟨k, ?_, hbegins⟩⟩
          omega
  · intro hs
    obtain ⟨n, hn⟩ := stepsBegin_exists.mp hs
    refine ⟨n + 1, hid, rule, hrule, hn.mono fun i hi => ?_⟩
    exact hi.of_avoided (List.subset_cons_self id avoided)

theorem lt_of_rule? {id : Nat} {rule : Rule} (h : g.rule? id = some rule) :
    id < g.rules.length := by
  unfold rule? at h
  by_cases hid : id < g.rules.length
  · exact hid
  · rw [List.getElem?_eq_none (Nat.le_of_not_lt hid)] at h
    cases h

end

/-! ## Prediction -/

/-- How many rules are not under inspection. -/
def uninspected (g : Grammar) (inspected : List RuleId) : Nat :=
  ((List.range g.rules.length).filter fun id => !inspected.contains id).length

theorem uninspected_le (g : Grammar) (inspected : List RuleId) :
    g.uninspected inspected ≤ g.rules.length := by
  rw [← List.length_range (n := g.rules.length)]
  exact List.length_filter_le ..

/-- Going into a rule leaves one rule less to go into. -/
theorem uninspected_cons_lt {g : Grammar} {inspected : List RuleId} {id : RuleId} {rule : Rule}
    (hrule : g.rule? id = some rule) (hid : id ∉ inspected) :
    g.uninspected (id :: inspected) < g.uninspected inspected := by
  have hfilter : ((List.range g.rules.length).filter fun i => !(id :: inspected).contains i) =
      ((List.range g.rules.length).filter fun i => !inspected.contains i).filter
        fun i => decide (i ≠ id) := by
    rw [List.filter_filter]
    apply List.filter_congr
    intro i _
    simp
  rw [uninspected, uninspected, hfilter]
  apply List.length_filter_lt_length_iff_exists.mpr
  exact ⟨id, by simp [lt_of_rule? hrule, hid], by simp⟩

section Prediction
variable {σ : Type} {I : σ → Prop} {E : Stop → Prop} {g : Grammar} {look : Lookahead σ}
  {pos : Nat} {t : Token} {starts : RuleId → Match σ Bool} {L : RuleId → Prop}

theorem ensures_anyStarts (hstarts : ∀ id, Ensures I (starts id) (fun b => b = true ↔ L id) E)
    (ids : List RuleId) :
    Ensures I (anyStarts starts ids) (fun b => b = true ↔ ∃ id ∈ ids, L id) E := by
  induction ids with
  | nil => exact ensures_pure (by simp)
  | cons id ids ih =>
    refine ensures_bind (hstarts id) fun b hb => ?_
    cases b with
    | true => exact ensures_pure (by simp [hb.mp rfl])
    | false =>
      have hid : ¬ L id := fun h => Bool.false_ne_true (hb.mpr h)
      exact ih.result fun b' hb' => by simpa [hid] using hb'

theorem ensures_stepsStart (hlook : Ensures I (tokenAt look pos) (· = t) E)
    (hstarts : ∀ id, Ensures I (starts id) (fun b => b = true ↔ L id) E) (steps : List Step) :
    Ensures I (stepsStart look starts pos steps)
      (fun b => b = true ↔ StepsBegin L t steps) E := by
  induction steps with
  | nil => exact ensures_pure (by simp [StepsBegin])
  | cons step steps ih =>
    cases step with
    | terminal x =>
      refine ensures_bind (ensures_test hlook x) fun o ho => ensures_pure ?_
      subst ho
      cases hx : x.accepts t <;> simp [StepsBegin, hx]
    | rule id => exact hstarts id
    | optional id | many id =>
      refine ensures_bind (hstarts id) fun b hb => ?_
      cases b with
      | true => exact ensures_pure (by simp [StepsBegin, hb.mp rfl])
      | false =>
        have hid : ¬ L id := fun h => Bool.false_ne_true (hb.mpr h)
        exact ih.result fun b' hb' => by simpa [StepsBegin, hid] using hb'
    | choice ids | dispatch ids => exact ensures_anyStarts hstarts ids
    | gather label members => exact ih

/-- Each rule under inspection is one that the next ones do not go into. -/
theorem ensures_startsWithin (hlook : Ensures I (tokenAt look pos) (· = t) E) (depth : Nat)
    (inspected : List RuleId) (hdepth : g.uninspected inspected < depth) (id : RuleId) :
    Ensures I (g.startsWithin look pos depth inspected id)
      (fun b => b = true ↔ ∃ n, g.BeginsWithin t inspected n id) E := by
  induction depth generalizing inspected id with
  | zero => exact absurd hdepth (Nat.not_lt_zero _)
  | succ depth ih =>
    have hnone : ∀ n, g.BeginsWithin t inspected n id →
        id ∉ inspected ∧ g.rule? id ≠ none := by
      intro n hn
      cases n with
      | zero => exact hn.elim
      | succ n =>
        obtain ⟨hid, rule, hrule, -⟩ := hn
        exact ⟨hid, by simp [hrule]⟩
    unfold startsWithin
    cases hrule : g.rule? id with
    | none =>
      refine ensures_pure ⟨fun h => (Bool.false_ne_true h).elim, fun ⟨n, hn⟩ => ?_⟩
      exact absurd hrule (hnone n hn).2
    | some rule =>
      dsimp only
      by_cases hid : id ∈ inspected
      · rw [if_pos (List.contains_iff_mem.mpr hid)]
        refine ensures_pure ⟨fun h => (Bool.false_ne_true h).elim, fun ⟨n, hn⟩ => ?_⟩
        exact absurd hid (hnone n hn).1
      · rw [if_neg (by simpa using hid)]
        have hless := uninspected_cons_lt hrule hid
        refine (ensures_stepsStart hlook (ih (id :: inspected) (by omega)) rule.steps).result
          fun b hb => ?_
        rw [hb, beginsWithin_iff hrule hid]

/-- Prediction looks at no token but the one that it is asked about. -/
theorem ensures_starts (hlook : Ensures I (tokenAt look pos) (· = t) E) (id : RuleId) :
    Ensures I (g.starts look id pos) (fun b => b = true ↔ g.Begins t id) E :=
  ensures_startsWithin hlook _ [] (Nat.lt_succ_of_le (g.uninspected_le [])) id

end Prediction
end Grammar
end HandlerGrammar
