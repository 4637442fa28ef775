import HandlerGrammar.Proofs.Matching.Depth
import HandlerGrammar.Proofs.Matching.Frontier

/-! # Rules that prediction lets in get on

Prediction lets a rule in by a test that the token passes, or because nothing in the rule has to
take a token. In the first case a match of the rule takes the token, or something behind the token
is refused on the way, if it ends at all. The match need not go the way of prediction for that: it
opens rules again that prediction has cut off as being under inspection, but then it never ends.

* `vain_matchRule`: a rule that does not begin with the token is refused at it;
* `mem_candidates_of_begins`: a dispatch does not leave out a rule that begins with the token;
* `exhausts_matchRule`: a rule that begins with the token only by way of rules that never end;
* `PassesWithin`: prediction lets a rule in by a test;
* `moves_matchRule`: a match of such a rule gets on. -/
namespace HandlerGrammar
set_option autoImplicit false

variable {σ α β : Type} {I : σ → Prop}

/-- The match has no result. It is refused or exceeds its depth, but meets no error of a line. -/
def Vain (I : σ → Prop) (m : Match σ α) : Prop :=
  Ensures I m (fun _ => False) fun e => e = .mismatch ∨ e = .diverged

/-- The match exceeds its depth. -/
def Exhausts (I : σ → Prop) (m : Match σ α) : Prop := Ensures I m (fun _ => False) (· = .diverged)

theorem Vain.bind {m : Match σ α} (hm : Vain I m) (f : α → Match σ β) : Vain I (m >>= f) :=
  ensures_bind hm fun _ => False.elim

theorem Exhausts.bind {m : Match σ α} (hm : Exhausts I m) (f : α → Match σ β) :
    Exhausts I (m >>= f) :=
  ensures_bind hm fun _ => False.elim

theorem Exhausts.vain {m : Match σ α} (hm : Exhausts I m) : Vain I m := hm.stop fun _ => Or.inr

namespace Grammar

section
variable {g : Grammar} {look : Lookahead σ} {pos : Nat} {t : Token}
  {matchRef : RuleId → Nat → Match σ Matched}

/-! ## Rules that do not begin with the token -/

theorem vain_matchChoice {ids : List RuleId} (h : ∀ id ∈ ids, Vain I (matchRef id pos)) :
    Vain I (matchChoice matchRef ids pos) := by
  have hchoice : Ensures I (matchChoice matchRef ids pos) (fun _ => ∃ id ∈ ids, False)
      (fun e => e = .diverged ∨ e = .mismatch ∧ ∀ id ∈ ids, True) :=
    ensures_matchChoice fun id hid => (h id hid).stop fun e he =>
      he.symm.imp_right fun he => ⟨he, trivial⟩
  refine hchoice.mono (fun m hm => ?_) fun e he => he.symm.imp_left And.left
  obtain ⟨_, _, hm⟩ := hm
  exact hm

variable (hlook : Ensures I (tokenAt look pos) (· = t) fun _ => False)
include hlook

/-- An optional or a repeated rule is passed over where it does not begin with the token. -/
theorem ensures_passOver {id : RuleId} (hid : ¬ g.Begins t id) {m : Match σ Matched}
    {Q : Matched → Prop} {E : Stop → Prop} (hrest : Q ⟨[], pos⟩) :
    Ensures I (do if ← g.starts look id pos then m else return ⟨[], pos⟩) Q E := by
  refine ensures_bind ((ensures_starts hlook id).stop fun _ => False.elim) fun b hb => ?_
  cases b with
  | true => exact absurd (hb.mp rfl) hid
  | false => exact ensures_pure hrest

theorem vain_matchSteps (href : ∀ id, ¬ g.Begins t id → Vain I (matchRef id pos)) (count line : Nat)
    {steps : List Step} (hnot : ¬ StepsBegin (g.Begins t) t steps) (nodes : List ParseTree) :
    Vain I (g.matchSteps look matchRef count line steps ⟨nodes, pos⟩) := by
  induction steps generalizing nodes with
  | nil => exact absurd trivial hnot
  | cons step steps ih =>
    cases step with
    | terminal x =>
      refine Vain.bind ?_ _
      refine ensures_bind ((ensures_test hlook x).stop fun _ => False.elim) fun o ho => ?_
      rw [if_neg (show ¬ x.accepts t = true from hnot)] at ho
      subst ho
      exact ensures_throw (Or.inl rfl)
    | rule id => exact (href id hnot).bind _
    | optional id =>
      obtain ⟨hid, hsteps⟩ := not_or.mp hnot
      refine ensures_bind (Q := (·.next = pos)) (ensures_passOver hlook hid rfl) fun one hone => ?_
      subst hone
      exact ih hsteps _
    | many id =>
      obtain ⟨hid, hsteps⟩ := not_or.mp hnot
      refine ensures_bind (Q := (·.next = pos)) ?_ fun one hone => ?_
      · cases count with
        | zero => exact ensures_throw (Or.inr rfl)
        | succ count => exact ensures_passOver hlook hid rfl
      · subst hone
        exact ih hsteps _
    | choice ids =>
      exact (vain_matchChoice fun id hid => href id fun h => hnot ⟨id, hid, h⟩).bind _
    | dispatch ids =>
      refine Vain.bind (ensures_bind (hlook.stop fun _ => False.elim) fun t' _ => ?_) _
      refine vain_matchChoice fun id hid => href id fun h => hnot ⟨id, ?_, h⟩
      exact (mem_candidates.mp hid).1
    | gather label members => exact ih hnot _

/-- A rule that does not begin with the token is refused there and reads no further. -/
theorem vain_matchRule (depth : Nat) {id : RuleId} (hid : ¬ g.Begins t id) :
    Vain I (g.matchRule look depth id pos) := by
  induction depth generalizing id with
  | zero => exact ensures_throw (Or.inr rfl)
  | succ depth ih =>
    unfold matchRule
    cases hrule : g.rule? id with
    | none => exact ensures_refuse pos _ (Or.inl rfl)
    | some rule =>
      have hsteps : ¬ StepsBegin (g.Begins t) t rule.steps := fun h =>
        hid (begins_iff.mpr ⟨rule, hrule, h⟩)
      refine ensures_bind (hlook.stop fun _ => False.elim) fun t' _ => ?_
      exact (vain_matchSteps hlook (fun id => ih) depth t'.line hsteps []).bind _

end

end Grammar

/-! ## Leading literals -/

theorem Terminal.literal_eq {x : Terminal} {t : Token} {l : String} (hl : x.literal? = some l)
    (hword : t.kind = .separator → t.word = t.text) (h : x.accepts t = true) : l = t.word := by
  cases x with
  | separator text =>
    obtain rfl := Option.some.inj hl
    obtain ⟨hk, htext⟩ := Bool.and_eq_true_iff.mp h
    rw [hword (beq_iff_eq.mp hk), beq_iff_eq.mp htext]
  | keyword word =>
    obtain rfl := Option.some.inj hl
    exact (beq_iff_eq.mp (Bool.and_eq_true_iff.mp h).2).symm
  | token c => cases hl

namespace Grammar

section
variable {g : Grammar} {t : Token} (hword : t.kind = .separator → t.word = t.text)
include hword

/-- A rule with a leading literal begins with no other token. -/
theorem literal_of_begins {n : Nat} {id : RuleId} {l : String}
    (hl : g.leadingLiteralWithin n id = some l) (h : g.Begins t id) : l = t.word := by
  induction n generalizing id with
  | zero => cases hl
  | succ n ih =>
    obtain ⟨rule, hrule, hsteps⟩ := begins_iff.mp h
    unfold leadingLiteralWithin at hl
    split at hl
    · next label x steps hid =>
      obtain rfl := Option.some.inj (hrule.symm.trans hid)
      exact Terminal.literal_eq hl hword hsteps
    · next label inner steps hid =>
      obtain rfl := Option.some.inj (hrule.symm.trans hid)
      exact ih hl hsteps
    · cases hl

/-- A dispatch leaves out no rule that begins with the token. -/
theorem mem_candidates_of_begins {ids : List RuleId} {id : RuleId} (hid : id ∈ ids)
    (h : g.Begins t id) : id ∈ g.candidates ids t.word := by
  refine mem_candidates.mpr ⟨hid, ?_⟩
  cases hl : g.leadingLiteral id with
  | none => exact Or.inr rfl
  | some l => exact Or.inl (congrArg some (literal_of_begins hword hl h))

end

/-- What a dispatch tries before one of its candidates stands in front of that one among the
alternatives, or begins with the word. -/
theorem candidates_split {g : Grammar} {before after : List RuleId} {id : RuleId} {word : String}
    (hid : id ∈ g.candidates (before ++ id :: after) word) :
    ∃ before' after', g.candidates (before ++ id :: after) word = before' ++ id :: after' ∧
      ∀ j ∈ before', j ∈ before ∨ g.leadingLiteral j = some word := by
  have hsplit : ∀ p : RuleId → Bool, p id = true → (before ++ id :: after).filter p =
      before.filter p ++ id :: after.filter p := fun p hp => by
    rw [List.filter_append, List.filter_cons_of_pos hp]
  unfold candidates
  rcases (mem_candidates.mp hid).2 with hl | hl
  · rw [hsplit (g.leadingLiteral · = some word) (by simpa using hl), List.append_assoc,
      List.cons_append]
    exact ⟨_, _, rfl, fun j hj => Or.inl (List.mem_filter.mp hj).1⟩
  · rw [hsplit (g.leadingLiteral · = none) (by simpa using hl), ← List.append_assoc]
    refine ⟨_, _, rfl, fun j hj => ?_⟩
    rcases List.mem_append.mp hj with hj | hj
    · exact Or.inr (by simpa using (List.mem_filter.mp hj).2)
    · exact Or.inl (List.mem_filter.mp hj).1

/-! ## Rules that begin by way of rules that never end -/

section
variable {g : Grammar} {look : Lookahead σ} {pos : Nat} {t : Token}
  {matchRef : RuleId → Nat → Match σ Matched}

/-- Where no alternative matches, one that exceeds its depth is not passed over. -/
theorem exhausts_matchChoice {ids : List RuleId} (hall : ∀ id ∈ ids, Vain I (matchRef id pos))
    (hsome : ∃ id ∈ ids, Exhausts I (matchRef id pos)) :
    Exhausts I (matchChoice matchRef ids pos) := by
  have hchoice : Ensures I (matchChoice matchRef ids pos) (fun _ => ∃ id ∈ ids, False)
      (fun e => e = .diverged ∨
        e = .mismatch ∧ ∀ id ∈ ids, ¬ Exhausts I (matchRef id pos)) := by
    refine ensures_matchChoice fun id hid => ?_
    by_cases hex : Exhausts I (matchRef id pos)
    · exact hex.stop fun _ => Or.inl
    · exact (hall id hid).stop fun e he => he.symm.imp_right fun he => ⟨he, hex⟩
  refine hchoice.mono (fun m hm => ?_) fun e he => ?_
  · obtain ⟨_, _, hm⟩ := hm
    exact hm
  · obtain ⟨id, hid, hex⟩ := hsome
    exact he.resolve_right fun h => h.2 id hid hex

/-- An optional or a repeated rule is let in where it begins with the token. -/
theorem exhausts_letIn (hlook : Ensures I (tokenAt look pos) (· = t) fun _ => False) {id : RuleId}
    (hid : g.Begins t id) {m : Match σ Matched} (hm : Exhausts I m) :
    Exhausts I (do if ← g.starts look id pos then m else return ⟨[], pos⟩) := by
  refine ensures_bind ((ensures_starts hlook id).stop fun _ => False.elim) fun b hb => ?_
  cases b with
  | true => exact hm
  | false => exact absurd (hb.mpr hid) Bool.false_ne_true

/-- The steps begin with the token, but would not if rules began as `B` says. If a rule that begins
with the token otherwise exceeds its depth, so do the steps. -/
theorem exhausts_matchSteps (hlook : Ensures I (tokenAt look pos) (· = t) fun _ => False)
    (hword : t.kind = .separator → t.word = t.text) {B : RuleId → Prop}
    (hopen : ∀ id, g.Begins t id → ¬ B id → Exhausts I (matchRef id pos))
    (hunbegun : ∀ id, ¬ g.Begins t id → Vain I (matchRef id pos)) (count line : Nat)
    {steps : List Step} (hbegins : StepsBegin (g.Begins t) t steps) (hnot : ¬ StepsBegin B t steps)
    (nodes : List ParseTree) :
    Exhausts I (g.matchSteps look matchRef count line steps ⟨nodes, pos⟩) := by
  have hvain : ∀ id, ¬ B id → Vain I (matchRef id pos) := fun id hid => by
    by_cases h : g.Begins t id
    · exact (hopen id h hid).vain
    · exact hunbegun id h
  induction steps generalizing nodes with
  | nil => exact absurd trivial hnot
  | cons step steps ih =>
    cases step with
    | terminal x => exact absurd hbegins hnot
    | rule id => exact (hopen id hbegins hnot).bind _
    | optional id =>
      obtain ⟨hid, hsteps⟩ := not_or.mp hnot
      by_cases h : g.Begins t id
      · exact (exhausts_letIn hlook h (hopen id h hid)).bind _
      · refine ensures_bind (Q := (·.next = pos)) (ensures_passOver hlook h rfl) fun one hone => ?_
        subst hone
        exact ih (hbegins.resolve_left h) hsteps _
    | many id =>
      obtain ⟨hid, hsteps⟩ := not_or.mp hnot
      cases count with
      | zero => exact Exhausts.bind (ensures_throw rfl) _
      | succ count =>
        by_cases h : g.Begins t id
        · exact (exhausts_letIn hlook h ((hopen id h hid).bind _)).bind _
        · refine ensures_bind (Q := (·.next = pos)) (ensures_passOver hlook h rfl)
            fun one hone => ?_
          subst hone
          exact ih (hbegins.resolve_left h) hsteps _
    | choice ids =>
      obtain ⟨id, hid, h⟩ := hbegins
      have hall : ∀ id ∈ ids, ¬ B id := fun id hid h => hnot ⟨id, hid, h⟩
      exact (exhausts_matchChoice (fun id hid => hvain id (hall id hid))
        ⟨id, hid, hopen id h (hall id hid)⟩).bind _
    | dispatch ids =>
      obtain ⟨id, hid, h⟩ := hbegins
      have hall : ∀ id ∈ ids, ¬ B id := fun id hid h => hnot ⟨id, hid, h⟩
      refine Exhausts.bind (ensures_bind (hlook.stop fun _ => False.elim) fun t' ht => ?_) _
      subst ht
      exact exhausts_matchChoice (fun id hid => hvain id (hall id (mem_candidates.mp hid).1))
        ⟨id, mem_candidates_of_begins hword hid h, hopen id h (hall id hid)⟩
    | gather label members => exact ih hbegins hnot _

end

section
variable {g : Grammar} {v : Preview} {size pos : Nat} {t : Token}

theorem exhausts_of_not_settlesAt {depth : Nat} {id : RuleId} (h : ¬ g.SettlesAt v depth id pos) :
    Exhausts (fun _ => True) (g.matchRule v.look depth id pos) := by
  intro p _
  have hp : ¬ Settled (g.matchRule v.look depth id pos p) := fun hp => h ⟨p, hp⟩
  obtain ⟨q, hq⟩ := not_forall.mp hp
  rw [not_not.mp hq]
  exact ⟨trivial, rfl⟩

theorem ensures_tokenAt_look (ht : v pos = .ok t) :
    Ensures (fun _ => True) (tokenAt v.look pos) (· = t) fun _ => False := by
  intro p _
  rw [Preview.tokenAt_look, ht]
  exact ⟨trivial, rfl⟩

/-- If the rules under inspection do not end within the depth, neither does one that begins with the
token only by way of them. -/
theorem exhausts_matchRule (hv : v.EndsBy size) (hpos : pos ≤ size) (ht : v pos = .ok t)
    (hword : t.kind = .separator → t.word = t.text) {depth : Nat} {inspected : List RuleId}
    (hopen : ∀ id ∈ inspected, ¬ g.SettlesAt v depth id pos) {id : RuleId} (hbegins : g.Begins t id)
    (hcut : ¬ ∃ n, g.BeginsWithin t inspected n id) :
    Exhausts (fun _ => True) (g.matchRule v.look depth id pos) := by
  induction depth generalizing inspected id with
  | zero => exact ensures_throw rfl
  | succ depth ih =>
    have hlook := ensures_tokenAt_look ht
    have hopen' : ∀ id ∈ inspected, ¬ g.SettlesAt v depth id pos := fun id hid h =>
      hopen id hid (h.deeper hv hpos)
    -- with one level less the rule does not end, so it can be opened like those under inspection
    have hless : ¬ g.SettlesAt v depth id pos := by
      rintro ⟨p, hp⟩
      have h := ih hopen' hbegins hcut p trivial
      cases hm : g.matchRule v.look depth id pos p with
      | ok m q =>
        rw [hm] at h
        exact h.2
      | error stop q =>
        rw [hm] at h
        obtain ⟨-, rfl⟩ := h
        exact hp q hm
    by_cases hid : id ∈ inspected
    · exact exhausts_of_not_settlesAt (hopen id hid)
    · obtain ⟨rule, hrule, hsteps⟩ := begins_iff.mp hbegins
      rw [beginsWithin_iff hrule hid] at hcut
      unfold matchRule
      rw [hrule]
      refine ensures_bind (hlook.stop fun _ => False.elim) fun t' _ => ?_
      refine Exhausts.bind (exhausts_matchSteps hlook hword (fun i hi hcut => ?_)
        (fun i hi => vain_matchRule hlook depth hi) depth t'.line hsteps hcut []) _
      exact ih (List.forall_mem_cons.mpr ⟨hless, hopen'⟩) hi hcut

end

/-! ## Rules that are let in by a test -/

/-- The steps come to a test that the token passes, if rules come to one as `L` says. What they may
begin with in front of it does not begin with the token, if rules begin as `B` says. -/
def StepsPass (L B : RuleId → Prop) (t : Token) : List Step → Prop
  | [] => False
  | .terminal x :: _ => x.accepts t = true
  | .rule id :: _ => L id
  | .optional id :: steps | .many id :: steps => L id ∨ ¬ B id ∧ StepsPass L B t steps
  | .choice ids :: _ | .dispatch ids :: _ =>
    ∃ before id after, ids = before ++ id :: after ∧ (∀ i ∈ before, ¬ B i) ∧ L id
  | .gather _ _ :: steps => StepsPass L B t steps

/-- Prediction lets the rule in by a test, through a chain of at most so many rules, if those
inspected are cut off. -/
def PassesWithin (g : Grammar) (t : Token) : Nat → List RuleId → RuleId → Prop
  | 0, _, _ => False
  | n + 1, inspected, id => id ∉ inspected ∧ ∃ rule, g.rule? id = some rule ∧
    StepsPass (PassesWithin g t n (id :: inspected))
      (fun i => ∃ k, g.BeginsWithin t (id :: inspected) k i) t rule.steps

theorem StepsPass.begins {L B : RuleId → Prop} (hL : ∀ id, L id → B id) {t : Token}
    {steps : List Step} (h : StepsPass L B t steps) : StepsBegin B t steps := by
  induction steps with
  | nil => trivial
  | cons step steps ih =>
    cases step with
    | terminal x => exact h
    | rule id => exact hL id h
    | optional id | many id => exact h.imp (hL id) fun h => ih h.2
    | choice ids | dispatch ids =>
      obtain ⟨before, id, after, rfl, -, h⟩ := h
      exact ⟨id, by simp, hL id h⟩
    | gather label members => exact ih h

theorem PassesWithin.begins {g : Grammar} {t : Token} {n : Nat} {inspected : List RuleId}
    {id : RuleId} (h : g.PassesWithin t n inspected id) : ∃ k, g.BeginsWithin t inspected k id := by
  induction n generalizing inspected id with
  | zero => exact h.elim
  | succ n ih =>
    obtain ⟨hid, rule, hrule, hsteps⟩ := h
    exact (beginsWithin_iff hrule hid).mpr (hsteps.begins fun i => ih)

end Grammar

/-- The match takes the token, or something behind it is refused. -/
def Moves (pos : Nat) (m : Match σ Matched) : Prop :=
  Secures (fun _ => True) m (fun a p => pos < a.next ∨ pos < p.frontier.position)
    (pos < ·.frontier.position)

/-- The match has no other result than one that takes the token. -/
def Takes (pos : Nat) (m : Match σ Matched) : Prop :=
  Secures (fun _ => True) m (fun a _ => pos < a.next) fun _ => True

theorem Exhausts.secures {m : Match σ α} (hm : Exhausts (fun _ => True) m)
    {Post : α → Progress σ → Prop} {Refused : Progress σ → Prop} :
    Secures (fun _ => True) m Post Refused :=
  (Ensures.secures hm (by simp)).mono (fun _ h => h) (fun _ _ h => h.2.elim) fun _ h => h

theorem Vain.takes {m : Match σ Matched} (hm : Vain (fun _ => True) m) {pos : Nat} :
    Takes pos m := by
  intro p _
  have h := hm p trivial
  cases hp : m p with
  | ok a q =>
    rw [hp] at h
    exact h.2.elim
  | error e q =>
    cases e <;> trivial

theorem moves_bind {pos : Nat} {m : Match σ Matched} {f : Matched → Match σ Matched}
    (hm : Moves pos m) (hf : ∀ a, Advances a.next Matched.next (f a)) : Moves pos (m >>= f) := by
  refine secures_bind hm fun a p hp => ?_
  rcases hp with hp | hp
  · refine (hf a 0).mono (fun _ => id) (fun b q hq => ?_) (fun q hq => ?_) p (Nat.zero_le _)
    · exact Or.inl (Nat.lt_of_lt_of_le hp hq.2)
    · omega
  · refine (hf a (pos + 1)).mono (fun _ => id) (fun b q hq => Or.inr hq.1) (fun q hq => ?_) p hp
    omega

theorem takes_bind {pos : Nat} {m : Match σ Matched} {f : Matched → Match σ Matched}
    (hm : Takes pos m) (hf : ∀ a, Advances a.next Matched.next (f a)) : Takes pos (m >>= f) := by
  refine secures_bind hm fun a p hp => ?_
  exact (hf a 0).mono (fun _ => id) (fun b q hq => Nat.lt_of_lt_of_le hp hq.2)
    (fun _ _ => trivial) p (Nat.zero_le _)

namespace Grammar

section
variable {g : Grammar} {look : Lookahead σ} {pos : Nat} {t : Token}
  {matchRef : RuleId → Nat → Match σ Matched}

/-- A rule with a leading literal takes the token that it begins with. -/
theorem takes_of_literal {n : Nat} {id : RuleId} {l : String}
    (hl : g.leadingLiteralWithin n id = some l) (depth : Nat) :
    Takes pos (g.matchRule look depth id pos) := by
  induction n generalizing id depth with
  | zero => cases hl
  | succ n ih =>
    cases depth with
    | zero => exact secures_diverged
    | succ depth =>
      have hrest : ∀ (line : Nat) (steps : List Step) (m : Matched), Advances m.next Matched.next
          (g.matchSteps look (g.matchRule look depth) depth line steps m) :=
        advances_matchSteps (advances_matchRule depth) depth
      unfold leadingLiteralWithin at hl
      unfold matchRule
      split at hl
      · next label x steps hid =>
        rw [hid]
        refine secures_bind (secures_tokenAt look pos) fun t => ?_
        refine takes_bind (takes_bind ?_ fun m => hrest t.line steps m) fun m =>
          advances_pure (Nat.le_refl _)
        have htest : Secures (fun _ => True) (test look pos x) (fun _ _ => True) fun _ => True :=
          (secures_test look x 0).mono (fun _ _ => Nat.zero_le _) (fun _ _ _ => trivial)
            fun _ _ => trivial
        refine secures_bind htest fun o => ?_
        cases o with
        | none => exact secures_mismatch fun _ _ => trivial
        | some t' => exact secures_pure fun _ _ => Nat.lt_succ_self pos
      · next label inner steps hid =>
        rw [hid]
        refine secures_bind (secures_tokenAt look pos) fun t => ?_
        exact takes_bind (takes_bind (ih hl depth) fun m => hrest t.line steps _) fun m =>
          advances_pure (Nat.le_refl _)
      · cases hl

/-- Alternatives behind one that has moved the frontier leave it there. -/
theorem moves_matchFirst {before after : List RuleId} {id : RuleId}
    (hbefore : ∀ j ∈ before, Takes pos (matchRef j pos)) (hid : Moves pos (matchRef id pos))
    (hadvances : ∀ j, Advances pos Matched.next (matchRef j pos)) :
    Moves pos (matchFirst matchRef pos (before ++ id :: after)) := by
  induction before with
  | nil =>
    refine secures_matchFirst_cons hid (secures_matchFirst fun j _ => ?_)
    refine (hadvances j (pos + 1)).mono (fun _ h => h) (fun m p hp => Or.inr hp.1) fun p hp => ?_
    omega
  | cons j before ih =>
    have hj := hbefore j (List.mem_cons_self ..)
    exact secures_matchFirst_cons (hj.mono (fun _ h => h) (fun _ _ => Or.inl) fun _ h => h)
      (ih fun i hi => hbefore i (List.mem_cons_of_mem _ hi))

theorem moves_matchChoice {before after : List RuleId} {id : RuleId}
    (hbefore : ∀ j ∈ before, Takes pos (matchRef j pos)) (hid : Moves pos (matchRef id pos))
    (hadvances : ∀ j, Advances pos Matched.next (matchRef j pos)) :
    Moves pos (matchChoice matchRef (before ++ id :: after) pos) := by
  rw [matchChoice, if_neg (by simp)]
  exact moves_matchFirst hbefore hid hadvances

variable (hlook : Ensures (fun _ => True) (tokenAt look pos) (· = t) fun _ => False)
include hlook

/-- A match that prediction lets in. -/
theorem moves_letIn {id : RuleId} (hid : g.Begins t id) {m : Match σ Matched} (hm : Moves pos m) :
    Moves pos (do if ← g.starts look id pos then m else return ⟨[], pos⟩) := by
  refine secures_bind ((ensures_starts hlook id).secures not_false) fun b p hb => ?_
  cases b with
  | true => exact hm p trivial
  | false => exact absurd (hb.2.mpr hid) Bool.false_ne_true

/-- Passing over an optional or a repeated rule that does not begin with the token. -/
theorem moves_passOver {id : RuleId} (hid : ¬ g.Begins t id) {m : Match σ Matched}
    {f : Matched → Match σ Matched} (hrest : ∀ nodes, Moves pos (f ⟨nodes, pos⟩)) :
    Moves pos ((do if ← g.starts look id pos then m else return ⟨[], pos⟩) >>= f) := by
  have hskip := ensures_passOver hlook hid (m := m) (Q := (·.next = pos)) (E := fun _ => False) rfl
  refine secures_bind (hskip.secures not_false) fun one p hone => ?_
  obtain ⟨-, rfl⟩ := hone
  exact hrest one.nodes p trivial

theorem moves_matchSteps (hword : t.kind = .separator → t.word = t.text) {L B : RuleId → Prop}
    (hL : ∀ id, L id → B id) (hB : ∀ id, B id → g.Begins t id)
    (hpass : ∀ id, L id → Moves pos (matchRef id pos))
    (hopen : ∀ id, g.Begins t id → ¬ B id → Exhausts (fun _ => True) (matchRef id pos))
    (hunbegun : ∀ id, ¬ g.Begins t id → Vain (fun _ => True) (matchRef id pos))
    (hkeyed : ∀ id, g.leadingLiteral id = some t.word → Takes pos (matchRef id pos))
    (hadvances : ∀ id pos, Advances pos Matched.next (matchRef id pos)) (count line : Nat)
    {steps : List Step} (hsteps : StepsPass L B t steps) (nodes : List ParseTree) :
    Moves pos (g.matchSteps look matchRef count line steps ⟨nodes, pos⟩) := by
  have hrest : ∀ (steps : List Step) (m : Matched), Advances m.next Matched.next
      (g.matchSteps look matchRef count line steps m) := fun steps m =>
    advances_matchSteps hadvances count line steps m
  have hvain : ∀ id, ¬ B id → Takes pos (matchRef id pos) := fun id hid => by
    by_cases h : g.Begins t id
    · exact (hopen id h hid).secures
    · exact (hunbegun id h).takes
  -- rules that begin with the token are let in by a match too, even those cut off by prediction
  have hbegun : ∀ id, g.Begins t id → (L id ∨ ¬ B id) → Moves pos (matchRef id pos) :=
    fun id h hid => hid.elim (hpass id) fun hid => (hopen id h hid).secures
  induction steps generalizing nodes with
  | nil => exact hsteps.elim
  | cons step steps ih =>
    cases step with
    | terminal x =>
      refine moves_bind (secures_bind ((ensures_test hlook x).secures not_false) fun o p ho => ?_)
        fun one => hrest steps _
      rw [if_pos (show x.accepts t = true from hsteps)] at ho
      obtain ⟨-, rfl⟩ := ho
      exact Or.inl (Nat.lt_succ_self pos)
    | rule id => exact moves_bind (hpass id hsteps) fun one => hrest steps _
    | optional id =>
      by_cases h : g.Begins t id
      · exact moves_bind (moves_letIn hlook h (hbegun id h (hsteps.imp_right And.left)))
          fun one => hrest steps _
      · have hsteps := (hsteps.resolve_left fun hid => h (hB id (hL id hid))).2
        exact moves_passOver hlook h fun nodes' => ih hsteps _
    | many id =>
      cases count with
      | zero => exact moves_bind secures_diverged fun one => hrest steps _
      | succ count =>
        by_cases h : g.Begins t id
        · refine moves_bind (moves_letIn hlook h ?_) fun one => hrest steps _
          refine moves_bind (hbegun id h (hsteps.imp_right And.left)) fun one => ?_
          split
          · exact advances_pure (Nat.le_refl _)
          · refine advances_bind ?_ fun others => advances_pure (Nat.le_refl _)
            exact advances_matchMany (fun _ => advances_starts id) (hadvances id) count one.next
        · have hsteps := (hsteps.resolve_left fun hid => h (hB id (hL id hid))).2
          exact moves_passOver hlook h fun nodes' => ih hsteps _
    | choice ids =>
      obtain ⟨before, id, after, rfl, hbefore, hid⟩ := hsteps
      refine moves_bind ?_ fun one => hrest steps _
      exact moves_matchChoice (fun j hj => hvain j (hbefore j hj)) (hpass id hid) (hadvances · pos)
    | dispatch ids =>
      obtain ⟨before, id, after, rfl, hbefore, hid⟩ := hsteps
      refine moves_bind (secures_bind (hlook.secures not_false) fun t' p ht => ?_)
        fun one => hrest steps _
      obtain ⟨-, rfl⟩ := ht
      have hmem : id ∈ g.candidates (before ++ id :: after) t'.word :=
        mem_candidates_of_begins hword (by simp) (hB id (hL id hid))
      obtain ⟨before', after', hsplit, htried⟩ := candidates_split hmem
      rw [hsplit]
      refine moves_matchChoice (fun j hj => ?_) (hpass id hid) (hadvances · pos) p trivial
      exact (htried j hj).elim (fun hj => hvain j (hbefore j hj)) (hkeyed j)
    | gather label members => exact ih hsteps _

end

section
variable {g : Grammar} {v : Preview} {size pos : Nat} {t : Token}

/-- If prediction lets a rule in by a test, while those under inspection do not end within the
depth, a match of the rule gets on. -/
theorem moves_matchRule (hv : v.EndsBy size) (hpos : pos ≤ size) (ht : v pos = .ok t)
    (hword : t.kind = .separator → t.word = t.text) {depth n : Nat} {inspected : List RuleId}
    (hopen : ∀ id ∈ inspected, ¬ g.SettlesAt v depth id pos) {id : RuleId}
    (hpass : g.PassesWithin t n inspected id) : Moves pos (g.matchRule v.look depth id pos) := by
  induction depth generalizing n inspected id with
  | zero => exact secures_diverged
  | succ depth ih =>
    have hlook := ensures_tokenAt_look ht
    have hopen' : ∀ id ∈ inspected, ¬ g.SettlesAt v depth id pos := fun id hid h =>
      hopen id hid (h.deeper hv hpos)
    by_cases hless : g.SettlesAt v depth id pos
    · -- the match ends earlier, and there it is the match with one level less
      intro p hp
      rw [hless.succ hv hpos p]
      exact ih hopen' hpass p hp
    · cases n with
      | zero => exact hpass.elim
      | succ n =>
        obtain ⟨hid, rule, hrule, hsteps⟩ := hpass
        have hopen'' : ∀ i ∈ id :: inspected, ¬ g.SettlesAt v depth i pos :=
          List.forall_mem_cons.mpr ⟨hless, hopen'⟩
        unfold matchRule
        rw [hrule]
        refine secures_bind (secures_tokenAt v.look pos) fun t' => ?_
        refine moves_bind (moves_matchSteps hlook hword ?_ ?_ ?_ ?_ ?_ ?_ (advances_matchRule depth)
          depth t'.line hsteps []) fun m => advances_pure (Nat.le_refl _)
        · exact fun i => PassesWithin.begins
        · rintro i ⟨k, hk⟩
          exact ⟨k, hk.of_avoided (List.nil_subset _)⟩
        · exact fun i => ih hopen''
        · exact fun i => exhausts_matchRule hv hpos ht hword hopen''
        · exact fun i => vain_matchRule hlook depth
        · exact fun i hl => takes_of_literal hl depth

end

end Grammar
end HandlerGrammar
