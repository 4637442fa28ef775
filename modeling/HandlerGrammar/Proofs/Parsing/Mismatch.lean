import HandlerGrammar.Proofs.Matching.Entering
import HandlerGrammar.Proofs.Matching.Tally
import HandlerGrammar.Proofs.Parsing.FirstTokens
import HandlerGrammar.Proofs.Parsing.Ending

/-! # Mismatches are found as far on as the match has got

A test that is passed may stand beyond the frontier for a while, but not when a match is refused.
Where the match has taken the token, another one is asked for behind it. Where prediction has let a
rule in by the test, the match of the rule takes the token or is refused further on.

* `Traced`: no test is passed at the frontier or beyond, but for those in front of some position;
* `traces_matchRule`: a match keeps this, in front of the position that it gets to;
* `mismatch_at_furthest`: the error of a parse, by all tests that were made. -/
namespace HandlerGrammar
open TokenStream
set_option autoImplicit false

/-! ## Tests in front of the frontier -/

/-- A recorded match in progress on a stream with the view `v`. The frontier is that of the tests,
and no test was passed but in front of the frontier or of `b`. -/
structure Traced (v : View) (b : Nat) (p : Progress (Recorded TokenStream)) : Prop where
  view : p.source.source.view = v
  classified : p.source.source.Classified
  frontier : p.frontier = tally p.source.tests
  passed : ∀ t ∈ p.source.tests, t.passed = true → t.position < max b p.frontier.position

/-- Something was refused at `pos` or beyond. -/
def RefusedFrom (pos : Nat) (p : Progress (Recorded TokenStream)) : Prop :=
  pos ≤ p.frontier.position ∧ p.frontier.expected ≠ []

/-- The progress behind one more test. -/
def Progress.tested {σ : Type} (p : Progress (Recorded σ)) (t : Test) : Progress (Recorded σ) :=
  ⟨⟨p.source.source, p.source.tests ++ [t]⟩,
    if t.passed then p.frontier else p.frontier.expect t.position t.expectation⟩

section
variable {v : View} {b b' pos : Nat} {p : Progress (Recorded TokenStream)}

theorem Traced.settle (h : Traced v b' p) (hb : b' ≤ max b p.frontier.position) : Traced v b p := by
  refine ⟨h.view, h.classified, h.frontier, fun t ht hpassed => ?_⟩
  have hlt := h.passed t ht hpassed
  omega

theorem Traced.mono (h : Traced v b p) (hb : b ≤ b') : Traced v b' p := h.settle (by omega)

theorem Traced.passing (h : Traced v b p) {t : Test} (ht : t.passed = true) :
    Traced v (max b (t.position + 1)) (p.tested t) := by
  refine ⟨h.view, h.classified, ?_, fun u hu hpassed => ?_⟩
  · rw [Progress.tested, if_pos ht, h.frontier]
    exact (tally_passed ht _).symm
  · rcases List.mem_append.mp hu with hu | hu
    · have hlt := h.passed u hu hpassed
      simp only [Progress.tested, if_pos ht]
      omega
    · obtain rfl := List.mem_singleton.mp hu
      omega

theorem Traced.failing (h : Traced v b p) {t : Test} (ht : t.passed = false) :
    Traced v b (p.tested t) ∧ RefusedFrom t.position (p.tested t) := by
  have hfrontier : (p.tested t).frontier = tally (p.source.tests ++ [t]) := by
    rw [Progress.tested, if_neg (by simp [ht]), h.frontier]
    exact (tally_failed ht _).symm
  have hle : (p.tested t).frontier.position = max p.frontier.position t.position := by
    rw [hfrontier, tally_failed ht, Frontier.position_expect, h.frontier]
  refine ⟨⟨h.view, h.classified, hfrontier, fun u hu hpassed => ?_⟩, by omega, fun hnil => ?_⟩
  · rcases List.mem_append.mp hu with hu | hu
    · have hlt := h.passed u hu hpassed
      omega
    · rw [List.mem_singleton.mp hu, ht] at hpassed
      cases hpassed
  · rw [hfrontier] at hnil
    have hpassed := (passed_of_expected_nil hnil).2 t (by simp)
    rw [ht] at hpassed
    cases hpassed

theorem tokenAt_through (h : Traced v b p) (pos : Nat) :
    (∃ t q, v.preview pos = .ok t ∧ tokenAt (Recording.through peek) pos p = .ok t q ∧
        Traced v b q) ∨
      ∃ e q, tokenAt (Recording.through peek) pos p = .error (.lexical e) q := by
  unfold HandlerGrammar.tokenAt Recording.through
  cases hpeek : peek pos p.source.source with
  | ok t s' =>
    obtain ⟨hpreview, hview, hs'⟩ := peek_ok_view h.classified hpeek
    exact Or.inl ⟨t, _, h.view ▸ hpreview, rfl, hview.trans h.view, hs', h.frontier, h.passed⟩
  | error e s' => exact Or.inr ⟨e, _, rfl⟩

/-! ## Contracts of recorded matches -/

/-- A recorded match from `pos` to `next`. In front of what it gets to, or of the frontier if it is
refused, tests may have been passed. -/
def Traces {α : Type} (v : View) (pos : Nat) (next : α → Nat) (m : Match (Recorded TokenStream) α) :
    Prop :=
  ∀ b, pos ≤ b → Secures (Traced v b) m (fun a p => Traced v (max b (next a)) p ∧ pos ≤ next a)
    (fun p => Traced v b p ∧ RefusedFrom pos p)

section
variable {α β : Type}

theorem traces_pure {a : α} {next : α → Nat} (h : pos ≤ next a) :
    Traces v pos next (pure a) :=
  fun _ _ => secures_pure fun _ hp => ⟨hp.mono (Nat.le_max_left _ _), h⟩

theorem traces_diverged {next : α → Nat} : Traces v pos next (throw .diverged) :=
  fun _ _ => secures_diverged

/-- A match that goes on from where another has got to. -/
theorem Traces.behind {k : Nat} {m : Match (Recorded TokenStream) α} {next : α → Nat}
    (h : Traces v k next m) :
    Secures (fun p => Traced v (max b k) p ∧ pos ≤ k) m
      (fun a p => Traced v (max b (next a)) p ∧ pos ≤ next a)
      (fun p => Traced v b p ∧ RefusedFrom pos p) := by
  intro p hp
  have hm := h (max b k) (Nat.le_max_right b k)
  refine hm.mono (fun _ h => h) (fun a q hq => ?_) (fun q hq => ?_) p hp.1
  · exact ⟨hq.1.settle (by omega), Nat.le_trans hp.2 hq.2⟩
  · have hfrontier := hq.2.1
    exact ⟨hq.1.settle (by omega), Nat.le_trans hp.2 hfrontier, hq.2.2⟩

theorem traces_bind {m : Match (Recorded TokenStream) α} {f : α → Match (Recorded TokenStream) β}
    {next : α → Nat} {next' : β → Nat} (hm : Traces v pos next m)
    (hf : ∀ a, Traces v (next a) next' (f a)) : Traces v pos next' (m >>= f) :=
  fun b hb => secures_bind (hm b hb) fun a => (hf a).behind

theorem traces_tokenAt (pos' : Nat) :
    Traces v pos (fun _ => pos) (tokenAt (Recording.through peek) pos') := by
  intro b hb p hp
  rcases tokenAt_through hp pos' with ⟨t, q, -, hq, hq'⟩ | ⟨e, q, hq⟩
  · rw [hq]
    exact ⟨hq'.mono (Nat.le_max_left _ _), Nat.le_refl _⟩
  · rw [hq]
    trivial

theorem traces_refuse (what : String) {next : α → Nat} :
    Traces v pos next (Recording.refuse pos what) :=
  fun _ _ _ hp => hp.failing (t := ⟨pos, what, false⟩) rfl

/-- A test of the token at a position. -/
theorem secures_recordedTest (x : Terminal) {Refused : Progress (Recorded TokenStream) → Prop} :
    Secures (Traced v b) (Recording.test peek pos x)
      (fun o p => (∃ t, o = some t ∧ v.preview pos = .ok t ∧ x.accepts t = true ∧
        Traced v (max b (pos + 1)) p) ∨ o = none ∧ Traced v b p ∧ RefusedFrom pos p) Refused := by
  intro p hp
  rcases tokenAt_through hp pos with ⟨t, q, hpreview, hq, hq'⟩ | ⟨e, q, hq⟩
  · have htest : Recording.test peek pos x p =
        if x.accepts t then .ok (some t) (q.tested ⟨pos, x.describe, true⟩)
        else .ok none (q.tested ⟨pos, x.describe, false⟩) := by
      simp only [Recording.test, HandlerGrammar.test, bind, EStateM.bind, hq]
      cases x.accepts t <;> rfl
    rw [htest]
    by_cases hx : x.accepts t = true
    · rw [if_pos hx]
      exact Or.inl ⟨t, rfl, hpreview, hx, hq'.passing (t := ⟨pos, x.describe, true⟩) rfl⟩
    · rw [if_neg hx]
      exact Or.inr ⟨rfl, hq'.failing rfl⟩
  · have htest : Recording.test peek pos x p = .error (.lexical e) q := by
      simp only [Recording.test, HandlerGrammar.test, bind, EStateM.bind, hq]
    rw [htest]
    trivial

end

/-! ## Recorded predictions -/

/-- Behind a prediction that has answered `ok`: unless it was a test passed at `pos` that gave the
answer, as `Pass` says, no test has been passed. -/
def Foretold (v : View) (b pos : Nat) (t : Token) (Pass : Prop) (ok : Bool)
    (p : Progress (Recorded TokenStream)) : Prop :=
  Traced v b p ∨ (ok = true ∧ Pass) ∧ v.preview pos = .ok t ∧ Traced v (max b (pos + 1)) p

theorem Foretold.traced {t : Token} {Pass : Prop} (h : Foretold v b pos t Pass false p) :
    Traced v b p :=
  h.resolve_right fun h => Bool.false_ne_true h.1.1

theorem Foretold.imp {t : Token} {Pass Pass' : Prop} {ok ok' : Bool}
    (h : Foretold v b pos t Pass ok p)
    (himp : v.preview pos = .ok t → ok = true → Pass → ok' = true ∧ Pass') :
    Foretold v b pos t Pass' ok' p :=
  h.imp_right fun h => ⟨himp h.2.1 h.1.1 h.1.2, h.2⟩

end

namespace Grammar

section
variable {g : Grammar} {v : View} {b pos : Nat} {t : Token} {L B : RuleId → Prop}
  {starts : RuleId → Match (Recorded TokenStream) Bool}
  {Refused : Progress (Recorded TokenStream) → Prop}

theorem foretold_anyStarts
    (hstarts : ∀ id, Secures (Traced v b) (starts id) (fun ok p => Foretold v b pos t (L id) ok p ∧
      (v.preview pos = .ok t → (ok = true ↔ B id))) Refused) (ids : List RuleId) :
    Secures (Traced v b) (anyStarts starts ids)
      (Foretold v b pos t (∃ before id after, ids = before ++ id :: after ∧
        (∀ i ∈ before, ¬ B i) ∧ L id)) Refused := by
  induction ids with
  | nil => exact secures_pure fun _ hp => Or.inl hp
  | cons id ids ih =>
    refine secures_bind (hstarts id) fun ok p hp => ?_
    obtain ⟨hp, hB⟩ := hp
    cases ok with
    | true =>
      exact hp.imp fun _ _ hL =>
        ⟨rfl, [], id, ids, rfl, fun i hi => absurd hi List.not_mem_nil, hL⟩
    | false =>
      refine ih.mono (fun _ h => h) (fun ok' q hq => hq.imp fun hread hok hpass => ⟨hok, ?_⟩)
        (fun _ h => h) p hp.traced
      have hid : ¬ B id := fun h => Bool.false_ne_true ((hB hread).mpr h)
      obtain ⟨before, i, after, rfl, hbefore, hi⟩ := hpass
      exact ⟨id :: before, i, after, rfl, List.forall_mem_cons.mpr ⟨hid, hbefore⟩, hi⟩

theorem foretold_stepsStart (ht : ∀ u, v.preview pos = .ok u → u = t)
    (hstarts : ∀ id, Secures (Traced v b) (starts id) (fun ok p => Foretold v b pos t (L id) ok p ∧
      (v.preview pos = .ok t → (ok = true ↔ B id))) Refused) (steps : List Step) :
    Secures (Traced v b) (Recording.stepsStart peek starts pos steps)
      (Foretold v b pos t (StepsPass L B t steps)) Refused := by
  induction steps with
  | nil => exact secures_pure fun _ hp => Or.inl hp
  | cons step steps ih =>
    cases step with
    | terminal x =>
      refine secures_bind (secures_recordedTest x) fun o => secures_pure fun p hp => ?_
      rcases hp with ⟨u, rfl, hpreview, hx, hp⟩ | ⟨rfl, hp, -⟩
      · obtain rfl := ht u hpreview
        exact Or.inr ⟨⟨rfl, hx⟩, hpreview, hp⟩
      · exact Or.inl hp
    | rule id => exact (hstarts id).mono (fun _ h => h) (fun ok p hp => hp.1) fun _ h => h
    | optional id | many id =>
      refine secures_bind (hstarts id) fun ok p hp => ?_
      obtain ⟨hp, hB⟩ := hp
      cases ok with
      | true => exact hp.imp fun _ _ hL => ⟨rfl, Or.inl hL⟩
      | false =>
        refine ih.mono (fun _ h => h) (fun ok' q hq => hq.imp fun hread hok hsteps => ?_)
          (fun _ h => h) p hp.traced
        exact ⟨hok, Or.inr ⟨fun h => Bool.false_ne_true ((hB hread).mpr h), hsteps⟩⟩
    | choice ids | dispatch ids => exact foretold_anyStarts hstarts ids
    | gather label members => exact ih

theorem foretold_startsWithin (ht : ∀ u, v.preview pos = .ok u → u = t) (depth : Nat)
    (inspected : List RuleId) (hdepth : g.uninspected inspected < depth) (id : RuleId) :
    Secures (Traced v b) (Recording.startsWithin g peek pos depth inspected id)
      (fun ok p => Foretold v b pos t (g.PassesWithin t depth inspected id) ok p ∧
        (v.preview pos = .ok t → (ok = true ↔ ∃ n, g.BeginsWithin t inspected n id))) Refused := by
  induction depth generalizing inspected id with
  | zero => exact secures_diverged
  | succ depth ih =>
    refine Secures.and_of_ok ?_ fun p ok q hp hok hread => ?_
    · unfold Recording.startsWithin
      cases hrule : g.rule? id with
      | none => exact secures_pure fun p hp => Or.inl hp
      | some rule =>
        dsimp only
        split
        · exact secures_pure fun p hp => Or.inl hp
        · next hid =>
          have hid : id ∉ inspected := by simpa using hid
          have hless := uninspected_cons_lt hrule hid
          refine (foretold_stepsStart ht (ih (id :: inspected) (by omega)) rule.steps).mono
            (fun _ h => h) (fun ok p hp => hp.imp fun _ hok hsteps => ?_) fun _ h => h
          exact ⟨hok, hid, rule, hrule, hsteps⟩
    · have hanswer := ensures_startsWithin (g := g) (ensures_tokenAt_peek hread) (depth + 1)
        inspected hdepth id p.plain ⟨hp.view, hp.classified⟩
      rw [← records_startsWithin peek g pos (depth + 1) inspected id p, hok] at hanswer
      exact hanswer.2

/-- Prediction has no test to show but one that lets the rule in. -/
theorem foretold_starts (ht : ∀ u, v.preview pos = .ok u → u = t) (id : RuleId) :
    Secures (Traced v b) (Recording.starts g peek id pos)
      (Foretold v b pos t (g.PassesWithin t (g.rules.length + 1) [] id)) Refused :=
  (foretold_startsWithin ht _ [] (Nat.lt_succ_of_le (g.uninspected_le [])) id).mono (fun _ h => h)
    (fun _ _ h => h.1) fun _ h => h

end

/-! ## Recorded matches -/

/-- Whatever a match of a preview says about the frontier goes for a recorded match of a stream. -/
theorem secures_of_preview {α : Type} (Post : α → Frontier → Prop) (R : Frontier → Prop) {v : View}
    {b : Nat} {m : Match (Recorded TokenStream) α} {m₀ : Match TokenStream α} {m' : Match Unit α}
    {Q : α → Prop} (hrecords : Records m m₀) (hfollows : Follows (alongside v) m₀ m' Q)
    (h : Secures (fun _ => True) m' (fun a p => Post a p.frontier) (fun p => R p.frontier)) :
    Secures (Traced v b) m (fun a p => Post a p.frontier) (fun p => R p.frontier) := by
  intro p hp
  have halike := hfollows p.plain ⟨(), p.frontier⟩ ⟨hp.view, hp.classified, rfl⟩
  have hpreview := h ⟨(), p.frontier⟩ trivial
  rw [← hrecords p] at halike
  generalize m' ⟨(), p.frontier⟩ = r' at halike hpreview
  cases hm : m p with
  | ok a q =>
    rw [hm] at halike
    change Alike _ _ (.ok a q.plain) r' at halike
    cases halike with
    | result _ hq =>
      have hfrontier : q.frontier = _ := hq.2.2
      change Post a q.frontier
      rw [hfrontier]
      exact hpreview
  | error stop q =>
    rw [hm] at halike
    change Alike _ _ (.error stop q.plain) r' at halike
    cases halike with
    | refused hq =>
      have hfrontier : q.frontier = _ := hq.2.2
      change R q.frontier
      rw [hfrontier]
      exact hpreview
    | lexical _ => trivial
    | diverged _ => trivial
    | excused _ => trivial

variable {g : Grammar} {v : View} {depth : Nat} {id : RuleId} {pos : Nat}

/-- A recorded match of a rule that prediction has let in by a test. -/
theorem secures_passed {b n : Nat} {t : Token} (hread : v.preview pos = .ok t)
    (hpass : g.PassesWithin t n [] id) (depth : Nat) :
    Secures (Traced v b) (Recording.matchRule g peek depth id pos)
      (fun m p => pos < m.next ∨ pos < p.frontier.position) (pos < ·.frontier.position) := by
  intro p hp
  have hword : t.kind = .separator → t.word = t.text :=
    word_of_preview hp.classified (hp.view.symm ▸ hread)
  have hend : v.preview.EndsBy (max v.scanned.length pos) := fun k u hk =>
    View.endsBy_preview v k u (by omega)
  have hmoves : Moves pos (g.matchRule v.preview.look depth id pos) :=
    moves_matchRule hend (Nat.le_max_right _ _) hread hword
      (fun id hid => absurd hid List.not_mem_nil) hpass
  have hfollows := follows_matchRule (g := g) ((paired_alongside v).mono (Nat.le_max_left _ pos))
    (Or.inl (rfl : depth = depth)) id (Nat.le_max_right _ _)
  exact secures_of_preview (fun (m : Matched) f => pos < m.next ∨ pos < f.position)
    (pos < ·.position) (records_matchRule peek g depth id pos) hfollows hmoves p hp

/-- A match of a rule that prediction may have let in by a test. -/
def Enters (g : Grammar) (v : View) (id : RuleId) (pos : Nat)
    (m : Match (Recorded TokenStream) Matched) : Prop :=
  ∀ b t, pos ≤ b →
    Secures (Foretold v b pos t (g.PassesWithin t (g.rules.length + 1) [] id) true) m
      (fun a p => Traced v (max b a.next) p ∧ pos ≤ a.next)
      (fun p => Traced v b p ∧ RefusedFrom pos p)

theorem Enters.traces {m : Match (Recorded TokenStream) Matched} (h : Enters g v id pos m) :
    Traces v pos Matched.next m :=
  fun b hb => (h b (.eof 1) hb).mono (fun _ hp => Or.inl hp) (fun _ _ h => h) fun _ h => h

theorem enters_bind {m : Match (Recorded TokenStream) Matched}
    {f : Matched → Match (Recorded TokenStream) Matched} (hm : Enters g v id pos m)
    (hf : ∀ a, Traces v a.next Matched.next (f a)) : Enters g v id pos (m >>= f) :=
  fun b t hb => secures_bind (hm b t hb) fun a => (hf a).behind

theorem enters_matchRule (h : Traces v pos Matched.next (Recording.matchRule g peek depth id pos)) :
    Enters g v id pos (Recording.matchRule g peek depth id pos) := by
  rintro b t hb p (hp | ⟨⟨-, hpass⟩, hread, hp⟩)
  · exact h b hb p hp
  · -- the test that prediction has passed at `pos` is made up for by the match
    have htraced := h (max b (pos + 1)) (by omega) p hp
    have hmoved := secures_passed hread hpass depth p hp
    cases hm : Recording.matchRule g peek depth id pos p with
    | ok a q =>
      rw [hm] at htraced hmoved
      exact ⟨htraced.1.settle (by omega), htraced.2⟩
    | error stop q =>
      rw [hm] at htraced hmoved
      cases stop with
      | mismatch => exact ⟨htraced.1.settle (by omega), htraced.2⟩
      | lexical e => trivial
      | diverged => trivial

theorem traces_letIn {m : Match (Recorded TokenStream) Matched} (hm : Enters g v id pos m) :
    Traces v pos Matched.next
      (do if ← Recording.starts g peek id pos then m else return ⟨[], pos⟩) := by
  obtain ⟨t, ht⟩ : ∃ t, ∀ u, v.preview pos = .ok u → u = t := by
    cases v.preview pos with
    | ok t => exact ⟨t, fun u hu => (Except.ok.inj hu).symm⟩
    | error e => exact ⟨.eof 1, fun u hu => by cases hu⟩
  intro b hb
  refine secures_bind (foretold_starts ht id) fun ok => ?_
  cases ok with
  | true => exact hm b t hb
  | false => exact secures_pure fun p hp => ⟨hp.traced.mono (Nat.le_max_left _ _), Nat.le_refl _⟩

theorem traces_matchTerminal (x : Terminal) :
    Traces v pos Matched.next (Recording.matchTerminal peek x pos) := by
  intro b hb
  refine secures_bind (secures_recordedTest x) fun o => ?_
  cases o with
  | none =>
    refine secures_mismatch fun p hp => ?_
    obtain ⟨t, ht, -⟩ | ⟨-, hp⟩ := hp
    · cases ht
    · exact hp
  | some t =>
    refine secures_pure fun p hp => ?_
    obtain ⟨-, -, -, -, hp⟩ | ⟨ht, -⟩ := hp
    · exact ⟨hp, Nat.le_succ pos⟩
    · cases ht

section
variable {matchRef : RuleId → Nat → Match (Recorded TokenStream) Matched}

theorem traces_matchChoice (href : ∀ id, Traces v pos Matched.next (matchRef id pos))
    (ids : List RuleId) : Traces v pos Matched.next (Recording.matchChoice matchRef ids pos) := by
  cases ids with
  | nil => exact traces_refuse _
  | cons id ids =>
    exact fun b hb => secures_matchFirst_cons (href id b hb) (secures_matchFirst fun id' _ =>
      (href id' b hb).mono (fun _ => And.left) (fun _ _ h => h) fun _ h => h)

theorem traces_matchMany {matchOne : Nat → Match (Recorded TokenStream) Matched}
    (hone : ∀ pos, Enters g v id pos (matchOne pos)) (count pos : Nat) :
    Traces v pos Matched.next (matchMany (Recording.starts g peek id) matchOne count pos) := by
  induction count generalizing pos with
  | zero => exact traces_diverged
  | succ count ih =>
    refine traces_letIn (enters_bind (hone pos) fun one => ?_)
    split
    · exact traces_pure (Nat.le_refl _)
    · exact traces_bind (ih one.next) fun others => traces_pure (Nat.le_refl _)

theorem traces_matchStep (href : ∀ id pos, Enters g v id pos (matchRef id pos)) (count : Nat)
    (step : Step) (pos : Nat) :
    Traces v pos Matched.next (Recording.matchStep g peek matchRef count step pos) := by
  cases step with
  | terminal x => exact traces_matchTerminal x
  | rule id => exact (href id pos).traces
  | optional id => exact traces_letIn (href id pos)
  | many id => exact traces_matchMany (href id) count pos
  | choice ids => exact traces_matchChoice (fun id => (href id pos).traces) ids
  | dispatch ids =>
    exact traces_bind (traces_tokenAt pos) fun t =>
      traces_matchChoice (fun id => (href id pos).traces) _
  | gather label members => exact traces_pure (Nat.le_refl _)

theorem traces_matchSteps (href : ∀ id pos, Enters g v id pos (matchRef id pos)) (count line : Nat)
    (steps : List Step) (m : Matched) :
    Traces v m.next Matched.next (Recording.matchSteps g peek matchRef count line steps m) := by
  induction steps generalizing m with
  | nil => exact traces_pure (Nat.le_refl _)
  | cons step steps ih =>
    rcases step.gather_or_ne with ⟨label, members, rfl⟩ | hstep
    · exact ih ⟨ParseTree.gather label members line m.nodes, m.next⟩
    · rw [Recording.matchSteps_cons g peek matchRef count line hstep]
      exact traces_bind (traces_matchStep href count step m.next) fun one =>
        ih ⟨m.nodes ++ one.nodes, one.next⟩

end

theorem traces_matchRule (depth : Nat) (id : RuleId) (pos : Nat) :
    Traces v pos Matched.next (Recording.matchRule g peek depth id pos) := by
  induction depth generalizing id pos with
  | zero => exact traces_diverged
  | succ depth ih =>
    unfold Recording.matchRule
    cases g.rule? id with
    | none => exact traces_refuse _
    | some rule =>
      refine traces_bind (traces_tokenAt pos) fun t => ?_
      exact traces_bind (traces_matchSteps (fun id pos => enters_matchRule (ih id pos)) depth t.line
        rule.steps ⟨[], pos⟩) fun m => traces_pure (Nat.le_refl _)

theorem traces_matchAll (g : Grammar) (v : View) (depth : Nat) :
    Traces v 0 (fun r => r.2 + 1) (Recording.matchAll g peek depth) := by
  refine traces_bind (traces_matchRule depth g.entry 0) fun m => ?_
  refine traces_bind (traces_tokenAt m.next) fun last => ?_
  split
  · have hrecord : Traces v m.next (fun _ => m.next + 1)
        (Recording.record ⟨m.next, "end of input", true⟩) :=
      fun b _ p hp => ⟨hp.passing (t := ⟨m.next, "end of input", true⟩) rfl, Nat.le_succ _⟩
    refine traces_bind hrecord fun _ => ?_
    exact traces_bind (traces_tokenAt 0) fun first => traces_pure (Nat.le_refl _)
  · exact traces_refuse _

/-- The match behind a parse, with a record of its tests. -/
def recordedRun (g : Grammar) (s : TokenStream) :
    EStateM.Result Stop (Progress (Recorded TokenStream)) (ParseTree × Nat) :=
  Recording.matchAll g peek (g.depthFor s.size) ⟨⟨g.prepared s, []⟩, .start⟩

/-- The error of a parse that is refused is read off the frontier. -/
theorem frontier_of_parse {s s' : TokenStream} {token : Token} {expected : List String}
    (h : g.parse s = .error (.mismatch token expected) s') :
    ∃ q s'', g.matchAll peek (g.depthFor s.size) ⟨g.prepared s, .start⟩ = .error .mismatch q ∧
      peek q.frontier.position q.source = .ok token s'' ∧ q.frontier.expected = expected := by
  cases hm : g.matchAll peek (g.depthFor s.size) ⟨g.prepared s, .start⟩ with
  | ok r q => cases (parse_of_ok hm).symm.trans h
  | error stop q =>
    have houtcome := (outcome_of_error hm).symm.trans (outcome_of_parse_error h)
    have herror : (errorOf peek stop q).1 = .mismatch token expected :=
      Except.error.inj (congrArg Prod.fst houtcome)
    cases stop with
    | lexical e => cases herror
    | diverged => cases herror
    | mismatch =>
      unfold errorOf at herror
      dsimp only at herror
      cases hpeek : peek q.frontier.position q.source with
      | ok t s'' =>
        rw [hpeek] at herror
        cases herror
        exact ⟨q, s'', rfl, hpeek, rfl⟩
      | error e s'' =>
        rw [hpeek] at herror
        cases herror

end Grammar

open Grammar

/-- Whatever has been asked of a stream before: if a parse is refused, its error stands at the
furthest position at which any test of the run failed, those of prediction included, and no test was
passed there or further on. It expects what the tests that failed there expected, each expectation
once and in the order of the tests, and at least one. -/
theorem mismatch_at_furthest (g : Grammar) (v : Vocabulary) (bytes : List UInt8)
    (before : List Request) {token : Token} {expected : List String} {s' : TokenStream}
    (h : g.parse (attend before (.ofBytes v bytes)).2 = .error (.mismatch token expected) s') :
    let s := (attend before (.ofBytes v bytes)).2
    plainly (g.recordedRun s) = g.matchAll peek (g.depthFor s.size) ⟨g.prepared s, .start⟩ ∧
    ∃ p, g.recordedRun s = .error .mismatch p ∧
      let tests := p.source.tests
      ∃ k, (∃ t ∈ tests, t.passed = false ∧ t.position = k) ∧
        (∀ t ∈ tests, t.passed = false → t.position ≤ k) ∧
        (∀ t ∈ tests, t.passed = true → t.position < k) ∧
        token = (g.prepared s).shown k ∧ expected = expectedAt tests k ∧ expected ≠ [] ∧
        expected.Nodup := by
  intro s
  have hs : s.Classified := classified_attend v bytes before
  have hrun : plainly (g.recordedRun s) =
      g.matchAll peek (g.depthFor s.size) ⟨g.prepared s, .start⟩ :=
    records_matchAll peek g (g.depthFor s.size) _
  refine ⟨hrun, ?_⟩
  obtain ⟨q, s'', hmatch, hpeek, hexpected⟩ := frontier_of_parse h
  have hstart : Traced (g.prepared s).view 0 ⟨⟨g.prepared s, []⟩, .start⟩ :=
    ⟨rfl, prepared_classified hs, rfl, fun t ht => absurd ht List.not_mem_nil⟩
  have htraced := traces_matchAll g (g.prepared s).view (g.depthFor s.size) 0 (Nat.le_refl 0) _
    hstart
  rw [hmatch] at hrun
  cases hrecorded : g.recordedRun s with
  | ok r p =>
    rw [hrecorded] at hrun
    cases hrun
  | error stop p =>
    rw [hrecorded] at hrun
    cases hrun
    rw [recordedRun] at hrecorded
    rw [hrecorded] at htraced
    obtain ⟨htraced, -, hsome⟩ := htraced
    have hexpectedAt : expected = expectedAt p.source.tests p.frontier.position := by
      rw [← hexpected, htraced.frontier, ← expected_tally, ← htraced.frontier]
      rfl
    have hne : expected ≠ [] := hexpected ▸ hsome
    have hnodup : expected.Nodup := by
      rw [hexpectedAt, htraced.frontier, ← expected_tally]
      exact nodup_tally _
    refine ⟨p, rfl, p.frontier.position, exists_failed_at (hexpectedAt ▸ hne),
      fun t ht hfailed => ?_, fun t ht hpassed => ?_, ?_, hexpectedAt, hne, hnodup⟩
    · rw [htraced.frontier]
      exact position_le_tally t ht hfailed
    · have hlt := htraced.passed t ht hpassed
      rwa [Nat.zero_max] at hlt
    · have hpreview := (peek_ok_view htraced.classified hpeek).1
      exact shown_of_preview (prepared_classified hs) (htraced.view ▸ hpreview)

/-- The text `1 1`. -/
def repeatedSource : List UInt8 := [49, 32, 49]

/-- The first number passes the test of prediction and that of the match, and a semicolon is missing
behind it. -/
theorem mismatch_at_furthest_sample :
    let s := (attend [] (.ofBytes .standard repeatedSource)).2
    ∃ s', statementGrammar.parse s =
        .error (.mismatch ⟨.integer, 1, "1", .integer 1⟩ ["`;`"]) s' ∧
      ∃ p, statementGrammar.recordedRun s = .error .mismatch p ∧
        ∃ k, (∀ t ∈ p.source.tests, t.passed = true → t.position < k) ∧
          ["`;`"] = expectedAt p.source.tests k := by
  intro s
  have hparse : statementGrammar.parse s =
      .error (.mismatch ⟨.integer, 1, "1", .integer 1⟩ ["`;`"]) (statementGrammar.outcome s).2 :=
    statementGrammar.parse_of_map_error (by decide +kernel)
  obtain ⟨-, p, hrun, k, -, -, hpassed, -, hexpected, -, -⟩ :=
    mismatch_at_furthest statementGrammar .standard repeatedSource [] hparse
  exact ⟨_, hparse, p, hrun, k, hpassed, hexpected⟩

end HandlerGrammar
