import HandlerGrammar.Proofs.Document.Layout

/-! # Matching phrases

In a grammar laid out by parts a rule matches every phrase of its part, to its end. Where several
rules are tried, those before the right one may match too, but then they match as many tokens,
since values delimit themselves; and an optional or repeated part is entered exactly if it is
there, since it never begins with the delimiter that follows it.

A match at too small a depth stops as diverged; the statements here leave that open.

* `Completes`: a match that takes a given number of tokens, unless it diverges;
* `Walks`: steps that do so from any nodes on;
* `completes_alternatives`: the right one of several rules;
* `LaidOut.completes`: a rule and a phrase of its part. -/
namespace HandlerGrammar
set_option autoImplicit false

variable {C σ : Type} {I : σ → Prop} {g : Grammar} {look : Lookahead σ} {toks : Nat → Token}
  {plan : List (Part C)}

/-- The match ends at the given position, unless it diverges. -/
def Completes (I : σ → Prop) (m : Match σ Matched) (next : Nat) : Prop :=
  Ensures I m (fun r => r.next = next) (· = .diverged)

/-- The steps lead from one position to another, unless they diverge. -/
def Walks (I : σ → Prop) (g : Grammar) (look : Lookahead σ)
    (matchRef : RuleId → Nat → Match σ Matched) (count : Nat) (steps : List Step) (a b : Nat) : Prop :=
  ∀ line nodes, Completes I (g.matchSteps look matchRef count line steps ⟨nodes, a⟩) b

section
variable {matchRef : RuleId → Nat → Match σ Matched} {count : Nat} {steps : List Step} {a b c : Nat}

theorem walks_nil : Walks I g look matchRef count [] a a :=
  fun _ _ => ensures_pure rfl

theorem walks_gathers (groups : List (String × List String)) :
    Walks I g look matchRef count (groups.map fun group => .gather group.1 group.2) a a := by
  induction groups with
  | nil => exact walks_nil
  | cons group groups ih => exact fun line nodes => ih line _

theorem walks_cons {step : Step} (hstep : ∀ label members, step ≠ .gather label members)
    (hfirst : Completes I (g.matchStep look matchRef count step a) b)
    (hrest : Walks I g look matchRef count steps b c) :
    Walks I g look matchRef count (step :: steps) a c := by
  intro line nodes
  rw [Completes, Grammar.matchSteps_cons g look matchRef count line hstep]
  refine ensures_bind hfirst fun one hone => ?_
  rw [hone]
  exact hrest line _

theorem walks_terminal (hlook : Shows I look toks (· = .diverged)) {x : Terminal}
    (hx : x.accepts (toks a) = true) (hrest : Walks I g look matchRef count steps (a + 1) b) :
    Walks I g look matchRef count (.terminal x :: steps) a b := by
  refine walks_cons (fun _ _ h => nomatch h) ?_ hrest
  refine (Grammar.ensures_matchTerminal hlook x a).mono ?_ ?_
  · rintro m ⟨-, rfl⟩
    rfl
  · rintro e (he | ⟨-, hno⟩)
    · exact he
    · rw [hx] at hno
      cases hno

theorem walks_rule {id : RuleId} (hfirst : Completes I (matchRef id a) b)
    (hrest : Walks I g look matchRef count steps b c) :
    Walks I g look matchRef count (.rule id :: steps) a c :=
  walks_cons (fun _ _ h => nomatch h) hfirst hrest

end

theorem completes_rule (hlook : Shows I look toks (· = .diverged)) {id : RuleId} {body : Rule}
    (hbody : g.rule? id = some body) {pos next : Nat}
    (h : ∀ depth, Walks I g look (g.matchRule look depth) depth body.steps pos next) (depth : Nat) :
    Completes I (g.matchRule look depth id pos) next := by
  cases depth with
  | zero => exact ensures_throw rfl
  | succ depth =>
    unfold Grammar.matchRule
    rw [hbody]
    refine ensures_bind (hlook pos) fun t _ => ?_
    exact ensures_bind (h depth t.line []) fun m hm => ensures_pure hm

/-! ## Alternatives -/

theorem Part.Shape.length_eq {p : Part C} {q : Part C} (hq : q ∈ p.alternatives)
    {ts us : List Token} (h : p.Shape ts) (h' : p.Shape us) {pos : Nat} (hts : Reads toks pos ts)
    (hus : Reads toks pos us) : ts.length = us.length := by
  cases p with
  | scalar | key => exact (delimited_of_single h).length_eq (delimited_of_single h') hts hus
  | generic | document _ => exact Delimited.length_eq h h' hts hus
  | member _ => exact MemberShaped.length_eq h h' hts hus
  | _ => cases hq

theorem LaidOut.ensures_phrase (h : LaidOut g plan) (hlook : Shows I look toks (· = .diverged))
    {id : RuleId} {p : Part C} (hid : plan[id]? = some p) (depth pos : Nat) :
    Ensures I (g.matchRule look depth id pos)
      (fun m => ∃ ts, Phrase p ts ∧ Reads toks pos ts ∧ m.next = pos + ts.length)
      (fun e => e = .diverged ∨ e = .mismatch) := by
  have hderives := Grammar.matchRule_derives (g := g) (hlook.mono fun e he =>
    (Or.inl he : e = .diverged ∨ e = .mismatch)) (Or.inr rfl) (Or.inl rfl) depth id pos
  refine hderives.result fun m ⟨d, hd, _⟩ => ?_
  have htokens : Derivation.tokensOf [d] = d.tokens := List.append_nil _
  obtain ⟨hreads, hnext⟩ := hd.reads
  rw [htokens] at hreads hnext
  exact ⟨d.tokens, h.phrase hid hd, hreads, hnext⟩

/-- If one of several rules for alternatives of a part completes a phrase, so does trying all. -/
theorem completes_alternatives (h : LaidOut g plan) (hlook : Shows I look toks (· = .diverged))
    {p : Part C} {ids : List RuleId} {depth pos : Nat} {ts : List Token}
    (hids : ∀ id ∈ ids, ∃ q ∈ p.alternatives, plan[id]? = some q)
    (hp : Phrase p ts) (hts : Reads toks pos ts) {good : RuleId} (hgood : good ∈ ids)
    (hcompletes : Completes I (g.matchRule look depth good pos) (pos + ts.length)) :
    Completes I (Grammar.matchChoice (g.matchRule look depth) ids pos) (pos + ts.length) := by
  have hall : ∀ id ∈ ids, Ensures I (g.matchRule look depth id pos)
      (fun m => m.next = pos + ts.length)
      (fun e => e = .diverged ∨ e = .mismatch ∧ id ≠ good) := by
    intro id hid
    by_cases heq : id = good
    · rw [heq]
      exact hcompletes.stop fun _ => Or.inl
    · obtain ⟨q, hq, hplan⟩ := hids id hid
      refine (h.ensures_phrase hlook hplan depth pos).mono ?_ ?_
      · rintro m ⟨us, hus, hreads, hnext⟩
        have hlen := Part.Shape.length_eq hq (Phrase.choice hq hus).shape hp.shape hreads hts
        rw [hnext, hlen]
      · rintro e (he | he)
        · exact Or.inl he
        · exact Or.inr ⟨he, heq⟩
  refine (Grammar.ensures_matchChoice hall).mono ?_ ?_
  · rintro m ⟨_, _, hm⟩
    exact hm
  · rintro e (he | ⟨-, hno⟩)
    · exact he
    · exact absurd rfl (hno good hgood)

/-! ## Phrases -/

/-- A phrase is matched to its end by every rule for its part. The rules for lists look at the token
behind it, which has to be a closing delimiter. -/
structure Completion (I : σ → Prop) (g : Grammar) (look : Lookahead σ) (toks : Nat → Token)
    (plan : List (Part C)) (p : Part C) (ts : List Token) : Prop where
  rule : ∀ (id depth pos : Nat), plan[id]? = some p → Reads toks pos ts →
    ((∃ q, p = .items q) → Closes (toks (pos + ts.length))) →
    Completes I (g.matchRule look depth id pos) (pos + ts.length)
  rest : ∀ q, p = .rest q → ∀ (id depth count pos : Nat), plan[id]? = some (.next q) →
    Reads toks pos ts → Closes (toks (pos + ts.length)) →
    Completes I (Grammar.matchMany (g.starts look id) (g.matchRule look depth id) count pos)
      (pos + ts.length)
  optional : ∀ q, p = .optional q → q.isNext = false → ∀ (id depth count pos : Nat),
    plan[id]? = some q → Reads toks pos ts → Closes (toks (pos + ts.length)) →
    Completes I (g.matchStep look (g.matchRule look depth) count (.optional id) pos)
      (pos + ts.length)

section
variable {p : Part C} {ts : List Token}

theorem Completion.of_rule (hrest : ∀ q, p ≠ .rest q) (hoptional : ∀ q, p ≠ .optional q)
    (h : ∀ (id depth pos : Nat), plan[id]? = some p → Reads toks pos ts →
      ((∃ q, p = .items q) → Closes (toks (pos + ts.length))) →
      Completes I (g.matchRule look depth id pos) (pos + ts.length)) :
    Completion I g look toks plan p ts :=
  ⟨h, fun q hq => absurd hq (hrest q), fun q hq => absurd hq (hoptional q)⟩

/-- A phrase of an item needs no delimiter behind it. -/
theorem Completion.item (h : Completion I g look toks plan p ts) (hp : p.isItem = true)
    {id depth pos : Nat} (hid : plan[id]? = some p) (hts : Reads toks pos ts) :
    Completes I (g.matchRule look depth id pos) (pos + ts.length) := by
  refine h.rule id depth pos hid hts ?_
  rintro ⟨q, rfl⟩
  cases hp

/-- A choice or a dispatch leads to the rule for the alternative that stands there. -/
theorem completion_choice (h : LaidOut g plan) (hlook : Shows I look toks (· = .diverged))
    {q : Part C} (hq : q ∈ p.alternatives) (hphrase : Phrase q ts)
    (ih : Completion I g look toks plan q ts) : Completion I g look toks plan p ts := by
  have hitem : q.isItem = true := (Part.rank_alternative hq).2
  have hp : Phrase p ts := .choice hq hphrase
  refine .of_rule ?_ ?_ fun id depth pos hid hts _ => ?_
  · rintro q' rfl
    cases hq
  · rintro q' rfl
    cases hq
  obtain ⟨ids, hids, hbody⟩ := h.choice_rule hid hq
  obtain ⟨good, hgood, hplan⟩ := hids.id_of_mem hq
  rcases hbody with hbody | ⟨hbody, children, rfl⟩
  · refine completes_rule hlook hbody (fun depth => walks_cons (fun _ _ h => nomatch h) ?_ walks_nil)
      depth
    exact completes_alternatives h hlook (fun _ => hids.part_of_mem) hp hts hgood
      (ih.item hitem hplan hts)
  · refine completes_rule hlook hbody (fun depth => walks_cons (fun _ _ h => nomatch h) ?_ walks_nil)
      depth
    refine ensures_bind (hlook pos) fun t ht => ?_
    subst ht
    have hcandidate : good ∈ g.candidates ids (toks pos).word := by
      refine Grammar.mem_candidates.mpr ⟨hgood, ?_⟩
      rcases Part.mem_offers hq with rfl | ⟨t, -, rfl⟩
      · exact Or.inr (h.leadingLiteral_property hplan)
      · refine Or.inl ?_
        rw [h.leadingLiteral_keyed hplan]
        cases hphrase with
        | choice hq' _ => cases hq'
        | keyed hk _ _ =>
          simp only [Terminal.accepts, Bool.and_eq_true, beq_iff_eq] at hk
          rw [hts.1, hk.2]
    refine completes_alternatives h hlook (fun id hid => ?_) hp hts hcandidate
      (ih.item hitem hplan hts)
    exact hids.part_of_mem (Grammar.mem_candidates.mp hid).1

theorem walks_delimited (hlook : Shows I look toks (· = .diverged)) {left right : String}
    {l r : Token} (hl : (Terminal.separator left).accepts l = true)
    (hr : (Terminal.separator right).accepts r = true) (hcloses : Closes r)
    (ih : Completion I g look toks plan (.optional (.items p)) ts) {items depth pos : Nat}
    (hitems : plan[items]? = some (.items p)) (hreads : Reads toks pos (l :: (ts ++ [r])))
    {steps : List Step} (hrest : ∀ a, Walks I g look (g.matchRule look depth) depth steps a a) :
    Walks I g look (g.matchRule look depth) depth
      (.terminal (.separator left) :: .optional items :: .terminal (.separator right) :: steps)
      pos (pos + (l :: (ts ++ [r])).length) := by
  obtain ⟨hleft, hinner⟩ := hreads
  obtain ⟨hts, hright, -⟩ := reads_append.mp hinner
  have hlen : pos + (l :: (ts ++ [r])).length = pos + 1 + ts.length + 1 := by
    simp only [List.length_cons, List.length_append, List.length_nil]
    omega
  rw [hlen]
  refine walks_terminal hlook (by rw [hleft]; exact hl) ?_
  refine walks_cons (fun _ _ h => nomatch h) ?_ ?_ (b := pos + 1 + ts.length)
  · exact ih.optional _ rfl rfl items depth depth (pos + 1) hitems hts (by rw [hright]; exact hcloses)
  · exact walks_terminal hlook (by rw [hright]; exact hr) (hrest _)

theorem completion_last (h : LaidOut g plan) (hlook : Shows I look toks (· = .diverged)) :
    Completion I g look toks plan (.rest p) [] := by
  refine ⟨fun id _ _ hid _ _ => (h.no_rest hid).elim, ?_, fun q hq => nomatch hq⟩
  rintro q hq id depth count pos hid - hcloses
  cases hq
  cases count with
  | zero => exact ensures_throw rfl
  | succ count =>
    refine ensures_bind (Grammar.ensures_starts (hlook pos) id) fun b hb => ?_
    cases b with
    | false => exact ensures_pure rfl
    | true =>
      have hcomma := weight_of_separator ((h.begins_next hid).mp (hb.mp rfl))
      have hclose := Closes.weight hcloses
      simp only [List.length_nil, Nat.add_zero] at hclose
      rw [hclose] at hcomma
      exact absurd hcomma (by decide)

theorem completion_further (h : LaidOut g plan) (hlook : Shows I look toks (· = .diverged))
    {us : List Token} (hnext : Phrase (.next p) ts)
    (ihnext : Completion I g look toks plan (.next p) ts)
    (ihrest : Completion I g look toks plan (.rest p) us) :
    Completion I g look toks plan (.rest p) (ts ++ us) := by
  refine ⟨fun id _ _ hid _ _ => (h.no_rest hid).elim, ?_, fun q hq => nomatch hq⟩
  rintro q hq id depth count pos hid hreads hcloses
  cases hq
  obtain ⟨hts, hus⟩ := reads_append.mp hreads
  rw [List.length_append, ← Nat.add_assoc] at hcloses ⊢
  cases count with
  | zero => exact ensures_throw rfl
  | succ count =>
    obtain ⟨t, ts', rfl, hbegins⟩ := h.begins hnext id hid
    refine ensures_bind (Grammar.ensures_starts (hlook pos) id) fun b hb => ?_
    have hb' : b = true := hb.mpr (hts.1 ▸ hbegins)
    subst hb'
    refine ensures_bind (ihnext.rule id depth pos hid hts fun ⟨_, hq⟩ => nomatch hq) fun one hone => ?_
    have hne : one.next ≠ pos := by
      rw [hone, List.length_cons]
      omega
    rw [if_neg hne, hone]
    refine ensures_bind (ihrest.rest p rfl id depth count _ hid hus hcloses) fun others hothers => ?_
    exact ensures_pure hothers

theorem completion_absent (h : LaidOut g plan) (hlook : Shows I look toks (· = .diverged)) :
    Completion I g look toks plan (.optional p) [] := by
  refine ⟨fun id _ _ hid _ _ => (h.no_optional hid).elim, (fun q hq => nomatch hq), ?_⟩
  rintro q hq hnext id depth count pos hid - hcloses
  cases hq
  refine ensures_bind (Grammar.ensures_starts (hlook pos) id) fun b hb => ?_
  cases b with
  | false => exact ensures_pure rfl
  | true => exact absurd (hb.mp rfl) (h.not_begins hid hnext hcloses)

theorem completion_present (h : LaidOut g plan) (hlook : Shows I look toks (· = .diverged))
    (hp : Phrase p ts) (ih : Completion I g look toks plan p ts) :
    Completion I g look toks plan (.optional p) ts := by
  refine ⟨fun id _ _ hid _ _ => (h.no_optional hid).elim, (fun q hq => nomatch hq), ?_⟩
  rintro q hq - id depth count pos hid hts hcloses
  cases hq
  obtain ⟨t, ts', rfl, hbegins⟩ := h.begins hp id hid
  refine ensures_bind (Grammar.ensures_starts (hlook pos) id) fun b hb => ?_
  have hb' : b = true := hb.mpr (hts.1 ▸ hbegins)
  subst hb'
  exact ih.rule id depth pos hid hts fun _ => hcloses

end

/-- A rule matches every phrase of its part to its end. -/
theorem LaidOut.completes (h : LaidOut g plan) (hlook : Shows I look toks (· = .diverged))
    {p : Part C} {ts : List Token} (hp : Phrase p ts) : Completion I g look toks plan p ts := by
  induction hp with
  | @token x t hx ht =>
    refine .of_rule (fun _ h => nomatch h) (fun _ h => nomatch h) fun id depth pos hid hts _ => ?_
    refine completes_rule hlook (h.token_rule hid) (fun depth => ?_) depth
    exact walks_terminal hlook (by rw [hts.1]; exact ht) walks_nil
  | choice hq hphrase ih => exact completion_choice h hlook hq hphrase ih
  | @property ks ts c hks hc hvalue ihkey ihvalue =>
    refine .of_rule (fun _ h => nomatch h) (fun _ h => nomatch h) fun id depth pos hid hts _ => ?_
    obtain ⟨key, value, hkey, hvalue, hbody⟩ := h.property_rule hid
    obtain ⟨hreads, hcolon, hrest⟩ := reads_append.mp hts
    have hlen : pos + (ks ++ c :: ts).length = pos + ks.length + 1 + ts.length := by
      simp only [List.length_cons, List.length_append]
      omega
    rw [hlen]
    refine completes_rule hlook hbody (fun depth => ?_) depth
    refine walks_rule (ihkey.item rfl hkey hreads) ?_
    refine walks_terminal hlook (by rw [hcolon]; exact hc) ?_
    exact walks_rule (ihvalue.item rfl hvalue hrest) walks_nil
  | @keyed t k c ts hk hc hvalue ih =>
    refine .of_rule (fun _ h => nomatch h) (fun _ h => nomatch h) fun id depth pos hid hts _ => ?_
    obtain ⟨value, hvalue, hbody⟩ := h.keyed_rule hid
    obtain ⟨hkey, hcolon, hrest⟩ := hts
    have hlen : pos + (k :: c :: ts).length = pos + 1 + 1 + ts.length := by
      simp only [List.length_cons]
      omega
    rw [hlen]
    refine completes_rule hlook hbody (fun depth => ?_) depth
    refine walks_terminal hlook (by rw [hkey]; exact hk) ?_
    refine walks_terminal hlook (by rw [hcolon]; exact hc) ?_
    exact walks_rule (ih.item (Part.rank_valueOf t).2 hvalue hrest) walks_nil
  | @root t ts hvalue ih =>
    refine .of_rule (fun _ h => nomatch h) (fun _ h => nomatch h) fun id depth pos hid hts _ => ?_
    obtain ⟨value, hvalue, hbody⟩ := h.root_rule hid
    refine completes_rule hlook hbody (fun depth => ?_) depth
    exact walks_rule (ih.item (Part.rank_valueOf t).2 hvalue hts) walks_nil
  | @braces label? groups p l r ts hl _ hr ih =>
    refine .of_rule (fun _ h => nomatch h) (fun _ h => nomatch h) fun id depth pos hid hts _ => ?_
    obtain ⟨items, hitems, hbody⟩ := h.braces_rule hid
    refine completes_rule hlook hbody (fun depth => ?_) depth
    exact walks_delimited hlook hl hr (Or.inl hr) ih hitems hts fun a => walks_gathers groups
  | @brackets label? p l r ts hl _ hr ih =>
    refine .of_rule (fun _ h => nomatch h) (fun _ h => nomatch h) fun id depth pos hid hts _ => ?_
    obtain ⟨items, hitems, hbody⟩ := h.brackets_rule hid
    refine completes_rule hlook hbody (fun depth => ?_) depth
    exact walks_delimited hlook hl hr (Or.inr hr) ih hitems hts fun a => walks_nil
  | @items p ts us _ _ ihfirst ihrest =>
    refine .of_rule (fun _ h => nomatch h) (fun _ h => nomatch h)
      fun id depth pos hid hreads hcloses => ?_
    obtain ⟨item, next, hitem, hplan, hnext, hbody⟩ := h.items_rule hid
    obtain ⟨hts, hus⟩ := reads_append.mp hreads
    have hclose := hcloses ⟨p, rfl⟩
    rw [List.length_append, ← Nat.add_assoc] at hclose ⊢
    refine completes_rule hlook hbody (fun depth => ?_) depth
    refine walks_rule (ihfirst.item hitem hplan hts) ?_
    refine walks_cons (fun _ _ h => nomatch h) ?_ walks_nil
    exact ihrest.rest p rfl next depth depth _ hnext hus hclose
  | @next p c ts hc _ ih =>
    refine .of_rule (fun _ h => nomatch h) (fun _ h => nomatch h) fun id depth pos hid hts _ => ?_
    obtain ⟨item, hitem, hplan, hbody⟩ := h.next_rule hid
    obtain ⟨hcomma, hrest⟩ := hts
    have hlen : pos + (c :: ts).length = pos + 1 + ts.length := by
      simp only [List.length_cons]
      omega
    rw [hlen]
    refine completes_rule hlook hbody (fun depth => ?_) depth
    refine walks_terminal hlook (by rw [hcomma]; exact hc) ?_
    exact walks_rule (ih.item hitem hplan hrest) walks_nil
  | last => exact completion_last h hlook
  | further hnext _ ihnext ihrest => exact completion_further h hlook hnext ihnext ihrest
  | absent => exact completion_absent h hlook
  | present hp ih => exact completion_present h hlook hp ih

end HandlerGrammar
