import HandlerGrammar.Proofs.Matching.Prediction

/-! # Derivations

Read as a context-free grammar, the rules of an arena derive sequences of tokens. A derivation
records how: the tokens taken, the rules matched inside each other and the regroupings made, in the
order of the steps. From it both the tokens and the nodes of the match are read off.

* `Derivation`, `Derivation.tokens`, `Derivation.nodes`, `Derivation.instances`;
* `Derives`: the derivations that the steps of a rule have between two positions;
* `Derives.reads`: a derivation takes exactly the tokens between its positions;
* `Derives.forall_rules`: induction over the rules matched;
* `Spells`, `Derives.spells`: every reading of the rules that is closed under their steps holds of
  the tokens derived;
* `matchRule_derives`: what a match finds is derived. -/
namespace HandlerGrammar
set_option autoImplicit false

/-- How steps were matched: `rule` holds the rule, the line it begins on and its parts. -/
inductive Derivation where
  | token (x : Terminal) (t : Token)
  | rule (id : RuleId) (body : Rule) (line : Nat) (parts : List Derivation)
  | gather (label : String) (members : List String)

namespace Derivation

mutual
/-- The tokens taken, from left to right. -/
def tokens : Derivation → List Token
  | token _ t => [t]
  | rule _ _ _ parts => tokensOf parts
  | gather _ _ => []

def tokensOf : List Derivation → List Token
  | [] => []
  | d :: ds => tokens d ++ tokensOf ds
end

mutual
/-- The nodes of a rule that begins on `line`, from those that it had before this part. -/
def extend (line : Nat) : Derivation → List ParseTree → List ParseTree
  | token x t, nodes => nodes ++ if x.isKept then [.leaf none t] else []
  | rule _ body start parts, nodes =>
    nodes ++ Grammar.ruleNodes body start (assemble start parts [])
  | gather label members, nodes => ParseTree.gather label members line nodes

def assemble (line : Nat) : List Derivation → List ParseTree → List ParseTree
  | [], nodes => nodes
  | d :: ds, nodes => assemble line ds (extend line d nodes)
end

/-- The nodes that a rule gives to the rule that refers to it. -/
def nodes : Derivation → List ParseTree
  | rule _ body line parts => Grammar.ruleNodes body line (assemble line parts [])
  | _ => []

mutual
/-- The derivations of rules inside a derivation, itself included, outer ones first. -/
def instances : Derivation → List Derivation
  | rule id body line parts => rule id body line parts :: instancesOf parts
  | _ => []

def instancesOf : List Derivation → List Derivation
  | [] => []
  | d :: ds => instances d ++ instancesOf ds
end

theorem assemble_append (line : Nat) (ds ds' : List Derivation) (nodes : List ParseTree) :
    assemble line (ds ++ ds') nodes = assemble line ds' (assemble line ds nodes) := by
  induction ds generalizing nodes with
  | nil => rfl
  | cons d ds ih => simp only [List.cons_append, assemble, ih]

end Derivation

open Derivation

/-- The tokens from a position on begin with the given ones. -/
def Reads (toks : Nat → Token) : Nat → List Token → Prop
  | _, [] => True
  | pos, t :: ts => toks pos = t ∧ Reads toks (pos + 1) ts

theorem reads_append {toks : Nat → Token} {pos : Nat} {ts us : List Token} :
    Reads toks pos (ts ++ us) ↔ Reads toks pos ts ∧ Reads toks (pos + ts.length) us := by
  induction ts generalizing pos with
  | nil => simp [Reads]
  | cons t ts ih =>
    have hpos : pos + (ts.length + 1) = pos + 1 + ts.length := by omega
    simp only [List.cons_append, Reads, ih, List.length_cons, hpos, and_assoc]

theorem reads_iff {toks : Nat → Token} {pos : Nat} {ts : List Token} :
    Reads toks pos ts ↔ ∀ (i : Nat) (h : i < ts.length), toks (pos + i) = ts[i] := by
  induction ts generalizing pos with
  | nil => simp [Reads]
  | cons t ts ih =>
    have hshift : ∀ i, pos + 1 + i = pos + (i + 1) := by
      intro i
      omega
    simp only [Reads, ih, hshift]
    constructor
    · rintro ⟨ht, hts⟩ i hi
      cases i with
      | zero => exact ht
      | succ i => exact hts i (Nat.lt_of_succ_lt_succ hi)
    · intro h
      exact ⟨h 0 (Nat.succ_pos _), fun i hi => h (i + 1) (Nat.succ_lt_succ hi)⟩

/-- The steps have the derivations `ds` from the first position to the second. -/
inductive Derives (g : Grammar) (toks : Nat → Token) :
    List Step → List Derivation → Nat → Nat → Prop
  | nil (a : Nat) : Derives g toks [] [] a a
  | token {x : Terminal} {steps : List Step} {ds : List Derivation} {a b : Nat} :
      x.accepts (toks a) = true → Derives g toks steps ds (a + 1) b →
      Derives g toks (.terminal x :: steps) (.token x (toks a) :: ds) a b
  | rule {id : RuleId} {body : Rule} {steps : List Step} {parts ds : List Derivation}
      {a b c : Nat} :
      g.rule? id = some body → Derives g toks body.steps parts a b →
      Derives g toks steps ds b c →
      Derives g toks (.rule id :: steps) (.rule id body (toks a).line parts :: ds) a c
  | skip {id : RuleId} {steps : List Step} {ds : List Derivation} {a b : Nat} :
      Derives g toks steps ds a b → Derives g toks (.optional id :: steps) ds a b
  | take {id : RuleId} {steps : List Step} {ds : List Derivation} {a b : Nat} :
      Derives g toks (.rule id :: steps) ds a b → Derives g toks (.optional id :: steps) ds a b
  | done {id : RuleId} {steps : List Step} {ds : List Derivation} {a b : Nat} :
      Derives g toks steps ds a b → Derives g toks (.many id :: steps) ds a b
  | again {id : RuleId} {steps : List Step} {ds : List Derivation} {a b : Nat} :
      Derives g toks (.rule id :: .many id :: steps) ds a b →
      Derives g toks (.many id :: steps) ds a b
  | choice {id : RuleId} {ids : List RuleId} {steps : List Step} {ds : List Derivation}
      {a b : Nat} :
      id ∈ ids → Derives g toks (.rule id :: steps) ds a b →
      Derives g toks (.choice ids :: steps) ds a b
  | dispatch {id : RuleId} {ids : List RuleId} {steps : List Step} {ds : List Derivation}
      {a b : Nat} :
      id ∈ ids → Derives g toks (.rule id :: steps) ds a b →
      Derives g toks (.dispatch ids :: steps) ds a b
  | gather {label : String} {members : List String} {steps : List Step} {ds : List Derivation}
      {a b : Nat} :
      Derives g toks steps ds a b →
      Derives g toks (.gather label members :: steps) (.gather label members :: ds) a b

section
variable {g : Grammar} {toks : Nat → Token} {steps : List Step} {ds : List Derivation} {a b : Nat}

theorem Derives.reads (h : Derives g toks steps ds a b) :
    Reads toks a (tokensOf ds) ∧ b = a + (tokensOf ds).length := by
  induction h with
  | nil a => exact ⟨trivial, rfl⟩
  | @token x steps ds a b _ _ ih =>
    refine ⟨⟨rfl, ih.1⟩, ?_⟩
    have hb := ih.2
    change b = a + ((tokensOf ds).length + 1)
    omega
  | @rule id body steps parts ds a b c _ _ _ ihbody ihrest =>
    have hb := ihbody.2
    have hc := ihrest.2
    change Reads toks a (tokensOf parts ++ tokensOf ds) ∧
      c = a + (tokensOf parts ++ tokensOf ds).length
    rw [reads_append, ← hb, List.length_append]
    exact ⟨⟨ihbody.1, ihrest.1⟩, by omega⟩
  | skip _ ih | take _ ih | done _ ih | again _ ih | choice _ _ ih | dispatch _ _ ih => exact ih
  | gather _ ih => exact ih

/-- What holds of a rule if it holds of the rules that its match consists of, holds of all rules
matched. -/
theorem Derives.forall_rules {P : RuleId → Rule → Nat → List Derivation → Prop}
    (hrule : ∀ id body parts a b, g.rule? id = some body → Derives g toks body.steps parts a b →
      (∀ id' body' line' parts', .rule id' body' line' parts' ∈ parts → P id' body' line' parts') →
      P id body (toks a).line parts)
    (h : Derives g toks steps ds a b) :
    ∀ id body line parts, .rule id body line parts ∈ ds → P id body line parts := by
  induction h with
  | nil a => exact fun _ _ _ _ hmem => nomatch hmem
  | token _ _ ih =>
    intro id body line parts hmem
    rcases List.mem_cons.mp hmem with heq | hmem
    · cases heq
    · exact ih id body line parts hmem
  | rule hid hbody _ ihbody ihrest =>
    intro id body line parts hmem
    rcases List.mem_cons.mp hmem with heq | hmem
    · cases heq
      exact hrule _ _ _ _ _ hid hbody ihbody
    · exact ihrest id body line parts hmem
  | skip _ ih | take _ ih | done _ ih | again _ ih | choice _ _ ih | dispatch _ _ ih => exact ih
  | gather _ ih =>
    intro id body line parts hmem
    rcases List.mem_cons.mp hmem with heq | hmem
    · cases heq
    · exact ih id body line parts hmem

theorem Derives.of_instance (h : Derives g toks steps ds a b) :
    ∀ d ∈ instancesOf ds, ∃ id body parts a' b', d = .rule id body (toks a').line parts ∧
      g.rule? id = some body ∧ Derives g toks body.steps parts a' b' := by
  induction h with
  | nil a => exact fun _ hmem => nomatch hmem
  | token _ _ ih => exact ih
  | @rule id body steps parts ds a b c hid hbody _ ihbody ihrest =>
    intro d hmem
    rcases List.mem_append.mp hmem with hmem | hmem
    · rcases List.mem_cons.mp hmem with rfl | hmem
      · exact ⟨id, body, parts, a, b, rfl, hid, hbody⟩
      · exact ihbody d hmem
    · exact ihrest d hmem
  | skip _ ih | take _ ih | done _ ih | again _ ih | choice _ _ ih | dispatch _ _ ih => exact ih
  | gather _ ih => exact ih

end

/-! ## The language of steps -/

/-- What steps spell if each rule spells what `L` says of it. -/
def Spells (L : RuleId → List Token → Prop) : List Step → List Token → Prop
  | [], ts => ts = []
  | .terminal x :: steps, ts => ∃ t us, ts = t :: us ∧ x.accepts t = true ∧ Spells L steps us
  | .rule id :: steps, ts => ∃ us vs, ts = us ++ vs ∧ L id us ∧ Spells L steps vs
  | .optional id :: steps, ts =>
    Spells L steps ts ∨ ∃ us vs, ts = us ++ vs ∧ L id us ∧ Spells L steps vs
  | .many id :: steps, ts =>
    ∃ (uss : List (List Token)) (vs : List Token),
      ts = uss.flatten ++ vs ∧ (∀ us ∈ uss, L id us) ∧ Spells L steps vs
  | .choice ids :: steps, ts | .dispatch ids :: steps, ts =>
    ∃ id ∈ ids, ∃ us vs, ts = us ++ vs ∧ L id us ∧ Spells L steps vs
  | .gather _ _ :: steps, ts => Spells L steps ts

theorem Derives.spells {g : Grammar} {toks : Nat → Token} {L : RuleId → List Token → Prop}
    (hclosed : ∀ id body ts, g.rule? id = some body → Spells L body.steps ts → L id ts)
    {steps : List Step} {ds : List Derivation} {a b : Nat} (h : Derives g toks steps ds a b) :
    Spells L steps (tokensOf ds) := by
  induction h with
  | nil a =>
    unfold Spells
    rfl
  | token hx _ ih =>
    unfold Spells
    exact ⟨_, _, rfl, hx, ih⟩
  | rule hid _ _ ihbody ihrest =>
    unfold Spells
    exact ⟨_, _, rfl, hclosed _ _ _ hid ihbody, ihrest⟩
  | skip _ ih =>
    unfold Spells
    exact Or.inl ih
  | take _ ih =>
    unfold Spells at ih ⊢
    exact Or.inr ih
  | done _ ih =>
    unfold Spells
    exact ⟨[], _, rfl, (fun _ h => nomatch h), ih⟩
  | again _ ih =>
    unfold Spells at ih ⊢
    obtain ⟨us, ts, hts, hus, hrest⟩ := ih
    unfold Spells at hrest
    obtain ⟨uss, vs, rfl, huss, hvs⟩ := hrest
    refine ⟨us :: uss, vs, by rw [hts, List.flatten_cons, List.append_assoc], ?_, hvs⟩
    exact List.forall_mem_cons.mpr ⟨hus, huss⟩
  | choice hid _ ih | dispatch hid _ ih =>
    unfold Spells at ih ⊢
    exact ⟨_, hid, ih⟩
  | gather _ ih =>
    unfold Spells
    exact ih

/-! ## Matches find derivations -/

/-- A step regroups nodes or does not. -/
theorem Step.gather_or_ne (step : Step) :
    (∃ label members, step = .gather label members) ∨
      ∀ label members, step ≠ .gather label members := by
  cases step with
  | gather label members => exact Or.inl ⟨label, members, rfl⟩
  | _ => exact Or.inr fun _ _ => Step.noConfusion

namespace Grammar

variable {σ : Type} {I : σ → Prop} {E : Stop → Prop} {g : Grammar} {look : Lookahead σ}
  {toks : Nat → Token} {matchRef : RuleId → Nat → Match σ Matched}

/-- A derivation of a rule gives what was matched from a position on. -/
def RuleDerived (g : Grammar) (toks : Nat → Token) (id : RuleId) (pos : Nat) (m : Matched) : Prop :=
  ∃ d, Derives g toks [.rule id] [d] pos m.next ∧ m.nodes = d.nodes

/-- Derivations of a step, to be followed by those of further steps, give what was matched. -/
def StepDerived (g : Grammar) (toks : Nat → Token) (step : Step) (pos : Nat) (m : Matched) : Prop :=
  ∃ ds, (∀ line nodes, assemble line ds nodes = nodes ++ m.nodes) ∧
    ∀ steps ds' b, Derives g toks steps ds' m.next b →
      Derives g toks (step :: steps) (ds ++ ds') pos b

theorem stepDerived_rule {id : RuleId} {pos : Nat} {m : Matched}
    (h : RuleDerived g toks id pos m) : StepDerived g toks (.rule id) pos m := by
  obtain ⟨d, hd, hnodes⟩ := h
  cases hd with
  | @rule _ body _ parts _ _ b _ hid hbody hnil =>
    cases hnil
    refine ⟨[.rule id body (toks pos).line parts], fun line nodes => ?_, fun steps ds' c h => ?_⟩
    · rw [hnodes]
      rfl
    · exact .rule hid hbody h

theorem matchMany_derives {starts : Nat → Match σ Bool} {matchOne : Nat → Match σ Matched}
    {id : RuleId} (hstarts : ∀ pos, Ensures I (starts pos) (fun _ => True) E)
    (hone : ∀ pos, Ensures I (matchOne pos) (RuleDerived g toks id pos) E) (hE : E .diverged)
    (count pos : Nat) :
    Ensures I (matchMany starts matchOne count pos) (StepDerived g toks (.many id) pos) E := by
  induction count generalizing pos with
  | zero => exact ensures_throw hE
  | succ count ih =>
    refine ensures_bind (hstarts pos) fun b _ => ?_
    cases b with
    | false =>
      exact ensures_pure ⟨[], fun _ nodes => (List.append_nil nodes).symm, fun _ _ _ h => .done h⟩
    | true =>
      refine ensures_bind (hone pos) fun one hd => ?_
      obtain ⟨ds, hnodes, hds⟩ := stepDerived_rule hd
      split
      · exact ensures_pure ⟨ds, hnodes, fun steps ds' b h => .again (hds _ _ _ (.done h))⟩
      · refine ensures_bind (ih one.next) fun others ⟨ds', hnodes', hds'⟩ => ?_
        refine ensures_pure ⟨ds ++ ds', fun line nodes => ?_, fun steps ds'' b h => ?_⟩
        · rw [assemble_append, hnodes, hnodes', List.append_assoc]
        · rw [List.append_assoc]
          exact .again (hds _ _ _ (hds' _ _ _ h))

theorem matchChoice_derives
    (href : ∀ id pos, Ensures I (matchRef id pos) (RuleDerived g toks id pos) E)
    (hmismatch : E .mismatch) (ids : List RuleId) (pos : Nat) :
    Ensures I (matchChoice matchRef ids pos)
      (fun m => ∃ id ∈ ids, RuleDerived g toks id pos m) E := by
  have hrefs : ∀ id ∈ ids, Ensures I (matchRef id pos) (RuleDerived g toks id pos)
      (fun e => E e ∨ e = .mismatch ∧ True) :=
    fun id _ => (href id pos).stop fun _ => Or.inl
  refine (ensures_matchChoice hrefs).stop fun e he => ?_
  rcases he with he | ⟨rfl, -⟩
  · exact he
  · exact hmismatch

theorem matchStep_derives (hlook : Shows I look toks E) (hmismatch : E .mismatch)
    (hdiverged : E .diverged)
    (href : ∀ id pos, Ensures I (matchRef id pos) (RuleDerived g toks id pos) E)
    (count : Nat) (step : Step) (hstep : ∀ label members, step ≠ .gather label members)
    (pos : Nat) :
    Ensures I (g.matchStep look matchRef count step pos) (StepDerived g toks step pos) E := by
  have hstarts : ∀ id pos, Ensures I (g.starts look id pos) (fun _ => True) E := fun id pos =>
    (ensures_starts (hlook pos) id).result fun _ _ => trivial
  cases step with
  | terminal x =>
    refine (ensures_matchTerminal hlook x pos).mono ?_ ?_
    · rintro m ⟨hx, rfl⟩
      exact ⟨[.token x (toks pos)], fun _ _ => rfl, fun _ _ _ h => .token hx h⟩
    · rintro e (he | ⟨rfl, -⟩)
      · exact he
      · exact hmismatch
  | rule id => exact (href id pos).result fun _ => stepDerived_rule
  | optional id =>
    refine ensures_bind (hstarts id pos) fun b _ => ?_
    cases b with
    | true =>
      refine (href id pos).result fun m hm => ?_
      obtain ⟨ds, hnodes, hds⟩ := stepDerived_rule hm
      exact ⟨ds, hnodes, fun _ _ _ h => .take (hds _ _ _ h)⟩
    | false =>
      exact ensures_pure ⟨[], fun _ nodes => (List.append_nil nodes).symm, fun _ _ _ h => .skip h⟩
  | many id => exact matchMany_derives (hstarts id) (href id) hdiverged count pos
  | choice ids =>
    refine (matchChoice_derives href hmismatch ids pos).result fun m ⟨id, hid, hm⟩ => ?_
    obtain ⟨ds, hnodes, hds⟩ := stepDerived_rule hm
    exact ⟨ds, hnodes, fun _ _ _ h => .choice hid (hds _ _ _ h)⟩
  | dispatch ids =>
    refine ensures_bind (hlook pos) fun t _ => ?_
    refine (matchChoice_derives href hmismatch _ pos).result fun m ⟨id, hid, hm⟩ => ?_
    obtain ⟨ds, hnodes, hds⟩ := stepDerived_rule hm
    exact ⟨ds, hnodes, fun _ _ _ h => .dispatch (mem_candidates.mp hid).1 (hds _ _ _ h)⟩
  | gather label members => exact absurd rfl (hstep label members)

theorem matchSteps_cons (g : Grammar) (look : Lookahead σ)
    (matchRef : RuleId → Nat → Match σ Matched) (count line : Nat) {step : Step}
    (hstep : ∀ label members, step ≠ .gather label members) (steps : List Step) (m : Matched) :
    g.matchSteps look matchRef count line (step :: steps) m =
      g.matchStep look matchRef count step m.next >>= fun one =>
        g.matchSteps look matchRef count line steps ⟨m.nodes ++ one.nodes, one.next⟩ := by
  cases step with
  | gather label members => exact absurd rfl (hstep label members)
  | _ => rfl

theorem matchSteps_derives (hlook : Shows I look toks E) (hmismatch : E .mismatch)
    (hdiverged : E .diverged)
    (href : ∀ id pos, Ensures I (matchRef id pos) (RuleDerived g toks id pos) E)
    (count line : Nat) (steps : List Step) (m : Matched) :
    Ensures I (g.matchSteps look matchRef count line steps m)
      (fun m' => ∃ ds, Derives g toks steps ds m.next m'.next ∧
        m'.nodes = assemble line ds m.nodes) E := by
  induction steps generalizing m with
  | nil => exact ensures_pure ⟨[], .nil _, rfl⟩
  | cons step steps ih =>
    rcases step.gather_or_ne with ⟨label, members, rfl⟩ | hstep
    · refine (ih ⟨ParseTree.gather label members line m.nodes, m.next⟩).result fun m' => ?_
      rintro ⟨ds, hds, hnodes⟩
      exact ⟨.gather label members :: ds, .gather hds, hnodes⟩
    · rw [matchSteps_cons g look matchRef count line hstep]
      refine ensures_bind
        (matchStep_derives hlook hmismatch hdiverged href count step hstep m.next) fun one hone => ?_
      obtain ⟨ds, hnodes, hds⟩ := hone
      refine (ih _).result fun m' ⟨ds', hds', hnodes'⟩ => ⟨ds ++ ds', hds _ _ _ hds', ?_⟩
      rw [hnodes', assemble_append, hnodes]

theorem matchRule_derives (hlook : Shows I look toks E) (hmismatch : E .mismatch)
    (hdiverged : E .diverged) (depth : Nat) (id : RuleId) (pos : Nat) :
    Ensures I (g.matchRule look depth id pos) (RuleDerived g toks id pos) E := by
  induction depth generalizing id pos with
  | zero => exact ensures_throw hdiverged
  | succ depth ih =>
    unfold matchRule
    cases hid : g.rule? id with
    | none => exact ensures_refuse _ _ hmismatch
    | some body =>
      refine ensures_bind (hlook pos) fun t ht => ?_
      subst ht
      refine ensures_bind
        (matchSteps_derives hlook hmismatch hdiverged ih depth _ body.steps _) fun m hm => ?_
      obtain ⟨parts, hparts, hnodes⟩ := hm
      refine ensures_pure ⟨.rule id body (toks pos).line parts, .rule hid hparts (.nil _), ?_⟩
      rw [hnodes]
      rfl

end Grammar

theorem Derives.begins {g : Grammar} {toks : Nat → Token} {steps : List Step}
    {ds : List Derivation} {a b : Nat} (h : Derives g toks steps ds a b) :
    StepsBegin (g.Begins (toks a)) (toks a) steps := by
  induction h with
  | nil a => trivial
  | token hx _ _ => exact hx
  | rule hid _ _ ihbody _ => exact Grammar.begins_iff.mpr ⟨_, hid, ihbody⟩
  | skip _ ih | done _ ih => exact Or.inr ih
  | take _ ih | again _ ih => exact Or.inl ih
  | choice hid _ ih | dispatch hid _ ih => exact ⟨_, hid, ih⟩
  | gather _ ih => exact ih

end HandlerGrammar
