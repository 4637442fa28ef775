import HandlerGrammar.Grammar.Parse
import HandlerGrammar.Proofs.Matching.Derivation

/-! # Matching ends without left recursion

A rule leads to another if it can refer to it before it takes a token. Where no rule leads back to
itself, the rules open at one position are all different, so a match of `size` tokens opens at most
`depthFor size` rules inside each other, and a repetition goes on only while it takes tokens.

* `Nullable`, `Leads`, `Acyclic`;
* `Derives.nullable`: steps that take no token are nullable;
* `Ends`: a match that comes to an end;
* `matchMany_ends`, `matchSteps_ends`, `matchRule_ends`: matches at a sufficient depth;
* `ends_of_depthFor`: the depth that a parse is given is sufficient. -/
namespace HandlerGrammar
open Derivation
set_option autoImplicit false

theorem Terminal.accepts_eof {x : Terminal} {t : Token} (h : t.isEof = true) :
    x.accepts t = false := by
  have hk : t.kind = .eof := by simpa [Token.isEof] using h
  cases x with
  | separator text => simp [Terminal.accepts, hk]
  | keyword word => simp [Terminal.accepts, hk]
  | token c => cases c <;> simp [Terminal.accepts, TokenClass.accepts, hk, Kind.isNumber]

namespace Grammar

/-- The steps can match without taking a token. -/
inductive Nullable (g : Grammar) : List Step → Prop
  | nil : Nullable g []
  | rule {id : RuleId} {body : Rule} {steps : List Step} : g.rule? id = some body →
      Nullable g body.steps → Nullable g steps → Nullable g (.rule id :: steps)
  | optional {id : RuleId} {steps : List Step} :
      Nullable g steps → Nullable g (.optional id :: steps)
  | many {id : RuleId} {steps : List Step} : Nullable g steps → Nullable g (.many id :: steps)
  | choice {id : RuleId} {ids : List RuleId} {steps : List Step} : id ∈ ids →
      Nullable g (.rule id :: steps) → Nullable g (.choice ids :: steps)
  | dispatch {id : RuleId} {ids : List RuleId} {steps : List Step} : id ∈ ids →
      Nullable g (.rule id :: steps) → Nullable g (.dispatch ids :: steps)
  | gather {label : String} {members : List String} {steps : List Step} :
      Nullable g steps → Nullable g (.gather label members :: steps)

/-- The first rule can refer to the second before it takes a token. -/
def Leads (g : Grammar) (a b : RuleId) : Prop :=
  ∃ (body : Rule) (before : List Step) (step : Step) (after : List Step),
    g.rule? a = some body ∧ body.steps = before ++ step :: after ∧ g.Nullable before ∧
      b ∈ step.references

/-- No rule leads back to itself. -/
def Acyclic (g : Grammar) : Prop := ∀ id, ¬ Relation.TransGen g.Leads id id

theorem acyclic_of_rank {g : Grammar} (rank : RuleId → Nat)
    (h : ∀ a b, g.Leads a b → rank b < rank a) : g.Acyclic := by
  have hlt : ∀ a b, Relation.TransGen g.Leads a b → rank b < rank a := by
    intro a b hab
    induction hab with
    | single hab => exact h _ _ hab
    | tail _ hbc ih => exact Nat.lt_trans (h _ _ hbc) ih
  exact fun id hid => Nat.lt_irrefl _ (hlt id id hid)

end Grammar

section
variable {g : Grammar} {toks : Nat → Token} {steps : List Step} {ds : List Derivation} {a b : Nat}

theorem Derives.le (h : Derives g toks steps ds a b) : a ≤ b := by
  have hb := h.reads.2
  omega

theorem Derives.nullable (h : Derives g toks steps ds a b) (hab : a = b) : g.Nullable steps := by
  induction h with
  | nil a => exact .nil
  | token _ hrest _ =>
    have hle := hrest.le
    omega
  | rule hid hbody hrest ihbody ihrest =>
    have hle := hbody.le
    have hle' := hrest.le
    exact .rule hid (ihbody (by omega)) (ihrest (by omega))
  | skip _ ih => exact .optional (ih hab)
  | take _ ih =>
    cases ih hab with
    | rule _ _ hsteps => exact .optional hsteps
  | done _ ih => exact .many (ih hab)
  | again _ ih =>
    cases ih hab with
    | rule _ _ hsteps => exact hsteps
  | choice hid _ ih => exact .choice hid (ih hab)
  | dispatch hid _ ih => exact .dispatch hid (ih hab)
  | gather _ ih => exact .gather (ih hab)

theorem Derives.le_size {size : Nat} (hend : ∀ k, size ≤ k → (toks k).isEof = true)
    (h : Derives g toks steps ds a b) (ha : a ≤ size) : b ≤ size := by
  induction h with
  | nil a => exact ha
  | @token x steps ds a b hx _ ih =>
    by_cases hlt : a < size
    · exact ih hlt
    · have hno := Terminal.accepts_eof (x := x) (hend a (Nat.le_of_not_lt hlt))
      rw [hx] at hno
      cases hno
  | rule _ _ _ ihbody ihrest => exact ihrest (ihbody ha)
  | skip _ ih | take _ ih | done _ ih | again _ ih | choice _ _ ih | dispatch _ _ ih => exact ih ha
  | gather _ ih => exact ih ha

end

namespace Grammar

theorem Nullable.cons {g : Grammar} {step : Step} {steps : List Step} (h : g.Nullable [step])
    (hs : g.Nullable steps) : g.Nullable (step :: steps) := by
  have hrule : ∀ id, g.Nullable [.rule id] → g.Nullable (.rule id :: steps) := by
    intro id hid
    cases hid with
    | rule hbody hnull _ => exact .rule hbody hnull hs
  cases h with
  | rule hbody hnull _ => exact .rule hbody hnull hs
  | optional _ => exact .optional hs
  | many _ => exact .many hs
  | choice hid h => exact .choice hid (hrule _ h)
  | dispatch hid h => exact .dispatch hid (hrule _ h)
  | gather _ => exact .gather hs

/-! ## Matches at a sufficient depth -/

variable {σ α : Type} {I : σ → Prop} {g : Grammar} {look : Lookahead σ} {toks : Nat → Token}
  {matchRef : RuleId → Nat → Match σ Matched} {size : Nat}

/-- The match does not exceed its depth. -/
def Ends (I : σ → Prop) (m : Match σ α) : Prop :=
  Ensures I m (fun _ => True) (· ≠ .diverged)

theorem Ends.derived {m : Match σ α} {Q : α → Prop} (h : Ends I m)
    (hQ : Ensures I m Q (fun _ => True)) : Ensures I m Q (· ≠ .diverged) :=
  (h.and hQ).mono (fun _ => And.right) fun _ => And.left

theorem matchMany_ends {starts : Nat → Match σ Bool} {matchOne : Nat → Match σ Matched}
    {id : RuleId} (hend : ∀ k, size ≤ k → (toks k).isEof = true)
    (hstarts : ∀ pos, Ends I (starts pos))
    (hderived : ∀ pos, Ensures I (matchOne pos) (RuleDerived g toks id pos) (fun _ => True))
    (count pos : Nat) (hpos : pos ≤ size) (hcount : size - pos + 1 ≤ count)
    (hone : ∀ pos', pos ≤ pos' → pos' ≤ size → Ends I (matchOne pos')) :
    Ends I (matchMany starts matchOne count pos) := by
  induction count generalizing pos with
  | zero => omega
  | succ count ih =>
    refine ensures_bind (hstarts pos) fun b _ => ?_
    cases b with
    | false => exact ensures_pure trivial
    | true =>
      have hfirst := (hone pos (Nat.le_refl _) hpos).derived (hderived pos)
      refine ensures_bind hfirst fun one ⟨d, hd, _⟩ => ?_
      have hle := hd.le
      have hsize := hd.le_size hend hpos
      split
      · exact ensures_pure trivial
      · next hne =>
        have hrest := ih one.next hsize (by omega) fun pos' h => hone pos' (by omega)
        exact ensures_bind hrest fun _ _ => ensures_pure trivial

theorem matchChoice_ends {ids : List RuleId} {pos : Nat}
    (h : ∀ id ∈ ids, Ends I (matchRef id pos)) : Ends I (matchChoice matchRef ids pos) := by
  have hids : ∀ id ∈ ids, Ensures I (matchRef id pos) (fun _ => True)
      (fun e => e ≠ .diverged ∨ e = .mismatch ∧ True) :=
    fun id hid => (h id hid).stop fun _ => Or.inl
  refine (ensures_matchChoice hids).mono (fun _ _ => trivial) fun e he => ?_
  rcases he with he | ⟨rfl, -⟩
  · exact he
  · simp

theorem matchStep_ends (hlook : Shows I look toks (· ≠ .diverged))
    (hend : ∀ k, size ≤ k → (toks k).isEof = true)
    (hderived : ∀ id pos, Ensures I (matchRef id pos) (RuleDerived g toks id pos) (fun _ => True))
    (count : Nat) (step : Step) (pos : Nat) (hpos : pos ≤ size) (hcount : size - pos + 1 ≤ count)
    (hat : ∀ id ∈ step.references, Ends I (matchRef id pos))
    (hafter : ∀ id pos', pos < pos' → pos' ≤ size → Ends I (matchRef id pos')) :
    Ends I (g.matchStep look matchRef count step pos) := by
  have hstarts : ∀ id pos, Ends I (g.starts look id pos) := fun id pos =>
    (ensures_starts (hlook pos) id).result fun _ _ => trivial
  cases step with
  | terminal x =>
    refine (ensures_matchTerminal hlook x pos).mono (fun _ _ => trivial) fun e he => ?_
    rcases he with he | ⟨rfl, -⟩
    · exact he
    · simp
  | rule id => exact hat id (List.mem_singleton_self id)
  | optional id =>
    refine ensures_bind (hstarts id pos) fun b _ => ?_
    cases b with
    | false => exact ensures_pure trivial
    | true => exact hat id (List.mem_singleton_self id)
  | many id =>
    refine matchMany_ends hend (hstarts id) (hderived id) count pos hpos hcount fun pos' hle => ?_
    rcases Nat.eq_or_lt_of_le hle with rfl | hlt
    · exact fun _ => hat id (List.mem_singleton_self id)
    · exact hafter id pos' hlt
  | choice ids => exact matchChoice_ends hat
  | dispatch ids =>
    refine ensures_bind (hlook pos) fun t _ => matchChoice_ends fun id hid => ?_
    exact hat id (mem_candidates.mp hid).1
  | gather label members => exact ensures_pure trivial

/-- Steps end if the rules that they lead to end at the position where the steps begin, and all
rules behind it. -/
theorem matchSteps_ends (hlook : Shows I look toks (· ≠ .diverged))
    (hend : ∀ k, size ≤ k → (toks k).isEof = true)
    (hderived : ∀ id pos, Ensures I (matchRef id pos) (RuleDerived g toks id pos) (fun _ => True))
    {count start : Nat} (hcount : size - start + 1 ≤ count)
    (hafter : ∀ id pos, start < pos → pos ≤ size → Ends I (matchRef id pos))
    (line : Nat) (steps : List Step) (m : Matched) (hstart : start ≤ m.next) (hm : m.next ≤ size)
    (hat : m.next = start → ∀ before step after, steps = before ++ step :: after →
      g.Nullable before → ∀ id ∈ step.references, Ends I (matchRef id start)) :
    Ends I (g.matchSteps look matchRef count line steps m) := by
  induction steps generalizing m with
  | nil => exact ensures_pure trivial
  | cons step steps ih =>
    rcases step.gather_or_ne with ⟨label, members, rfl⟩ | hstep
    · refine ih ⟨ParseTree.gather label members line m.nodes, m.next⟩ hstart hm fun heq => ?_
      intro before step after hsteps hnull
      exact hat heq (.gather label members :: before) step after (by rw [hsteps]; rfl)
        (.gather hnull)
    · have hfirst : Ends I (g.matchStep look matchRef count step m.next) := by
        refine matchStep_ends hlook hend hderived count step m.next hm (by omega) ?_ ?_
        · intro id hid
          by_cases heq : m.next = start
          · rw [heq]
            exact hat heq [] step steps rfl .nil id hid
          · exact hafter id m.next (by omega) hm
        · intro id pos' hlt
          exact hafter id pos' (by omega)
      have hone := hfirst.derived (matchStep_derives (hlook.mono fun _ _ => trivial) trivial trivial
        hderived count step hstep m.next)
      rw [matchSteps_cons g look matchRef count line hstep]
      refine ensures_bind hone fun one ⟨ds, _, hds⟩ => ?_
      have hd := hds [] [] one.next (.nil _)
      have hle := hd.le
      refine ih _ (Nat.le_trans hstart hle) (hd.le_size hend hm) fun heq => ?_
      have hsame : m.next = start := by
        have : one.next = start := heq
        omega
      intro before step' after hsteps hnull
      refine hat hsame (step :: before) step' after (by rw [hsteps]; rfl) ?_
      exact .cons (hd.nullable (hsame.trans heq.symm)) hnull

/-- The rules in `visited` are being matched at the same position and lead to this one. -/
theorem matchRule_ends (hacyclic : g.Acyclic) (hlook : Shows I look toks (· ≠ .diverged))
    (hend : ∀ k, size ≤ k → (toks k).isEof = true) (depth : Nat) (visited : List RuleId)
    (hnodup : visited.Nodup) (id : RuleId)
    (hvisited : ∀ v ∈ visited, v < g.rules.length ∧ Relation.TransGen g.Leads v id)
    (pos : Nat) (hpos : pos ≤ size)
    (hdepth : (size - pos) * (g.rules.length + 1) + (g.rules.length - visited.length) + 2 ≤ depth) :
    Ends I (g.matchRule look depth id pos) := by
  induction depth generalizing visited id pos with
  | zero => omega
  | succ depth ih =>
    unfold matchRule
    cases hid : g.rule? id with
    | none => exact ensures_refuse _ _ (by simp)
    | some body =>
      have hfresh : id ∉ visited := fun hmem => hacyclic id (hvisited id hmem).2
      have hlen : visited.length + 1 ≤ g.rules.length := by
        have hall : ∀ v ∈ id :: visited, v < g.rules.length :=
          List.forall_mem_cons.mpr ⟨lt_of_rule? hid, fun v hv => (hvisited v hv).1⟩
        have hsub : id :: visited ⊆ List.range g.rules.length := fun v hv =>
          List.mem_range.mpr (hall v hv)
        have h := (List.nodup_cons.mpr ⟨hfresh, hnodup⟩).length_le_of_subset hsub
        simpa using h
      have hcount : size - pos + 1 ≤ depth := by
        have hmul : size - pos ≤ (size - pos) * (g.rules.length + 1) :=
          Nat.le_mul_of_pos_right _ (Nat.succ_pos _)
        omega
      have hderived : ∀ id pos, Ensures I (g.matchRule look depth id pos)
          (RuleDerived g toks id pos) (fun _ => True) :=
        matchRule_derives (hlook.mono fun _ _ => trivial) trivial trivial depth
      have hafter : ∀ id' pos', pos < pos' → pos' ≤ size →
          Ends I (g.matchRule look depth id' pos') := by
        intro id' pos' hlt hle
        refine ih [] List.nodup_nil id' (by simp) pos' hle ?_
        have hmul : (size - pos' + 1) * (g.rules.length + 1) ≤ (size - pos) * (g.rules.length + 1) :=
          Nat.mul_le_mul_right _ (by omega)
        rw [Nat.add_mul] at hmul
        simp only [List.length_nil]
        omega
      have hat : ∀ id', g.Leads id id' → Ends I (g.matchRule look depth id' pos) := by
        intro id' hlead
        refine ih (id :: visited) (List.nodup_cons.mpr ⟨hfresh, hnodup⟩) id' ?_ pos hpos ?_
        · refine List.forall_mem_cons.mpr ⟨⟨lt_of_rule? hid, .single hlead⟩, fun v hv => ?_⟩
          exact ⟨(hvisited v hv).1, (hvisited v hv).2.tail hlead⟩
        · simp only [List.length_cons]
          omega
      refine ensures_bind (hlook pos) fun t _ => ?_
      refine ensures_bind (Q := fun _ => True) ?_ fun _ _ => ensures_pure trivial
      refine matchSteps_ends hlook hend hderived hcount hafter t.line body.steps ⟨[], pos⟩
        (Nat.le_refl _) hpos fun _ before step after hsteps hnull id' hmem => ?_
      exact hat id' ⟨body, before, step, after, hid, hsteps, hnull, hmem⟩

/-- The depth that a parse is given suffices where no rule leads back to itself. -/
theorem ends_of_depthFor (hacyclic : g.Acyclic) (hlook : Shows I look toks (· ≠ .diverged))
    (hend : ∀ k, size ≤ k → (toks k).isEof = true) (id : RuleId) {bound : Nat}
    (hbound : size ≤ bound) : Ends I (g.matchRule look (g.depthFor bound) id 0) := by
  refine matchRule_ends hacyclic hlook hend _ [] List.nodup_nil id (by simp) 0
    (Nat.zero_le _) ?_
  have hmul : size * g.rules.length ≤ g.rules.length * bound := by
    rw [Nat.mul_comm]
    exact Nat.mul_le_mul_left _ hbound
  simp only [List.length_nil, Nat.sub_zero, depthFor, Nat.mul_add, Nat.mul_one]
  omega

end Grammar
end HandlerGrammar
