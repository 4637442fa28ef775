import HandlerGrammar.Grammar.Matching

/-! # Contracts of matches

A match reads its tokens through a lookahead whose source may change on the way. A contract says
what a match keeps of its source, what holds of a result and with what it may stop:

* `Ensures`: the contract, composed by `ensures_bind`;
* `Shows`: a lookahead that shows the tokens of a fixed sequence, or stops;
* `ensures_test`, `ensures_matchTerminal`: tests of one token;
* `ensures_matchFirst`, `ensures_matchChoice`: alternatives tried in order. -/
namespace HandlerGrammar
set_option autoImplicit false

variable {σ α β : Type} {I : σ → Prop} {E E' : Stop → Prop}

/-- On a source that satisfies `I` the match leaves one that does. Its result satisfies `Q`, and if
it has none, what stops it satisfies `E`. -/
def Ensures (I : σ → Prop) (m : Match σ α) (Q : α → Prop) (E : Stop → Prop) : Prop :=
  ∀ p, I p.source → match m p with
    | .ok a p' => I p'.source ∧ Q a
    | .error e p' => I p'.source ∧ E e

/-! ## Composition -/

theorem ensures_pure {a : α} {Q : α → Prop} (h : Q a) : Ensures I (pure a) Q E :=
  fun _ hI => ⟨hI, h⟩

theorem ensures_throw {e : Stop} {Q : α → Prop} (h : E e) : Ensures I (throw e) Q E :=
  fun _ hI => ⟨hI, h⟩

theorem ensures_bind {m : Match σ α} {f : α → Match σ β} {Q : α → Prop} {Q' : β → Prop}
    (hm : Ensures I m Q E) (hf : ∀ a, Q a → Ensures I (f a) Q' E) :
    Ensures I (m >>= f) Q' E := by
  intro p hI
  have h := hm p hI
  change match EStateM.bind m f p with
    | .ok a p' => I p'.source ∧ Q' a
    | .error e p' => I p'.source ∧ E e
  unfold EStateM.bind
  cases hp : m p with
  | ok a p' =>
    rw [hp] at h
    exact hf a h.2 p' h.1
  | error e p' =>
    rw [hp] at h
    exact h

theorem Ensures.mono {m : Match σ α} {Q Q' : α → Prop} (hm : Ensures I m Q E)
    (hQ : ∀ a, Q a → Q' a) (hE : ∀ e, E e → E' e) : Ensures I m Q' E' := by
  intro p hI
  have h := hm p hI
  cases hp : m p with
  | ok a p' =>
    rw [hp] at h
    exact ⟨h.1, hQ a h.2⟩
  | error e p' =>
    rw [hp] at h
    exact ⟨h.1, hE e h.2⟩

theorem Ensures.result {m : Match σ α} {Q Q' : α → Prop} (hm : Ensures I m Q E)
    (hQ : ∀ a, Q a → Q' a) : Ensures I m Q' E :=
  hm.mono hQ fun _ he => he

theorem Ensures.stop {m : Match σ α} {Q : α → Prop} (hm : Ensures I m Q E)
    (hE : ∀ e, E e → E' e) : Ensures I m Q E' :=
  hm.mono (fun _ hQ => hQ) hE

theorem Ensures.and {m : Match σ α} {Q Q' : α → Prop} (hm : Ensures I m Q E)
    (hm' : Ensures I m Q' E') : Ensures I m (fun a => Q a ∧ Q' a) (fun e => E e ∧ E' e) := by
  intro p hI
  have h := hm p hI
  have h' := hm' p hI
  cases hp : m p with
  | ok a p' =>
    rw [hp] at h h'
    exact ⟨h.1, h.2, h'.2⟩
  | error e p' =>
    rw [hp] at h h'
    exact ⟨h.1, h.2, h'.2⟩

/-! ## Reading tokens -/

/-- The lookahead shows the tokens of `toks`, wherever it does not stop with an `E`. -/
def Shows (I : σ → Prop) (look : Lookahead σ) (toks : Nat → Token) (E : Stop → Prop) : Prop :=
  ∀ k, Ensures I (tokenAt look k) (· = toks k) E

theorem Shows.mono {look : Lookahead σ} {toks : Nat → Token} (h : Shows I look toks E)
    (hE : ∀ e, E e → E' e) : Shows I look toks E' :=
  fun k => (h k).stop hE

theorem ensures_expect (pos : Nat) (what : String) {Q : Unit → Prop} (h : Q ()) :
    Ensures I (expect pos what) Q E :=
  fun _ hI => ⟨hI, h⟩

theorem ensures_refuse (pos : Nat) (what : String) {Q : α → Prop} (h : E .mismatch) :
    Ensures I (refuse pos what) Q E :=
  ensures_bind (ensures_expect pos what (Q := fun _ => True) trivial) fun _ _ => ensures_throw h

section Reading
variable {look : Lookahead σ} {toks : Nat → Token}

theorem ensures_test {pos : Nat} {t : Token} (hlook : Ensures I (tokenAt look pos) (· = t) E)
    (x : Terminal) :
    Ensures I (test look pos x) (· = if x.accepts t then some t else none) E := by
  refine ensures_bind hlook fun t' ht => ?_
  subst ht
  split
  · exact ensures_pure rfl
  · exact ensures_bind (ensures_expect pos x.describe (Q := fun _ => True) trivial) fun _ _ =>
      ensures_pure rfl

namespace Grammar

theorem ensures_matchTerminal (hlook : Shows I look toks E) (x : Terminal) (pos : Nat) :
    Ensures I (matchTerminal look x pos)
      (fun m => x.accepts (toks pos) = true ∧
        m = ⟨if x.isKept then [.leaf none (toks pos)] else [], pos + 1⟩)
      (fun e => E e ∨ e = .mismatch ∧ x.accepts (toks pos) = false) := by
  have htest := ensures_test ((hlook pos).stop fun e he =>
    (Or.inl he : E e ∨ e = .mismatch ∧ x.accepts (toks pos) = false)) x
  refine ensures_bind htest fun o ho => ?_
  subst ho
  cases ha : x.accepts (toks pos) with
  | true => exact ensures_pure ⟨rfl, rfl⟩
  | false => exact ensures_throw (Or.inr ⟨rfl, rfl⟩)

/-! ## Alternatives -/

section Alternatives
variable {matchRef : RuleId → Nat → Match σ Matched} {Q : RuleId → Matched → Prop}
  {Refused : RuleId → Prop}

/-- Of several rules the first that matches gives the result; there is none only if all of them
are refused. -/
theorem ensures_matchFirst {ids : List RuleId} {pos : Nat}
    (h : ∀ id ∈ ids,
      Ensures I (matchRef id pos) (Q id) (fun e => E e ∨ e = .mismatch ∧ Refused id)) :
    Ensures I (matchFirst matchRef pos ids) (fun m => ∃ id ∈ ids, Q id m)
      (fun e => E e ∨ e = .mismatch ∧ ∀ id ∈ ids, Refused id) := by
  induction ids with
  | nil => exact ensures_throw (Or.inr ⟨rfl, fun _ h => nomatch h⟩)
  | cons id ids ih =>
    intro p hI
    have hid := h id (List.mem_cons_self ..) p hI
    have hids := ih fun id' hmem => h id' (List.mem_cons_of_mem _ hmem)
    unfold matchFirst
    cases hp : matchRef id pos p with
    | ok m p' =>
      rw [hp] at hid
      exact ⟨hid.1, id, List.mem_cons_self .., hid.2⟩
    | error e p' =>
      rw [hp] at hid
      obtain ⟨hI', hE⟩ := hid
      cases e with
      | mismatch =>
        dsimp only
        have hrest := hids p' hI'
        cases hp' : matchFirst matchRef pos ids p' with
        | ok m p'' =>
          rw [hp'] at hrest
          obtain ⟨hI'', id', hmem, hQ⟩ := hrest
          exact ⟨hI'', id', List.mem_cons_of_mem _ hmem, hQ⟩
        | error e p'' =>
          rw [hp'] at hrest
          refine ⟨hrest.1, ?_⟩
          rcases hrest.2 with he | ⟨he, hall⟩
          · exact Or.inl he
          · rcases hE with hE | ⟨-, hid⟩
            · exact Or.inl (he ▸ hE)
            · exact Or.inr ⟨he, fun id' hmem => by
                rcases List.mem_cons.mp hmem with rfl | hmem
                · exact hid
                · exact hall id' hmem⟩
      | lexical l => exact ⟨hI', hE.elim Or.inl fun h => absurd h.1 (by simp)⟩
      | diverged => exact ⟨hI', hE.elim Or.inl fun h => absurd h.1 (by simp)⟩

theorem ensures_matchChoice {ids : List RuleId} {pos : Nat}
    (h : ∀ id ∈ ids,
      Ensures I (matchRef id pos) (Q id) (fun e => E e ∨ e = .mismatch ∧ Refused id)) :
    Ensures I (matchChoice matchRef ids pos) (fun m => ∃ id ∈ ids, Q id m)
      (fun e => E e ∨ e = .mismatch ∧ ∀ id ∈ ids, Refused id) := by
  unfold matchChoice
  split
  · next hempty =>
    have hnil : ids = [] := List.isEmpty_iff.mp hempty
    exact ensures_refuse _ _ (Or.inr ⟨rfl, by simp [hnil]⟩)
  · exact ensures_matchFirst h

end Alternatives

theorem mem_candidates {g : Grammar} {ids : List RuleId} {word : String} {id : RuleId} :
    id ∈ g.candidates ids word ↔
      id ∈ ids ∧ (g.leadingLiteral id = some word ∨ g.leadingLiteral id = none) := by
  simp only [candidates, List.mem_append, List.mem_filter, decide_eq_true_eq, ← and_or_left]

end Grammar
end Reading
end HandlerGrammar
