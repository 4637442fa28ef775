import HandlerGrammar.Proofs.Matching.Derivation

/-! # The context-free reading of rules

Without regard to positions and nodes, the rules of an arena are a context-free grammar. What steps
derive in this reading are the tokens of their derivations, wherever these tokens are read.

* `Yields`: the sequences of tokens that steps derive;
* `Derives.yields`, `Yields.derives`: derivations between positions, with their positions left out
  or put in. -/
namespace HandlerGrammar
open Derivation
set_option autoImplicit false

/-- A terminal derives one token that it accepts, a rule what its steps derive, an optional rule
that or nothing, a repeated one any number of such sequences, a choice what one of its rules derives,
and regrouping nothing. -/
inductive Yields (g : Grammar) : List Step → List Token → Prop
  | nil : Yields g [] []
  | terminal {x : Terminal} {t : Token} {steps : List Step} {ts : List Token} :
      x.accepts t = true → Yields g steps ts → Yields g (.terminal x :: steps) (t :: ts)
  | rule {id : RuleId} {body : Rule} {steps : List Step} {ts us : List Token} :
      g.rule? id = some body → Yields g body.steps ts → Yields g steps us →
      Yields g (.rule id :: steps) (ts ++ us)
  | skip {id : RuleId} {steps : List Step} {ts : List Token} :
      Yields g steps ts → Yields g (.optional id :: steps) ts
  | take {id : RuleId} {steps : List Step} {ts : List Token} :
      Yields g (.rule id :: steps) ts → Yields g (.optional id :: steps) ts
  | done {id : RuleId} {steps : List Step} {ts : List Token} :
      Yields g steps ts → Yields g (.many id :: steps) ts
  | again {id : RuleId} {steps : List Step} {ts : List Token} :
      Yields g (.rule id :: .many id :: steps) ts → Yields g (.many id :: steps) ts
  | choice {id : RuleId} {ids : List RuleId} {steps : List Step} {ts : List Token} :
      id ∈ ids → Yields g (.rule id :: steps) ts → Yields g (.choice ids :: steps) ts
  | dispatch {id : RuleId} {ids : List RuleId} {steps : List Step} {ts : List Token} :
      id ∈ ids → Yields g (.rule id :: steps) ts → Yields g (.dispatch ids :: steps) ts
  | gather {label : String} {members : List String} {steps : List Step} {ts : List Token} :
      Yields g steps ts → Yields g (.gather label members :: steps) ts

section
variable {g : Grammar} {toks : Nat → Token} {steps : List Step}

theorem Derives.yields {ds : List Derivation} {a b : Nat} (h : Derives g toks steps ds a b) :
    Yields g steps (tokensOf ds) := by
  induction h with
  | nil a => exact .nil
  | token hx _ ih => exact .terminal hx ih
  | rule hid _ _ ihbody ihrest => exact .rule hid ihbody ihrest
  | skip _ ih => exact .skip ih
  | take _ ih => exact .take ih
  | done _ ih => exact .done ih
  | again _ ih => exact .again ih
  | choice hid _ ih => exact .choice hid ih
  | dispatch hid _ ih => exact .dispatch hid ih
  | gather _ ih => exact .gather ih

theorem Yields.derives {ts : List Token} (h : Yields g steps ts) {a : Nat}
    (hreads : Reads toks a ts) :
    ∃ ds, Derives g toks steps ds a (a + ts.length) ∧ tokensOf ds = ts := by
  induction h generalizing a with
  | nil => exact ⟨[], .nil a, rfl⟩
  | @terminal x t steps ts hx _ ih =>
    obtain ⟨rfl, hreads⟩ := hreads
    obtain ⟨ds, hds, rfl⟩ := ih hreads
    have hnext : a + 1 + (tokensOf ds).length = a + ((tokensOf ds).length + 1) := by omega
    rw [hnext] at hds
    exact ⟨.token x (toks a) :: ds, .token hx hds, rfl⟩
  | @rule id body steps ts us hid _ _ ihbody ihrest =>
    obtain ⟨hts, hus⟩ := reads_append.mp hreads
    obtain ⟨parts, hparts, rfl⟩ := ihbody hts
    obtain ⟨ds, hds, rfl⟩ := ihrest hus
    refine ⟨.rule id body (toks a).line parts :: ds, .rule hid hparts ?_, rfl⟩
    rw [List.length_append, ← Nat.add_assoc]
    exact hds
  | skip _ ih =>
    obtain ⟨ds, hds, htokens⟩ := ih hreads
    exact ⟨ds, .skip hds, htokens⟩
  | take _ ih =>
    obtain ⟨ds, hds, htokens⟩ := ih hreads
    exact ⟨ds, .take hds, htokens⟩
  | done _ ih =>
    obtain ⟨ds, hds, htokens⟩ := ih hreads
    exact ⟨ds, .done hds, htokens⟩
  | again _ ih =>
    obtain ⟨ds, hds, htokens⟩ := ih hreads
    exact ⟨ds, .again hds, htokens⟩
  | choice hid _ ih =>
    obtain ⟨ds, hds, htokens⟩ := ih hreads
    exact ⟨ds, .choice hid hds, htokens⟩
  | dispatch hid _ ih =>
    obtain ⟨ds, hds, htokens⟩ := ih hreads
    exact ⟨ds, .dispatch hid hds, htokens⟩
  | @gather label members steps ts _ ih =>
    obtain ⟨ds, hds, htokens⟩ := ih hreads
    exact ⟨.gather label members :: ds, .gather hds, htokens⟩

end
end HandlerGrammar
