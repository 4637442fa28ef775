import HandlerGrammar.Proofs.Parsing.Foresight
import HandlerGrammar.Proofs.Parsing.Soundness

/-! # Prediction and first tokens

A rule may start at a token if it derives a sequence that begins with it, or the empty one. All such
rules are let in by prediction, but not only they: where steps begin with a rule that derives the
empty sequence, prediction is content with that rule and does not look at the steps behind it, as it
does behind optional and repeated rules.

* `MayStart`: what prediction is meant to decide, `Yields.begins`: it lets in all these rules;
* `Productive`, `Gapless`: grammars without a rule that derives nothing at all, and without such a gap;
* `Grammar.begins_iff_mayStart`: in these grammars prediction is right;
* `prediction_first_tokens`: what prediction answers on a stream;
* `prediction_enters_in_vain`: a grammar with a gap. -/
namespace HandlerGrammar
open TokenStream
set_option autoImplicit false

namespace Grammar

variable (g : Grammar)

/-- The steps derive a sequence that begins with the token, or the empty sequence. -/
def MayStart (steps : List Step) (t : Token) : Prop :=
  Yields g steps [] ∨ ∃ ts, Yields g steps (t :: ts)

/-- Every rule derives a sequence. -/
def Productive : Prop := ∀ id body, g.rule? id = some body → ∃ ts, Yields g [.rule id] ts

/-- Where the steps may begin with a rule that derives the empty sequence, the steps behind it do so
too. -/
def StepsGapless : List Step → Prop
  | [] | .terminal _ :: _ => True
  | .rule id :: steps => Yields g [.rule id] [] → Yields g steps []
  | .choice ids :: steps | .dispatch ids :: steps =>
    ∀ id ∈ ids, Yields g [.rule id] [] → Yields g steps []
  | .optional id :: steps | .many id :: steps =>
    (Yields g [.rule id] [] → Yields g steps []) ∧ StepsGapless steps
  | .gather _ _ :: steps => StepsGapless steps

def Gapless : Prop := ∀ id body, g.rule? id = some body → g.StepsGapless body.steps

end Grammar

open Grammar

section
variable {g : Grammar} {steps : List Step} {t : Token}

/-! ## Deriving parts of sequences of steps -/

theorem yields_nil {ts : List Token} : Yields g [] ts ↔ ts = [] := by
  constructor
  · intro h
    cases h
    rfl
  · rintro rfl
    exact .nil

theorem yields_terminal {x : Terminal} {ts : List Token} : Yields g (.terminal x :: steps) ts ↔
    ∃ t us, ts = t :: us ∧ x.accepts t = true ∧ Yields g steps us := by
  constructor
  · intro h
    cases h with
    | terminal hx h => exact ⟨_, _, rfl, hx, h⟩
  · rintro ⟨t, us, rfl, hx, h⟩
    exact .terminal hx h

theorem yields_rule {id : RuleId} {body : Rule} (hid : g.rule? id = some body) {ts : List Token} :
    Yields g (.rule id :: steps) ts ↔
      ∃ us vs, ts = us ++ vs ∧ Yields g body.steps us ∧ Yields g steps vs := by
  constructor
  · intro h
    cases h with
    | rule hid' hbody h =>
      obtain rfl := Option.some.inj (hid.symm.trans hid')
      exact ⟨_, _, rfl, hbody, h⟩
  · rintro ⟨us, vs, rfl, hbody, h⟩
    exact .rule hid hbody h

theorem yields_optional {id : RuleId} {ts : List Token} : Yields g (.optional id :: steps) ts ↔
    Yields g steps ts ∨ Yields g (.rule id :: steps) ts := by
  constructor
  · intro h
    cases h with
    | skip h => exact Or.inl h
    | take h => exact Or.inr h
  · exact fun h => h.elim .skip .take

theorem Yields.prepend {id : RuleId} {ts us : List Token} (h : Yields g [.rule id] ts)
    (hus : Yields g steps us) : Yields g (.rule id :: steps) (ts ++ us) := by
  cases h with
  | rule hid hbody hnil =>
    cases hnil
    rw [List.append_nil]
    exact .rule hid hbody hus

/-- Steps that derive a sequence derive one from each step on. -/
theorem Yields.suffix {ts : List Token} (h : Yields g steps ts) :
    ∀ rest, rest <:+ steps → ∃ us, Yields g rest us := by
  have hcons : ∀ {step : Step} {steps : List Step} {ts : List Token},
      Yields g (step :: steps) ts → (∀ rest, rest <:+ steps → ∃ us, Yields g rest us) →
      ∀ rest, rest <:+ step :: steps → ∃ us, Yields g rest us := by
    intro step steps ts hall htail rest hrest
    rcases List.suffix_cons_iff.mp hrest with rfl | hrest
    · exact ⟨ts, hall⟩
    · exact htail rest hrest
  have hbehind : ∀ {step : Step} {steps : List Step},
      (∀ rest, rest <:+ step :: steps → ∃ us, Yields g rest us) →
      ∀ rest, rest <:+ steps → ∃ us, Yields g rest us :=
    fun h rest hrest => h rest (hrest.trans (List.suffix_cons _ _))
  induction h with
  | nil =>
    intro rest hrest
    rw [List.suffix_nil.mp hrest]
    exact ⟨[], .nil⟩
  | terminal hx h ih => exact hcons (.terminal hx h) ih
  | rule hid hbody h _ ih => exact hcons (.rule hid hbody h) ih
  | skip h ih => exact hcons (.skip h) ih
  | take h ih => exact hcons (.take h) (hbehind ih)
  | done h ih => exact hcons (.done h) ih
  | again h ih => exact hcons (.again h) (hbehind (hbehind ih))
  | choice hid h ih => exact hcons (.choice hid h) (hbehind ih)
  | dispatch hid h ih => exact hcons (.dispatch hid h) (hbehind ih)
  | gather h ih => exact hcons (.gather h) ih

/-- A rule in front may start, and behind it there is something to derive. -/
theorem mayStart_rule {id : RuleId} (h : g.MayStart [.rule id] t)
    (hempty : Yields g [.rule id] [] → Yields g steps []) {us : List Token}
    (hus : Yields g steps us) : g.MayStart (.rule id :: steps) t := by
  rcases h with h | ⟨ts, hts⟩
  · exact Or.inl (h.prepend (hempty h))
  · exact Or.inr ⟨ts ++ us, hts.prepend hus⟩

theorem Grammar.MayStart.map {steps' : List Step} (hmap : ∀ ts, Yields g steps ts → Yields g steps' ts)
    (h : g.MayStart steps t) : g.MayStart steps' t :=
  h.imp (hmap []) fun ⟨ts, hts⟩ => ⟨ts, hmap _ hts⟩

/-! ## Rules that may start -/

/-- Steps begin with the first token of every sequence that they derive, and if that is empty with
any token. -/
theorem Yields.begins {ts : List Token} (h : Yields g steps ts) (t : Token) :
    StepsBegin (g.Begins (ts.headD t)) (ts.headD t) steps := by
  have hreads : Reads (fun k => ts[k]?.getD t) 0 ts := by
    refine reads_iff.mpr fun i hi => ?_
    rw [Nat.zero_add, List.getElem?_eq_getElem hi]
    rfl
  obtain ⟨ds, hds, -⟩ := h.derives hreads
  have hfirst : ts[0]?.getD t = ts.headD t := by cases ts <;> rfl
  have hbegins := hds.begins
  rw [hfirst] at hbegins
  exact hbegins

theorem Grammar.MayStart.begins {id : RuleId} (h : g.MayStart [.rule id] t) : g.Begins t id := by
  rcases h with h | ⟨ts, hts⟩
  · exact h.begins t
  · exact hts.begins t

/-- Steps without a gap begin only with tokens at which they may start, if that holds of the rules
in them. -/
theorem mayStart_of_stepsBegin {L : RuleId → Prop} (hL : ∀ id, L id → g.MayStart [.rule id] t)
    (hgapless : g.StepsGapless steps) {us : List Token} (hus : Yields g steps us)
    (h : StepsBegin L t steps) : g.MayStart steps t := by
  induction steps generalizing us with
  | nil => exact Or.inl .nil
  | cons step steps ih =>
    obtain ⟨vs, hvs⟩ := hus.suffix steps (List.suffix_cons _ _)
    cases step with
    | terminal x => exact Or.inr ⟨vs, .terminal h hvs⟩
    | rule id => exact mayStart_rule (hL id h) hgapless hvs
    | optional id =>
      obtain ⟨hempty, hgapless⟩ := hgapless
      rcases h with h | h
      · exact (mayStart_rule (hL id h) hempty hvs).map fun _ => .take
      · exact (ih hgapless hvs h).map fun _ => .skip
    | many id =>
      obtain ⟨hempty, hgapless⟩ := hgapless
      rcases h with h | h
      · exact (mayStart_rule (hL id h) (fun hid => .done (hempty hid)) (.done hvs)).map
          fun _ => .again
      · exact (ih hgapless hvs h).map fun _ => .done
    | choice ids =>
      obtain ⟨id, hid, h⟩ := h
      exact (mayStart_rule (hL id h) (hgapless id hid) hvs).map fun _ => .choice hid
    | dispatch ids =>
      obtain ⟨id, hid, h⟩ := h
      exact (mayStart_rule (hL id h) (hgapless id hid) hvs).map fun _ => .dispatch hid
    | gather label members => exact (ih hgapless hvs h).map fun _ => .gather

/-- Without a gap and without a rule that derives nothing, a rule begins exactly with the tokens at
which it may start. -/
theorem Grammar.begins_iff_mayStart (hproductive : g.Productive) (hgapless : g.Gapless)
    {id : RuleId} : g.Begins t id ↔ g.MayStart [.rule id] t := by
  refine ⟨fun h => ?_, MayStart.begins⟩
  -- along the chain of rules that begin each other
  obtain ⟨n, hn⟩ := h
  induction n generalizing id with
  | zero => exact hn.elim
  | succ n ih =>
    obtain ⟨-, body, hid, hsteps⟩ := hn
    have hbody : ∃ us, Yields g body.steps us := by
      obtain ⟨us, hus⟩ := hproductive id body hid
      cases hus with
      | rule hid' hus hnil =>
        obtain rfl := Option.some.inj (hid.symm.trans hid')
        exact ⟨_, hus⟩
    obtain ⟨us, hus⟩ := hbody
    have hmay := mayStart_of_stepsBegin (fun _ => ih) (hgapless id body hid) hus hsteps
    refine MayStart.map (fun ts hts => ?_) hmay
    have hrule := Yields.rule hid hts .nil
    rwa [List.append_nil] at hrule

end

/-! ## Prediction on a stream -/

/-- Whatever has been asked of a stream before, prediction lets a rule in exactly if a chain of rules
leads from it to a test that the token passes, or to steps that are passed over. Without a gap in the
grammar, and if every rule derives something, these are the rules that may start at the token; the
others are passed over where they are optional or repeated. -/
theorem prediction_first_tokens (g : Grammar) (v : Vocabulary) (bytes : List UInt8)
    (before : List Request) (id : RuleId) (pos : Nat) (f : Frontier) {b : Bool}
    {p : Progress TokenStream}
    (h : g.starts peek id pos ⟨(attend before (.ofBytes v bytes)).2, f⟩ = .ok b p) :
    let s := (attend before (.ofBytes v bytes)).2
    (b = true ↔ g.Begins (s.shown pos) id) ∧
    (g.Productive → g.Gapless → (b = true ↔ g.MayStart [.rule id] (s.shown pos)) ∧
      (¬ g.MayStart [.rule id] (s.shown pos) → ∀ depth count,
        g.matchStep peek (g.matchRule peek depth) (count + 1) (.optional id) pos ⟨s, f⟩ =
          .ok ⟨[], pos⟩ p ∧
        g.matchStep peek (g.matchRule peek depth) (count + 1) (.many id) pos ⟨s, f⟩ =
          .ok ⟨[], pos⟩ p)) := by
  intro s
  have hs : s.Classified := classified_attend v bytes before
  have hstarts := ensures_starts (g := g) (shows_peek hs pos) id ⟨s, f⟩ ⟨[], .refl s⟩
  rw [h] at hstarts
  have hbegins : b = true ↔ g.Begins (s.shown pos) id := hstarts.2
  refine ⟨hbegins, fun hproductive hgapless => ?_⟩
  have hmay : b = true ↔ g.MayStart [.rule id] (s.shown pos) :=
    hbegins.trans (begins_iff_mayStart hproductive hgapless)
  refine ⟨hmay, fun hnot depth count => ?_⟩
  have hb : b = false := Bool.eq_false_iff.mpr fun hb => hnot (hmay.mp hb)
  subst hb
  constructor
  · change EStateM.bind (g.starts peek id pos) _ ⟨s, f⟩ = _
    rw [EStateM.bind, h]
    rfl
  · change EStateM.bind (g.starts peek id pos) _ ⟨s, f⟩ = _
    rw [EStateM.bind, h]
    rfl

/-- A semicolon, behind a number or alone. -/
def statementGrammar : Grammar where
  rules := [⟨"statement", .labeled "statement" [.optional 1, .separator ";"]⟩,
    ⟨"rule#1", .plain [.token .number]⟩]
  entry := 0
  keywords := WordSet.ofList []

theorem statementGrammar_productive : statementGrammar.Productive := by
  intro id body hid
  rcases id with _ | _ | id
  · exact ⟨[⟨.separator, 1, ";", .absent⟩],
      (yields_rule rfl).mpr ⟨_, [], rfl, .skip (.terminal rfl .nil), .nil⟩⟩
  · exact ⟨[⟨.integer, 1, "1", .integer 1⟩],
      (yields_rule rfl).mpr ⟨_, [], rfl, .terminal rfl .nil, .nil⟩⟩
  · cases hid

theorem statementGrammar_number {ts : List Token} (h : Yields statementGrammar [.rule 1] ts) :
    ∃ t, ts = [t] ∧ TokenClass.number.accepts t = true := by
  obtain ⟨us, vs, rfl, hbody, hnil⟩ := (yields_rule rfl).mp h
  obtain ⟨t, us, rfl, ht, hus⟩ := yields_terminal.mp hbody
  obtain rfl := yields_nil.mp hus
  obtain rfl := yields_nil.mp hnil
  exact ⟨t, rfl, ht⟩

theorem statementGrammar_gapless : statementGrammar.Gapless := by
  intro id body hid
  rcases id with _ | _ | id
  · obtain rfl := Option.some.inj hid
    refine ⟨fun hempty => ?_, trivial⟩
    obtain ⟨t, ht, -⟩ := statementGrammar_number hempty
    cases ht
  · obtain rfl := Option.some.inj hid
    exact trivial
  · cases hid

/-- The text `;`: no number may start there, and the optional one is passed over. -/
theorem prediction_first_tokens_sample : ∃ p,
    statementGrammar.starts peek 1 0 ⟨(attend [] (.ofBytes .standard [59])).2, .start⟩ =
      .ok false p ∧
    ¬ statementGrammar.MayStart [.rule 1] ((attend [] (.ofBytes .standard [59])).2.shown 0) ∧
    statementGrammar.matchStep peek (statementGrammar.matchRule peek 1) 1 (.optional 1) 0
      ⟨(attend [] (.ofBytes .standard [59])).2, .start⟩ = .ok ⟨[], 0⟩ p := by
  have hanswer : (statementGrammar.starts peek 1 0).run'
      ⟨(attend [] (.ofBytes .standard [59])).2, .start⟩ = some false := by decide +kernel
  obtain ⟨p, hstarts⟩ := ok_of_run' hanswer
  obtain ⟨-, hmay⟩ :=
    prediction_first_tokens statementGrammar .standard [59] [] 1 0 .start hstarts
  obtain ⟨hiff, hskip⟩ := hmay statementGrammar_productive statementGrammar_gapless
  have hnot := fun h => Bool.false_ne_true (hiff.mpr h)
  exact ⟨p, hstarts, hnot, (hskip hnot 1 0).1⟩

/-! ## A grammar with a gap -/

/-- A sign that may be missing, a number behind it, and a semicolon with such a number in front of
it or none. Rule 2 begins with a rule that derives the empty sequence. -/
def gappedGrammar : Grammar where
  rules := [⟨"rule#0", .plain [.separator "-"]⟩, ⟨"rule#1", .plain [.optional 0]⟩,
    ⟨"rule#2", .plain [.rule 1, .token .number]⟩,
    ⟨"statement", .labeled "statement" [.optional 2, .separator ";"]⟩]
  entry := 3
  keywords := WordSet.ofList []

/-- The arena calls that build it. -/
def gappedArena : Arena :=
  [.plain [.separator "-"], .plain [.optional 0], .plain [.rule 1, .token .number],
    .labeled "statement" [.optional 2, .separator ";"]].foldl (fun a rule => (a.add rule).2) .empty

theorem gappedGrammar_sign {ts : List Token} (h : Yields gappedGrammar [.rule 2] ts) :
    ∃ t us, ts = t :: us ∧
      ((Terminal.separator "-").accepts t = true ∨ TokenClass.number.accepts t = true) := by
  obtain ⟨us, vs, rfl, hbody, hnil⟩ := (yields_rule rfl).mp h
  obtain rfl := yields_nil.mp hnil
  obtain ⟨us, vs, rfl, hsign, hnumber⟩ := (yields_rule rfl).mp hbody
  obtain ⟨n, vs, rfl, hn, -⟩ := yields_terminal.mp hnumber
  rcases yields_optional.mp hsign with hsign | hsign
  · obtain rfl := yields_nil.mp hsign
    exact ⟨n, _, rfl, Or.inr hn⟩
  · obtain ⟨us, ws, rfl, hsign, -⟩ := (yields_rule rfl).mp hsign
    obtain ⟨t, us, rfl, ht, -⟩ := yields_terminal.mp hsign
    exact ⟨t, _, rfl, Or.inl ht⟩

/-- Prediction lets a rule in that derives no sequence beginning with the next token, nor the empty
one. The text `;` is a statement without a number, but its parse fails. -/
theorem prediction_enters_in_vain : gappedArena.build 3 = .ok gappedGrammar ∧
    (∃ p, gappedGrammar.starts peek 2 0 ⟨.ofBytes .standard [59], .start⟩ = .ok true p) ∧
    ¬ gappedGrammar.MayStart [.rule 2] ((TokenStream.ofBytes .standard [59]).shown 0) ∧
    Yields gappedGrammar [.rule 3] (TokenStream.ofBytes .standard [59]).upcoming ∧
    ∃ s', gappedGrammar.parse (.ofBytes .standard [59]) =
      .error (.mismatch ⟨.separator, 1, ";", .absent⟩ ["`-`", "number"]) s' := by
  have hshown : (TokenStream.ofBytes .standard [59]).shown 0 = ⟨.separator, 1, ";", .absent⟩ := by
    decide +kernel
  have hupcoming : (TokenStream.ofBytes .standard [59]).upcoming =
      [⟨.separator, 1, ";", .absent⟩] := by decide +kernel
  have hanswer : (gappedGrammar.starts peek 2 0).run' ⟨.ofBytes .standard [59], .start⟩ =
      some true := by decide +kernel
  refine ⟨by decide +kernel, ok_of_run' hanswer, ?_, ?_, ?_⟩
  · rw [hshown]
    rintro (hempty | ⟨ts, hts⟩)
    · obtain ⟨t, us, hnil, -⟩ := gappedGrammar_sign hempty
      cases hnil
    · obtain ⟨t, us, hcons, haccepts⟩ := gappedGrammar_sign hts
      obtain ⟨rfl, rfl⟩ := List.cons.inj hcons
      revert haccepts
      decide
  · rw [hupcoming]
    exact (yields_rule rfl).mpr ⟨_, [], rfl, .skip (.terminal rfl .nil), .nil⟩
  · exact ⟨_, gappedGrammar.parse_of_map_error (by decide +kernel)⟩

end HandlerGrammar
