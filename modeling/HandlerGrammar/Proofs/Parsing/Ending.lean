import HandlerGrammar.Proofs.Parsing.Session

/-! # Matches come to one end

How deep rules may stand inside each other, which lines have been pulled already and what was
expected before makes no difference to the end of a match, as long as it has one. So a match ends,
or does not end, as such. Without left recursion every match does.

* `ending`: how a match ends;
* `akin`: two matches on streams with the same view, in lockstep;
* `matching_ends`: without left recursion the entry rule comes to one end. -/
namespace HandlerGrammar
open TokenStream
set_option autoImplicit false

/-- How a match ends, without the state that it leaves. -/
def ending {σ α : Type} : EStateM.Result Stop (Progress σ) α → Except Stop α
  | .ok a _ => .ok a
  | .error stop _ => .error stop

section
variable {σ τ α : Type} {P : Pairing σ τ} {Q : α → Prop} {r : EStateM.Result Stop (Progress σ) α}
  {r' : EStateM.Result Stop (Progress τ) α}

theorem Alike.ending_eq (h : Alike P Q r r') (hr : P.lenient → ending r ≠ .error .diverged) :
    ending r' = ending r := by
  cases h with
  | result _ _ => rfl
  | refused _ => rfl
  | lexical _ => rfl
  | diverged _ => rfl
  | excused hl => exact absurd rfl (hr hl)

end

/-! ## Streams with the same view -/

/-- Both streams have the view `v` as long as both matches go on. -/
def akin (v : View) (lenient : Prop) : Pairing TokenStream TokenStream where
  together p p' := (p.source.view = v ∧ p.source.Classified) ∧
    p'.source.view = v ∧ p'.source.Classified
  stopped _ _ _ := True
  lenient := lenient

theorem tokenAt_peek {v : View} (pos : Nat) {p : Progress TokenStream} (hview : p.source.view = v)
    (hs : p.source.Classified) :
    (∃ t q, v.preview pos = .ok t ∧ tokenAt peek pos p = .ok t q ∧ q.source.view = v ∧
        q.source.Classified) ∨
      ∃ e q, v.preview pos = .error e ∧ tokenAt peek pos p = .error (.lexical e) q := by
  subst hview
  unfold tokenAt
  cases h : peek pos p.source with
  | ok t s' =>
    obtain ⟨hpreview, hview, hs'⟩ := peek_ok_view hs h
    exact Or.inl ⟨t, _, hpreview, rfl, hview, hs'⟩
  | error e s' => exact Or.inr ⟨e, _, (peek_error_view hs h).1, rfl⟩

/-- Where the token can be read. -/
theorem ensures_tokenAt_peek {v : View} {pos : Nat} {t : Token} (h : v.preview pos = .ok t) :
    Ensures (fun s => s.view = v ∧ s.Classified) (tokenAt peek pos) (· = t) (fun _ => False) := by
  rintro p ⟨hview, hs⟩
  rcases tokenAt_peek pos hview hs with ⟨u, q, hu, hq, hview', hs'⟩ | ⟨e, q, he, -⟩
  · rw [hq]
    exact ⟨⟨hview', hs'⟩, Except.ok.inj (hu.symm.trans h)⟩
  · cases he.symm.trans h

theorem paired_akin (v : View) (lenient : Prop) {size : Nat} (hsize : v.scanned.length ≤ size) :
    Paired (akin v lenient) peek peek size where
  expect _ _ hp := hp
  token pos := by
    rintro p p' ⟨⟨hview, hs⟩, hview', hs'⟩
    rcases tokenAt_peek pos hview hs with ⟨t, q, hpreview, ht, hq⟩ | ⟨e, q, hpreview, he⟩
    · rcases tokenAt_peek pos hview' hs' with ⟨t', q', hpreview', ht', hq'⟩ | ⟨e', q', he', -⟩
      · obtain rfl := Except.ok.inj (hpreview.symm.trans hpreview')
        rw [ht, ht']
        refine .result (fun x hx => ?_) ⟨hq, hq'⟩
        exact Nat.lt_of_lt_of_le ((View.endsBy_preview v).lt_of_accepts hpreview hx) hsize
      · cases hpreview.symm.trans he'
    · rcases tokenAt_peek pos hview' hs' with ⟨t', q', hpreview', -⟩ | ⟨e', q', hpreview', he'⟩
      · cases hpreview.symm.trans hpreview'
      · obtain rfl := Except.error.inj (hpreview.symm.trans hpreview')
        rw [he, he']
        exact .lexical trivial

namespace Grammar

variable {g : Grammar} {s s' : TokenStream}

/-- If a step ends, it ends alike at every greater depth, on every stream that shows the same and
whatever was expected before. -/
theorem ending_matchStep (hs : s.Classified) (hs' : s'.Classified) (hview : s'.view = s.view)
    (step : Step) {pos depth depth' : Nat} (hdepth : depth ≤ depth') {f f' : Frontier}
    (hends : ending (g.matchStep peek (g.matchRule peek depth) depth step pos ⟨s, f⟩) ≠
      .error .diverged) :
    ending (g.matchStep peek (g.matchRule peek depth') depth' step pos ⟨s', f'⟩) =
      ending (g.matchStep peek (g.matchRule peek depth) depth step pos ⟨s, f⟩) := by
  have hpaired : Paired (akin s.view True) peek peek (max s.view.scanned.length pos) :=
    paired_akin s.view True (Nat.le_max_left _ _)
  have hrule : ∀ id pos', pos' ≤ max s.view.scanned.length pos → Follows (akin s.view True)
      (g.matchRule peek depth id pos') (g.matchRule peek depth' id pos')
      (Matched.Within (max s.view.scanned.length pos) pos') :=
    fun id _ hpos => follows_matchRule hpaired (Or.inr ⟨trivial, hdepth⟩) id hpos
  have hstep := follows_matchStep (g := g) hpaired hrule (Or.inr ⟨trivial, Or.inl hdepth⟩) step
    (Nat.le_max_right _ _)
  exact (hstep ⟨s, f⟩ ⟨s', f'⟩ ⟨⟨rfl, hs⟩, hview, hs'⟩).ending_eq fun _ => hends

end Grammar

open Grammar

/-! ## Without left recursion -/

/-- Whatever has been asked of a stream before: if no rule leads back to itself, the match of the
entry rule comes to one and the same end at every depth that is great enough for the tokens left,
and a parse comes to its end. -/
theorem matching_ends {g : Grammar} (hacyclic : g.Acyclic) (v : Vocabulary) (bytes : List UInt8)
    (before : List Request) :
    let s := (attend before (.ofBytes v bytes)).2
    (∃ o, o ≠ .error .diverged ∧ ∀ depth f, g.depthFor s.size ≤ depth →
      ending (g.matchRule peek depth g.entry 0 ⟨s, f⟩) = o) ∧
    ∀ e s', g.parse s = .error e s' → e ≠ .diverged := by
  intro s
  have hs : s.Classified := classified_attend v bytes before
  refine ⟨?_, fun e s' h => hacyclic.parse_ends hs h⟩
  have hshows : Shows _ peek s.shown (· ≠ .diverged) := (shows_peek hs).mono fun e hfault => by
    obtain ⟨l, -, rfl⟩ := hfault
    simp
  have hends := ends_of_depthFor hacyclic hshows (fun k hk => (shown_isEof hs k).mpr hk) g.entry
    s.length_upcoming
  have hend : ending (g.matchRule peek (g.depthFor s.size) g.entry 0 ⟨s, .start⟩) ≠
      .error .diverged := by
    have h := hends ⟨s, .start⟩ ⟨[], .refl s⟩
    cases hm : g.matchRule peek (g.depthFor s.size) g.entry 0 ⟨s, .start⟩ with
    | ok m p => exact fun hd => nomatch hd
    | error stop p =>
      rw [hm] at h
      intro hd
      exact h.2 (Except.error.inj hd)
  refine ⟨_, hend, fun depth f hdepth => ?_⟩
  exact ending_matchStep hs hs rfl (.rule g.entry) hdepth hend

/-- Any number of numbers: the rule that is repeated may match nothing. -/
def numbersGrammar : Grammar where
  rules := [⟨"numbers", .labeled "numbers" [.many 1]⟩, ⟨"rule#1", .plain [.optional 2]⟩,
    ⟨"rule#2", .plain [.token .number]⟩]
  entry := 0
  keywords := WordSet.ofList []

theorem numbersGrammar_acyclic : numbersGrammar.Acyclic := by
  refine acyclic_of_rank (2 - ·) fun a b hlead => ?_
  obtain ⟨body, before, step, after, hbody, hsteps, -, hb⟩ := hlead
  have hmem : b ∈ body.steps.flatMap Step.references := by
    rw [hsteps]
    exact List.mem_flatMap.mpr ⟨step, by simp, hb⟩
  rcases a with _ | _ | _ | a
  · obtain rfl := Option.some.inj hbody
    obtain rfl := List.mem_singleton.mp hmem
    decide
  · obtain rfl := Option.some.inj hbody
    obtain rfl := List.mem_singleton.mp hmem
    decide
  · obtain rfl := Option.some.inj hbody
    cases hmem
  · cases hbody

/-- The text `1 2`. -/
def numbersSource : List UInt8 := [49, 32, 50]

/-- Behind the second number the repeated rule matches nothing, which ends the repetition. -/
theorem matching_ends_sample : numbersGrammar.Acyclic ∧ ∃ m, m.next = 2 ∧ ∀ depth,
    numbersGrammar.depthFor (attend [] (.ofBytes .standard numbersSource)).2.size ≤ depth →
    ending (numbersGrammar.matchRule peek depth numbersGrammar.entry 0
      ⟨(attend [] (.ofBytes .standard numbersSource)).2, .start⟩) = .ok m := by
  refine ⟨numbersGrammar_acyclic, ?_⟩
  obtain ⟨⟨o, -, hend⟩, -⟩ := matching_ends numbersGrammar_acyclic .standard numbersSource []
  have hnext : (ending (numbersGrammar.matchRule peek
      (numbersGrammar.depthFor (attend [] (.ofBytes .standard numbersSource)).2.size)
      numbersGrammar.entry 0 ⟨(attend [] (.ofBytes .standard numbersSource)).2,
        .start⟩)).toOption.map Matched.next = some 2 := by decide +kernel
  rw [hend _ _ (Nat.le_refl _)] at hnext
  cases o with
  | error stop => cases hnext
  | ok m => exact ⟨m, Option.some.inj hnext, fun depth hdepth => hend depth _ hdepth⟩

end HandlerGrammar
