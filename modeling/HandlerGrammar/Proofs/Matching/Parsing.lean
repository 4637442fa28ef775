import HandlerGrammar.Proofs.Matching.Termination
import HandlerGrammar.Proofs.Stream.Lookahead

/-! # Parsing all that is left

A parse works on the stream with the grammar's keywords reserved. It succeeds when the entry rule
matches exactly the upcoming tokens, and then these have a derivation whose nodes make the tree.

* `prepared`: the stream that is matched;
* `parse_derives`: the tree of a parse comes from a derivation of all upcoming tokens;
* `Acyclic.parse_ends`: without left recursion a parse comes to its end;
* `parse_succeeds`: a match of all upcoming tokens gives a tree. -/
namespace HandlerGrammar
open Derivation
set_option autoImplicit false

namespace Grammar

/-- The stream with the keywords reserved. -/
def prepared (g : Grammar) (s : TokenStream) : TokenStream :=
  s.reserveAll (g.keywords.words.filter (!s.isReserved ·))

section
variable {g : Grammar} {s : TokenStream}

theorem isReserved_prepared (hs : s.Classified) (w : String) :
    (g.prepared s).isReserved w = (s.isReserved w || g.keywords.contains w) := by
  have h := (TokenStream.reserveAll_spec hs (g.keywords.words.filter (!s.isReserved ·))).2.2.2.2 w
  rw [prepared, h]
  cases hr : s.isReserved w with
  | true => rfl
  | false =>
    rw [Bool.eq_iff_iff]
    simp [WordSet.contains, hr]

theorem upcoming_prepared (hs : s.Classified) :
    (g.prepared s).upcoming =
      s.pending.map (Token.reserve fun w => s.isReserved w || g.keywords.contains w) := by
  have h := TokenStream.reserveAll_spec hs (g.keywords.words.filter (!s.isReserved ·))
  have hr : (g.prepared s).isReserved = fun w => s.isReserved w || g.keywords.contains w :=
    funext fun w => isReserved_prepared hs w
  rw [TokenStream.upcoming, hr, prepared, h.2.1]

theorem prepared_classified (hs : s.Classified) : (g.prepared s).Classified :=
  (TokenStream.reserveAll_spec hs _).1

theorem size_prepared (g : Grammar) (s : TokenStream) : (g.prepared s).size = s.size := by
  have h : ∀ (words : List String) (s : TokenStream), (s.reserveAll words).size = s.size := by
    intro words
    induction words with
    | nil => exact fun s => rfl
    | cons word words ih =>
      intro s
      have hstep : (s.reserve word).size = s.size := by
        simp [TokenStream.size, TokenStream.reserve]
      exact (ih (s.reserve word)).trans hstep
  exact h _ s

end

/-! ## Matching all tokens -/

section
variable {σ : Type} {I : σ → Prop} {E : Stop → Prop} {g : Grammar} {look : Lookahead σ}
  {toks : Nat → Token}

theorem matchAll_derives (hlook : Shows I look toks E) (hmismatch : E .mismatch)
    (hdiverged : E .diverged) (depth : Nat) :
    Ensures I (g.matchAll look depth)
      (fun r => ∃ d, Derives g toks [.rule g.entry] [d] 0 r.2 ∧ (toks r.2).isEof = true ∧
        r.1 = treeOf (toks 0).line d.nodes) E := by
  refine ensures_bind (matchRule_derives hlook hmismatch hdiverged depth g.entry 0) fun m hm => ?_
  obtain ⟨d, hd, hnodes⟩ := hm
  refine ensures_bind (hlook m.next) fun last hlast => ?_
  subst hlast
  split
  · next heof =>
    refine ensures_bind (hlook 0) fun first hfirst => ensures_pure ?_
    subst hfirst
    exact ⟨d, hd, heof, by rw [hnodes]⟩
  · exact ensures_refuse _ _ hmismatch

theorem matchAll_ok (hlook : Shows I look toks E) {depth : Nat} {size : Nat}
    (hmatch : Ensures I (g.matchRule look depth g.entry 0) (fun m => m.next = size) E)
    (hsize : (toks size).isEof = true) : Ensures I (g.matchAll look depth) (fun _ => True) E := by
  refine ensures_bind hmatch fun m hm => ?_
  refine ensures_bind (hlook m.next) fun last hlast => ?_
  rw [if_pos (by rw [hlast, hm, hsize])]
  exact ensures_bind (hlook 0) fun _ _ => ensures_pure trivial

theorem matchAll_ends (hlook : Shows I look toks (· ≠ .diverged)) {depth : Nat}
    (hmatch : Ends I (g.matchRule look depth g.entry 0)) : Ends I (g.matchAll look depth) := by
  refine ensures_bind hmatch fun m _ => ?_
  refine ensures_bind (hlook m.next) fun last _ => ?_
  split
  · exact ensures_bind (hlook 0) fun _ _ => ensures_pure trivial
  · exact ensures_refuse _ _ (by simp)

end

/-! ## Parsing -/

section
variable {g : Grammar} {s s' : TokenStream} {tree : ParseTree}

theorem parse_of_ok {r : ParseTree × Nat} {p : Progress TokenStream}
    (hm : g.matchAll TokenStream.peek (g.depthFor s.size) ⟨g.prepared s, .start⟩ = .ok r p) :
    g.parse s = .ok r.1 (p.source.advance r.2) := by
  unfold prepared at hm
  simp only [parse, hm]

theorem parse_of_error {stop : Stop} {p : Progress TokenStream}
    (hm : g.matchAll TokenStream.peek (g.depthFor s.size) ⟨g.prepared s, .start⟩ = .error stop p) :
    ∃ e s', g.parse s = .error e s' := by
  unfold prepared at hm
  simp only [parse, hm]
  exact ⟨_, _, rfl⟩

/-- The tree of a parse is made of a derivation of all upcoming tokens from the entry rule. -/
theorem parse_derives (hs : s.Classified) (h : g.parse s = .ok tree s') :
    ∃ d, Derives g (g.prepared s).shown [.rule g.entry] [d] 0 (g.prepared s).upcoming.length ∧
      d.tokens = (g.prepared s).upcoming ∧
      tree = treeOf ((g.prepared s).shown 0).line d.nodes := by
  have hp := prepared_classified (g := g) hs
  have hshows := (TokenStream.shows_peek hp).mono fun _ _ => trivial
  have hall := matchAll_derives (g := g) (E := fun _ => True) hshows trivial trivial
    (g.depthFor s.size) ⟨g.prepared s, .start⟩ ⟨[], .refl _⟩
  cases hm : g.matchAll TokenStream.peek (g.depthFor s.size) ⟨g.prepared s, .start⟩ with
  | error stop p =>
    obtain ⟨e, s'', herror⟩ := parse_of_error hm
    rw [herror] at h
    cases h
  | ok r p =>
    rw [parse_of_ok hm] at h
    rw [hm] at hall
    obtain ⟨-, d, hd, heof, htree⟩ := hall
    cases h
    have hbehind := (TokenStream.shown_isEof hp r.2).mp heof
    have hwithin : r.2 ≤ (g.prepared s).upcoming.length :=
      hd.le_size (fun k hk => (TokenStream.shown_isEof hp k).mpr hk) (Nat.zero_le _)
    have hnext : r.2 = (g.prepared s).upcoming.length := Nat.le_antisymm hwithin hbehind
    rw [hnext] at hd
    refine ⟨d, hd, ?_, htree⟩
    have htokens : tokensOf [d] = d.tokens := List.append_nil _
    obtain ⟨hreads, hlen⟩ := hd.reads
    rw [htokens, Nat.zero_add] at hlen
    rw [htokens, reads_iff] at hreads
    refine List.ext_getElem hlen.symm fun i hi hi' => ?_
    have hi := hreads i hi
    rw [Nat.zero_add, TokenStream.shown, List.getElem?_eq_getElem hi'] at hi
    exact hi.symm

theorem errorOf_ne_diverged {σ : Type} (look : Lookahead σ) {stop : Stop} (h : stop ≠ .diverged)
    (p : Progress σ) : (errorOf look stop p).1 ≠ .diverged := by
  cases stop with
  | lexical e => simp [errorOf]
  | diverged => exact absurd rfl h
  | mismatch =>
    unfold errorOf
    dsimp only
    cases look p.frontier.position p.source <;> simp

/-- Where no rule leads back to itself, every parse comes to its end. -/
theorem Acyclic.parse_ends (hacyclic : g.Acyclic) (hs : s.Classified) {e : ParseError}
    (h : g.parse s = .error e s') : e ≠ .diverged := by
  have hp := prepared_classified (g := g) hs
  have hshows : Shows _ TokenStream.peek (g.prepared s).shown (· ≠ .diverged) :=
    (TokenStream.shows_peek hp).mono fun e hfault => by
      obtain ⟨l, -, rfl⟩ := hfault
      simp
  have hends := ends_of_depthFor hacyclic hshows
    (fun k hk => (TokenStream.shown_isEof hp k).mpr hk) g.entry
    (Nat.le_trans (TokenStream.length_upcoming _) (Nat.le_of_eq (g.size_prepared s)))
  have hall := matchAll_ends hshows hends ⟨g.prepared s, .start⟩ ⟨[], .refl _⟩
  cases hm : g.matchAll TokenStream.peek (g.depthFor s.size) ⟨g.prepared s, .start⟩ with
  | ok r p =>
    rw [parse_of_ok hm] at h
    cases h
  | error stop p =>
    rw [hm] at hall
    unfold prepared at hm
    simp only [parse, hm] at h
    cases h
    exact errorOf_ne_diverged _ hall.2 p

/-- If no line to come is faulty, a match of exactly the upcoming tokens gives a tree. -/
theorem parse_succeeds (hs : s.Classified) (hfaults : s.faults = [])
    (hmatch : Ensures (fun s' => ∃ es, TokenStream.Pulls (g.prepared s) es s')
      (g.matchRule TokenStream.peek (g.depthFor s.size) g.entry 0)
      (fun m => m.next = (g.prepared s).upcoming.length) (fun _ => False)) :
    ∃ tree s', g.parse s = .ok tree s' := by
  have hp := prepared_classified (g := g) hs
  have hnofault : (g.prepared s).faults = [] :=
    (TokenStream.reserveAll_spec hs _).2.2.1.trans hfaults
  have hshows : Shows _ TokenStream.peek (g.prepared s).shown (fun _ => False) :=
    (TokenStream.shows_peek hp).mono fun e hfault => by
      obtain ⟨l, hl, -⟩ := hfault
      rw [hnofault] at hl
      cases hl
  have hall := matchAll_ok hshows hmatch ((TokenStream.shown_isEof hp _).mpr (Nat.le_refl _))
    ⟨g.prepared s, .start⟩ ⟨[], .refl _⟩
  cases hm : g.matchAll TokenStream.peek (g.depthFor s.size) ⟨g.prepared s, .start⟩ with
  | error stop p =>
    rw [hm] at hall
    exact hall.2.elim
  | ok r p => exact ⟨r.1, p.source.advance r.2, parse_of_ok hm⟩

end
end Grammar
end HandlerGrammar
