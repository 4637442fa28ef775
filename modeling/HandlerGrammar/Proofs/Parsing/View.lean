import HandlerGrammar.Proofs.Matching.Parsing
import HandlerGrammar.Proofs.Stream.View
import Mathlib.Data.List.Sort

/-! # Parsing by the view alone

A parse looks ahead as far as it needs, pulls lines meanwhile and reserves and releases keywords.
None of this shows: its outcome is the parse of the preview, in which all tokens are there from the
start, and it changes the view in one of three ways. A parse that succeeds takes all there is and
leaves the keywords reserved, one that fails by a lexical error passes over the line that was met,
and one that fails otherwise leaves the view as it was.

* `View.parse`: the outcome and the view behind it, from the view alone;
* `alongside`: a match on a stream in lockstep with one on the preview;
* `view_parse`: parsing a stream is parsing its view;
* `left_by_ok`, `left_by_mismatch`, `left_by_lexical`: the view behind a parse. -/
namespace HandlerGrammar
set_option autoImplicit false

/-! ## Reserving and releasing keywords -/

namespace WordSet

theorem ext_contains {s t : WordSet} (h : ∀ w, s.contains w = t.contains w) : s = t := by
  have hmem : ∀ w, w ∈ s.words ↔ w ∈ t.words := by
    intro w
    have hw := h w
    rw [contains, contains, Bool.eq_iff_iff, List.contains_iff_mem, List.contains_iff_mem] at hw
    exact hw
  have hirrefl : Std.Irrefl (α := String) (· < ·) := ⟨String.lt_irrefl⟩
  have hasymm : Std.Antisymm (α := String) (· < ·) :=
    ⟨fun a _ hab hba => absurd (String.lt_trans hab hba) (String.lt_irrefl a)⟩
  have hwords : s.words = t.words := s.ascending.eq_of_mem_iff t.ascending hmem
  cases s
  cases t
  cases hwords
  rfl

theorem contains_foldl_erase (ws : List String) (s : WordSet) (x : String) :
    (ws.foldl erase s).contains x = (!ws.contains x && s.contains x) := by
  induction ws generalizing s with
  | nil => rfl
  | cons w ws ih =>
    rw [List.foldl_cons, ih, contains_erase, List.contains_cons]
    cases hx : x == w <;> simp [bne, hx]

/-- Erasing the words that were inserted gives the set back, if it held none of them. -/
theorem foldl_erase_insertAll {s : WordSet} {ws : List String}
    (h : ∀ w ∈ ws, s.contains w = false) : ws.foldl erase (s.insertAll ws) = s := by
  refine ext_contains fun x => ?_
  rw [contains_foldl_erase, contains_insertAll]
  by_cases hx : x ∈ ws
  · rw [h x hx, List.contains_iff_mem.mpr hx]
    rfl
  · have hnot : ws.contains x = false := by simpa using hx
    rw [hnot]
    rfl

end WordSet

/-- A parse of a preview meets no lexical error but one that there is to see. -/
theorem Grammar.exists_error_of_parsePreview {g : Grammar} {depth : Nat} {v : Preview} {e : LexError}
    (h : g.parsePreview depth v = .error (.lexical e)) : ∃ k, v k = .error e := by
  have hshows : Shows (fun _ => True) v.look (fun k => (v k).toOption.getD (.eof 1))
      fun stop => ∀ e, stop = .lexical e → ∃ k, v k = .error e := by
    intro k p _
    rw [Preview.tokenAt_look]
    cases hk : v k with
    | ok t =>
      have ht : (v k).toOption.getD (.eof 1) = t := by rw [hk]; rfl
      exact ⟨trivial, ht.symm⟩
    | error e' =>
      refine ⟨trivial, fun e he => ?_⟩
      cases he
      exact ⟨k, hk⟩
  have hall := matchAll_derives (g := g) hshows (fun _ he => by cases he) (fun _ he => by cases he)
    depth ⟨(), .start⟩ trivial
  unfold parsePreview at h
  cases hm : g.matchAll v.look depth ⟨(), .start⟩ with
  | ok r p => rw [hm] at h; cases h
  | error stop p =>
    rw [hm] at h hall
    cases stop with
    | lexical e' => cases h; exact hall.2 e rfl
    | diverged => cases h
    | mismatch =>
      simp only [errorOf, Preview.look] at h
      cases hk : v p.frontier.position with
      | ok t => rw [hk] at h; cases h
      | error e' => rw [hk] at h; cases h; exact ⟨_, hk⟩

namespace View

/-- The view with the keywords of a grammar reserved. -/
def reserving (v : View) (g : Grammar) : View :=
  { v with reserved := v.reserved.insertAll (g.keywords.words.filter (!v.isReserved ·)) }

/-- The outcome of a parse and the view behind it. -/
def parse (v : View) (g : Grammar) : Except ParseError ParseTree × View :=
  match g.parsePreview (g.depthFor v.scanned.length) (v.reserving g).preview with
  | .ok tree => (.ok tree, { v.reserving g with events := [] })
  | .error (.lexical e) => (.error (.lexical e), v.passFault)
  | .error e => (.error e, v)

theorem parse_fst (v : View) (g : Grammar) : (v.parse g).1 =
    g.parsePreview (g.depthFor v.scanned.length) (v.reserving g).preview := by
  unfold parse
  split <;> rename_i hp <;> exact hp.symm

theorem parse_ok {v v' : View} {g : Grammar} {tree : ParseTree} (h : v.parse g = (.ok tree, v')) :
    v' = { v.reserving g with events := [] } := by
  unfold parse at h
  split at h <;> cases h
  rfl

theorem parse_mismatch {v v' : View} {g : Grammar} {t : Token} {expected : List String}
    (h : v.parse g = (.error (.mismatch t expected), v')) : v' = v := by
  unfold parse at h
  split at h <;> cases h
  rfl

theorem parse_lexical {v v' : View} {g : Grammar} {e : LexError}
    (h : v.parse g = (.error (.lexical e), v')) : v' = v.passFault ∧ v.faults = e :: v'.faults := by
  unfold parse at h
  split at h
  · cases h
  · next hp =>
    cases h
    obtain ⟨k, hk⟩ := Grammar.exists_error_of_parsePreview hp
    exact ⟨rfl, faults_of_preview_error (v := v.reserving g) hk⟩
  · next hne _ =>
    cases h
    exact absurd rfl (hne e)

end View

namespace TokenStream

theorem view_reserveAll {s : TokenStream} (hs : s.Classified) (words : List String) :
    (s.reserveAll words).view =
      { s.view with reserved := s.view.reserved.insertAll words } := by
  induction words generalizing s with
  | nil => rfl
  | cons word words ih =>
    have hrest := ih (classified_reserve hs word)
    rw [view_reserve hs] at hrest
    exact hrest

theorem view_releaseAll (s : TokenStream) (words : List String) :
    (s.releaseAll words).view =
      { s.view with reserved := words.foldl WordSet.erase s.view.reserved } := by
  induction words generalizing s with
  | nil => rfl
  | cons word words ih =>
    have hrest := ih (s.release word)
    rw [view_release] at hrest
    exact hrest

theorem classified_releaseAll {s : TokenStream} (hs : s.Classified) (words : List String) :
    (s.releaseAll words).Classified := by
  induction words generalizing s with
  | nil => exact hs
  | cons word words ih => exact ih (classified_release hs word)

theorem view_prepared (g : Grammar) {s : TokenStream} (hs : s.Classified) :
    (g.prepared s).view = s.view.reserving g :=
  view_reserveAll hs _

theorem isReserved_reserving (g : Grammar) {s : TokenStream} (hs : s.Classified) :
    (s.view.reserving g).isReserved = fun w => s.isReserved w || g.keywords.contains w := by
  funext w
  rw [← view_prepared g hs, view_isReserved, Grammar.isReserved_prepared hs]

/-- A stream that has got the keywords of a parse reserved gives them back. -/
theorem view_released (g : Grammar) {s s' : TokenStream} {events : List Event}
    (h : s'.view = { s.view.reserving g with events }) :
    (s'.releaseAll (g.keywords.words.filter (!s.isReserved ·))).view = { s.view with events } := by
  rw [view_releaseAll, h]
  refine View.ext rfl ?_ rfl rfl
  refine WordSet.foldl_erase_insertAll fun w hw => ?_
  have hfree := (List.mem_filter.mp hw).2
  simp only [view_isReserved, isReserved, Bool.not_eq_true', Bool.or_eq_false_iff] at hfree
  exact hfree.2

end TokenStream

/-! ## A match on a stream beside one on the preview -/

/-- The stream is always one with the view `v`, or with the view behind the error met. -/
def alongside (v : View) : Pairing TokenStream Unit where
  together p p' := p.source.view = v ∧ p.source.Classified ∧ p.frontier = p'.frontier
  stopped _ p _ := p.source.view = v.passFault ∧ p.source.Classified
  lenient := False

theorem paired_alongside (v : View) :
    Paired (alongside v) TokenStream.peek v.preview.look v.scanned.length where
  expect pos what hp := ⟨hp.1, hp.2.1, by rw [hp.2.2]⟩
  token pos := by
    rintro p p' ⟨rfl, hs, hfrontier⟩
    rw [Preview.tokenAt_look]
    unfold tokenAt
    cases h : TokenStream.peek pos p.source with
    | ok t s' =>
      obtain ⟨hpreview, hview, hs'⟩ := TokenStream.peek_ok_view hs h
      rw [hpreview]
      exact .result (fun x hx => (View.endsBy_preview _).lt_of_accepts hpreview hx)
        ⟨hview, hs', hfrontier⟩
    | error e s' =>
      obtain ⟨hpreview, hview, hs'⟩ := TokenStream.peek_error_view hs h
      rw [hpreview]
      exact .lexical ⟨hview, hs'⟩

namespace Grammar

variable {g : Grammar}

theorem follows_alongside (g : Grammar) (v : View) (depth : Nat) :
    Follows (alongside v) (g.matchAll TokenStream.peek depth) (g.matchAll v.preview.look depth)
      fun _ => True :=
  follows_matchAll (paired_alongside v)
    (follows_matchRule (paired_alongside v) (Or.inl rfl) g.entry (Nat.zero_le _))

theorem bind_ok {σ α β : Type} {m : Match σ α} {f : α → Match σ β} {p p' : Progress σ} {b : β}
    (h : (m >>= f) p = .ok b p') : ∃ a q, m p = .ok a q ∧ f a q = .ok b p' := by
  change EStateM.bind m f p = .ok b p' at h
  unfold EStateM.bind at h
  cases hm : m p with
  | ok a q =>
    rw [hm] at h
    exact ⟨a, q, rfl, h⟩
  | error e q =>
    rw [hm] at h
    cases h

/-- A match of all tokens ends by seeing the end of input behind them. -/
theorem eof_of_matchAll_ok {σ : Type} {look : Lookahead σ} {depth : Nat} {p p' : Progress σ}
    {r : ParseTree × Nat} (h : g.matchAll look depth p = .ok r p') :
    ∃ m p₁ last p₂ first, g.matchRule look depth g.entry 0 p = .ok m p₁ ∧
      tokenAt look r.2 p₁ = .ok last p₂ ∧ last.isEof = true ∧ tokenAt look 0 p₂ = .ok first p' := by
  obtain ⟨m, p₁, hm, h⟩ := bind_ok h
  obtain ⟨last, p₂, hlast, h⟩ := bind_ok h
  split at h
  · next heof =>
    obtain ⟨first, p₃, hfirst, h⟩ := bind_ok h
    cases h
    exact ⟨m, p₁, last, p₂, first, hm, hlast, heof, hfirst⟩
  · obtain ⟨_, _, _, h⟩ := bind_ok h
    cases h

theorem tokenAt_peek_ok {pos : Nat} {t : Token} {p p' : Progress TokenStream}
    (h : tokenAt TokenStream.peek pos p = .ok t p') :
    TokenStream.peek pos p.source = .ok t p'.source := by
  unfold tokenAt at h
  cases hp : TokenStream.peek pos p.source with
  | ok u s => rw [hp] at h; cases h; rfl
  | error e s => rw [hp] at h; cases h

end Grammar

namespace TokenStream

/-- Where the end of input is seen, no line is left and no token stands behind. -/
theorem peek_eof {k : Nat} {s s' : TokenStream} {t : Token} (hs : s.Classified)
    (h : peek k s = .ok t s') (ht : t.isEof = true) : s'.unread = [] ∧ s'.buffer.length ≤ k := by
  obtain ⟨htoken, henough⟩ := peek_enough h
  have hlen : s'.buffer.length ≤ k := by
    by_contra hlt
    have hk : k < s'.buffer.length := Nat.lt_of_not_le hlt
    have hne := not_eof_of_classified (peek_ok_view hs h).2.2 _ (List.getElem_mem hk)
    rw [htoken, tokenAt, List.getElem?_eq_getElem hk, Option.getD_some, hne] at ht
    cases ht
  exact ⟨henough.resolve_left (Nat.not_lt_of_le hlen), hlen⟩

end TokenStream

namespace Grammar

variable {g : Grammar}

/-- A match of all tokens is one of all lines, and passing over these tokens leaves nothing to
come. -/
theorem view_advance {v : View} {depth : Nat} {p p' : Progress TokenStream} {r : ParseTree × Nat}
    (hp : p.source.view = v) (hs : p.source.Classified)
    (h : g.matchAll TokenStream.peek depth p = .ok r p') :
    v.faults = [] ∧ (p'.source.advance r.2).view = { v with events := [] } ∧
      (p'.source.advance r.2).Classified := by
  obtain ⟨m, p₁, last, p₂, first, hrule, hlast, heof, hfirst⟩ := eof_of_matchAll_ok h
  have hfollows := follows_matchRule (g := g) (paired_alongside v) (Or.inl (rfl : depth = depth))
    g.entry (Nat.zero_le _) p ⟨(), p.frontier⟩ ⟨hp, hs, rfl⟩
  rw [hrule] at hfollows
  obtain ⟨hview, hs₁⟩ : p₁.source.view = v ∧ p₁.source.Classified := by
    generalize g.matchRule v.preview.look depth g.entry 0 ⟨(), p.frontier⟩ = r' at hfollows
    cases hfollows with
    | result _ h => exact ⟨h.1, h.2.1⟩
  have hpeek := tokenAt_peek_ok hlast
  have hview₂ : p₂.source.view = v := (TokenStream.peek_ok_view hs₁ hpeek).2.1.trans hview
  obtain ⟨hunread, hlen⟩ := TokenStream.peek_eof hs₁ hpeek heof
  -- with no line left, the look back at the first token pulls nothing
  have hsame : p'.source = p₂.source := by
    have hzero := tokenAt_peek_ok hfirst
    rw [TokenStream.peek_of_enough (Or.inr hunread)] at hzero
    exact (EStateM.Result.ok.inj hzero).2.symm
  have hdrop : p'.source.advance r.2 = { p₂.source with buffer := [] } := by
    rw [hsame, TokenStream.advance, List.drop_eq_nil_of_le hlen]
  rw [hdrop, TokenStream.view_empty hunread, hview₂]
  refine ⟨?_, rfl, fun t ht => absurd ht List.not_mem_nil⟩
  rw [← hview₂, TokenStream.faults_view, TokenStream.faults, TokenStream.ahead_nil hunread]
  rfl

/-! ## The outcome of a parse -/

/-- The outcome of a parse with the stream that it leaves. -/
def outcome (g : Grammar) (s : TokenStream) : Except ParseError ParseTree × TokenStream :=
  match g.parse s with
  | .ok tree s' => (.ok tree, s')
  | .error e s' => (.error e, s')

theorem outcome_of_parse_ok {s s' : TokenStream} {tree : ParseTree} (h : g.parse s = .ok tree s') :
    g.outcome s = (.ok tree, s') := by
  rw [outcome, h]

theorem outcome_of_parse_error {s s' : TokenStream} {e : ParseError} (h : g.parse s = .error e s') :
    g.outcome s = (.error e, s') := by
  rw [outcome, h]

theorem parse_of_outcome_ok {s : TokenStream} {tree : ParseTree} (h : (g.outcome s).1 = .ok tree) :
    g.parse s = .ok tree (g.outcome s).2 := by
  unfold outcome at h ⊢
  cases hp : g.parse s with
  | ok tree' s' => rw [hp] at h; cases h; rfl
  | error e s' => rw [hp] at h; cases h

theorem parse_of_outcome_error {s : TokenStream} {e : ParseError} (h : (g.outcome s).1 = .error e) :
    g.parse s = .error e (g.outcome s).2 := by
  unfold outcome at h ⊢
  cases hp : g.parse s with
  | ok tree s' => rw [hp] at h; cases h
  | error e' s' => rw [hp] at h; cases h; rfl

theorem parse_of_isOk {s : TokenStream} (h : (g.outcome s).1.isOk = true) :
    ∃ tree, g.parse s = .ok tree (g.outcome s).2 := by
  cases hout : (g.outcome s).1 with
  | ok tree => exact ⟨tree, parse_of_outcome_ok hout⟩
  | error e =>
    rw [hout] at h
    cases h

theorem parse_of_map_error {s : TokenStream} {e : ParseError}
    (h : (g.outcome s).1.map (fun _ => ()) = .error e) :
    g.parse s = .error e (g.outcome s).2 := by
  refine parse_of_outcome_error ?_
  cases hout : (g.outcome s).1 with
  | ok tree =>
    rw [hout] at h
    cases h
  | error e' =>
    rw [hout] at h
    cases h
    rfl

theorem outcome_of_ok {s : TokenStream} {r : ParseTree × Nat} {p : Progress TokenStream}
    (h : g.matchAll TokenStream.peek (g.depthFor s.size) ⟨g.prepared s, .start⟩ = .ok r p) :
    g.outcome s = (.ok r.1, p.source.advance r.2) := by
  rw [outcome, parse_of_ok h]

theorem outcome_of_error {s : TokenStream} {stop : Stop} {p : Progress TokenStream}
    (h : g.matchAll TokenStream.peek (g.depthFor s.size) ⟨g.prepared s, .start⟩ = .error stop p) :
    g.outcome s = (.error (errorOf TokenStream.peek stop p).1,
      (errorOf TokenStream.peek stop p).2.releaseAll
        (g.keywords.words.filter (!s.isReserved ·))) := by
  unfold prepared at h
  simp only [outcome, parse, h]

/-- A refused match reads its error off the preview, or meets that of a line in doing so. -/
theorem errorOf_alongside {v : View} {p : Progress TokenStream} {p' : Progress Unit}
    (h : (alongside v).together p p') :
    (errorOf TokenStream.peek .mismatch p).1 = (errorOf v.preview.look .mismatch p').1 ∧
      (errorOf TokenStream.peek .mismatch p).2.Classified ∧
      ((∃ t expected, (errorOf TokenStream.peek .mismatch p).1 = .mismatch t expected ∧
          (errorOf TokenStream.peek .mismatch p).2.view = v) ∨
        ∃ e, (errorOf TokenStream.peek .mismatch p).1 = .lexical e ∧
          (errorOf TokenStream.peek .mismatch p).2.view = v.passFault) := by
  obtain ⟨rfl, hs, hfrontier⟩ := h
  unfold errorOf Preview.look
  dsimp only
  rw [← hfrontier]
  cases hpeek : TokenStream.peek p.frontier.position p.source with
  | ok t s' =>
    obtain ⟨hpreview, hview, hs'⟩ := TokenStream.peek_ok_view hs hpeek
    rw [hpreview]
    exact ⟨rfl, hs', Or.inl ⟨t, _, rfl, hview⟩⟩
  | error e s' =>
    obtain ⟨hpreview, hview, hs'⟩ := TokenStream.peek_error_view hs hpeek
    rw [hpreview]
    exact ⟨rfl, hs', Or.inr ⟨e, rfl, hview⟩⟩

/-- A parse succeeds only if all lines scan. -/
theorem faults_of_outcome_ok {s : TokenStream} (hs : s.Classified) {tree : ParseTree}
    (h : (g.outcome s).1 = .ok tree) : s.faults = [] := by
  cases hm : g.matchAll TokenStream.peek (g.depthFor s.size) ⟨g.prepared s, .start⟩ with
  | ok r p =>
    have hfaults := (view_advance (TokenStream.view_prepared g hs) (prepared_classified hs) hm).1
    rw [← TokenStream.faults_view]
    exact hfaults
  | error stop p =>
    rw [outcome_of_error hm] at h
    cases h

/-- The outcome of a parse and the view of the stream that it leaves depend on the view alone. -/
theorem view_parse (g : Grammar) {s : TokenStream} (hs : s.Classified) :
    ((g.outcome s).1, (g.outcome s).2.view) = s.view.parse g ∧ (g.outcome s).2.Classified := by
  have hview := TokenStream.view_prepared g hs
  have hstart : (alongside (s.view.reserving g)).together ⟨g.prepared s, .start⟩ ⟨(), .start⟩ :=
    ⟨hview, prepared_classified hs, rfl⟩
  have halike := follows_alongside g (s.view.reserving g) (g.depthFor s.size) _ _ hstart
  have hsize : s.view.scanned.length ≤ s.size := by
    have hlen := s.length_upcoming
    rwa [TokenStream.upcoming, List.length_map, ← TokenStream.scanned_view] at hlen
  have hdepth : g.parsePreview (g.depthFor s.view.scanned.length) (s.view.reserving g).preview =
      g.parsePreview (g.depthFor s.size) (s.view.reserving g).preview :=
    parsePreview_depthFor (View.endsBy_preview (s.view.reserving g)) (Nat.le_refl _)
      (g.depthFor_mono hsize)
  -- the stream may hold fewer tokens than its size allows, hence the two depths
  rw [View.parse, hdepth, parsePreview]
  generalize hm : g.matchAll TokenStream.peek (g.depthFor s.size) ⟨g.prepared s, .start⟩ = r,
    g.matchAll (s.view.reserving g).preview.look (g.depthFor s.size) ⟨(), .start⟩ = r' at halike ⊢
  cases halike with
  | result _ hp =>
    obtain ⟨-, hempty, hs'⟩ := view_advance hview (prepared_classified hs) hm
    rw [outcome_of_ok hm, hempty]
    exact ⟨rfl, hs'⟩
  | refused hp =>
    rw [outcome_of_error hm]
    obtain ⟨hsame, hs', hend⟩ := errorOf_alongside hp
    refine ⟨?_, TokenStream.classified_releaseAll hs' _⟩
    obtain ⟨t, expected, hmismatch, hview'⟩ | ⟨e, hlexical, hview'⟩ := hend
    · dsimp only
      rw [TokenStream.view_released g hview', ← hsame, hmismatch]
    · dsimp only
      rw [TokenStream.view_released g hview', ← hsame, hlexical]
      rfl
  | lexical hp =>
    rw [outcome_of_error hm]
    exact ⟨congrArg _ (TokenStream.view_released g hp.1), TokenStream.classified_releaseAll hp.2 _⟩
  | diverged hp =>
    rw [outcome_of_error hm]
    exact ⟨congrArg _ (TokenStream.view_released g hp.1), TokenStream.classified_releaseAll hp.2.1 _⟩
  | excused hl => exact hl.elim

/-! ## What a parse leaves -/

section
variable {s s' : TokenStream}

theorem left_by_ok (hs : s.Classified) {tree : ParseTree} (h : g.parse s = .ok tree s') :
    s'.Classified ∧ s'.view = { s.view.reserving g with events := [] } := by
  obtain ⟨hview, hs'⟩ := g.view_parse hs
  rw [outcome_of_parse_ok h] at hview hs'
  exact ⟨hs', View.parse_ok hview.symm⟩

theorem left_by_mismatch (hs : s.Classified) {t : Token} {expected : List String}
    (h : g.parse s = .error (.mismatch t expected) s') : s'.Classified ∧ s'.view = s.view := by
  obtain ⟨hview, hs'⟩ := g.view_parse hs
  rw [outcome_of_parse_error h] at hview hs'
  exact ⟨hs', View.parse_mismatch hview.symm⟩

theorem left_by_lexical (hs : s.Classified) {e : LexError}
    (h : g.parse s = .error (.lexical e) s') :
    s'.Classified ∧ s'.view = s.view.passFault ∧ s.faults = e :: s'.faults := by
  obtain ⟨hview, hs'⟩ := g.view_parse hs
  rw [outcome_of_parse_error h] at hview hs'
  obtain ⟨hpass, hfaults⟩ := View.parse_lexical hview.symm
  rw [TokenStream.faults_view, TokenStream.faults_view] at hfaults
  exact ⟨hs', hpass, hfaults⟩

end

end Grammar
end HandlerGrammar
