import HandlerGrammar.Proofs.Matching.Depth
import HandlerGrammar.Proofs.Stream.Delivery
import HandlerGrammar.Proofs.Stream.Lookahead

/-! # What a stream amounts to

How many lines a stream has pulled, and which of its tokens wait in the buffer, shows in no answer.
All that shows is its view: the words reserved, the tokens and errors to come in their order, and
the number of the last line. Looking ahead leaves the view as it is, and a line that does not scan
is passed over as its error is met.

* `View`, `TokenStream.view`: what shows of a stream;
* `View.preview`: what there is to see at each position;
* `view_of_fillFrom_ok`, `view_of_fillFrom_error`: pulling lines leaves the view as it is, up to the
  error met;
* `View.run`, `view_run`: each call answers by the view alone. -/
namespace HandlerGrammar
open Text
set_option autoImplicit false

/-- What comes next in a source: a token that no reserved word has touched, or the error of a line
that does not scan. -/
abbrev Event := Except LexError Token

namespace Event

/-- What a line gives. -/
def ofLine : Except LexError (List Token) → List Event
  | .ok ts => ts.map .ok
  | .error e => [.error e]

def fault? : Event → Option LexError
  | .error e => some e
  | .ok _ => none

/-- The token at a position, the error that comes before it, or the end of input. -/
def nth (eof : Token) : List Event → Nat → Event
  | [], _ => .ok eof
  | .error e :: _, _ => .error e
  | .ok t :: _, 0 => .ok t
  | .ok _ :: es, k + 1 => Event.nth eof es k

theorem nth_append_left (eof : Token) {ts : List Token} (es : List Event) {k : Nat}
    (h : k < ts.length) : Event.nth eof (ts.map Except.ok ++ es) k = .ok ts[k] := by
  induction ts generalizing k with
  | nil => exact absurd h (Nat.not_lt_zero k)
  | cons t ts ih =>
    cases k with
    | zero => rfl
    | succ k => exact ih (Nat.lt_of_succ_lt_succ h)

theorem nth_append_right (eof : Token) {ts : List Token} (es : List Event) {k : Nat}
    (h : ts.length ≤ k) : Event.nth eof (ts.map Except.ok ++ es) k = Event.nth eof es (k - ts.length) := by
  induction ts generalizing k with
  | nil => rfl
  | cons t ts ih =>
    cases k with
    | zero => exact absurd h (Nat.not_succ_le_zero _)
    | succ k =>
      rw [List.length_cons, Nat.succ_sub_succ]
      exact ih (Nat.le_of_succ_le_succ h)

theorem nth_of_no_fault (eof : Token) {es : List Event} (h : es.filterMap fault? = []) (k : Nat) :
    Event.nth eof es k = .ok ((es.filterMap Except.toOption)[k]?.getD eof) := by
  induction es generalizing k with
  | nil => rfl
  | cons event es ih =>
    cases event with
    | error e => cases h
    | ok t =>
      cases k with
      | zero => rfl
      | succ k => exact ih h k

/-- An error that is seen from a position is the first one. -/
theorem fault_of_nth {eof : Token} {es : List Event} {k : Nat} {e : LexError}
    (h : Event.nth eof es k = .error e) :
    es.filterMap fault? = e :: (es.eraseP (!·.isOk)).filterMap fault? := by
  induction es generalizing k with
  | nil => cases h
  | cons event es ih =>
    cases event with
    | error e' => cases h; rfl
    | ok t =>
      cases k with
      | zero => cases h
      | succ k => exact ih h

theorem eraseP_append (ts : List Token) (e : LexError) (es : List Event) :
    (ts.map Except.ok ++ .error e :: es : List Event).eraseP (!·.isOk) = ts.map .ok ++ es := by
  rw [List.eraseP_append_right, List.eraseP_cons_of_pos rfl]
  intro event h
  obtain ⟨t, -, rfl⟩ := List.mem_map.mp h
  exact Bool.false_ne_true

end Event

/-- What shows of a stream. -/
@[ext] structure View where
  vocabulary : Vocabulary
  reserved : WordSet
  events : List Event
  lastLine : Nat

namespace View

def isReserved (v : View) (word : String) : Bool :=
  v.vocabulary.isReserved word || v.reserved.contains word

def eof (v : View) : Token := .eof (max v.lastLine 1)

/-- The tokens to come, those behind errors among them. -/
def scanned (v : View) : List Token := v.events.filterMap Except.toOption

/-- The errors to come. -/
def faults (v : View) : List LexError := v.events.filterMap Event.fault?

/-- What there is to see at each position, classified by the words reserved now. -/
def preview (v : View) : Preview := fun k =>
  (Event.nth v.eof v.events k).map (Token.reserve v.isReserved)

/-- The view behind the first error. -/
def passFault (v : View) : View := { v with events := v.events.eraseP (!·.isOk) }

/-- The answer to a call and the view after it. -/
def run : Call → View → Reply × View
  | .read, v =>
    match v.preview 0 with
    | .ok t => (.token t, { v with events := v.events.tail })
    | .error e => (.failed e, v.passFault)
  | .peek k, v =>
    match v.preview k with
    | .ok t => (.token t, v)
    | .error e => (.failed e, v.passFault)
  | .tokens, v =>
    match v.preview v.events.length with
    | .ok _ => (.tokens (v.scanned.map (Token.reserve v.isReserved)), { v with events := [] })
    | .error e => (.failed e, v.passFault)
  | .reserve w, v => (.done, { v with reserved := v.reserved.insert w })
  | .release w, v => (.done, { v with reserved := v.reserved.erase w })

theorem endsBy_preview (v : View) : v.preview.EndsBy v.scanned.length := by
  have h : ∀ (es : List Event) (k : Nat) (t : Token), (es.filterMap Except.toOption).length ≤ k →
      Event.nth v.eof es k = .ok t → t = v.eof := by
    intro es
    induction es with
    | nil => exact fun k t _ h => (Except.ok.inj h).symm
    | cons event es ih =>
      intro k t hk ht
      cases event with
      | error e => cases ht
      | ok u =>
        cases k with
        | zero => exact absurd hk (Nat.not_succ_le_zero _)
        | succ k => exact ih k t (Nat.le_of_succ_le_succ hk) ht
  intro k t hk ht
  unfold preview at ht
  cases hat : Event.nth v.eof v.events k with
  | error e => rw [hat] at ht; cases ht
  | ok u =>
    rw [hat] at ht
    cases ht
    rw [h v.events k u hk hat]
    rfl

/-- Without errors to come there are just the tokens, and the end of input behind them. -/
theorem preview_of_no_fault {v : View} (h : v.faults = []) :
    v.preview = Preview.ofList (v.scanned.map (Token.reserve v.isReserved)) v.eof := by
  funext k
  rw [preview, Event.nth_of_no_fault v.eof h, Preview.ofList, List.getElem?_map, ← scanned]
  cases v.scanned[k]? <;> rfl

theorem faults_of_preview_error {v : View} {k : Nat} {e : LexError}
    (h : v.preview k = .error e) : v.faults = e :: v.passFault.faults := by
  unfold preview at h
  cases hat : Event.nth v.eof v.events k with
  | error e' =>
    rw [hat] at h
    cases h
    exact Event.fault_of_nth hat
  | ok t =>
    rw [hat] at h
    cases h

theorem scanned_passFault (v : View) : v.passFault.scanned = v.scanned := by
  unfold scanned passFault
  dsimp only
  induction v.events with
  | nil => rfl
  | cons event es ih =>
    cases event with
    | error e => rfl
    | ok t => exact congrArg (t :: ·) ih

end View

namespace TokenStream

/-- The tokens in the buffer as they were scanned. -/
def plain (s : TokenStream) : List Token := s.buffer.map Token.lexical

def view (s : TokenStream) : View where
  vocabulary := s.vocabulary
  reserved := s.reserved
  events := s.plain.map .ok ++ s.ahead.flatMap Event.ofLine
  lastLine := s.lastLine

@[simp] theorem view_isReserved (s : TokenStream) : s.view.isReserved = s.isReserved := rfl

/-- The tokens to come are those that a stream has still to deliver. -/
theorem scanned_view (s : TokenStream) : s.view.scanned = s.pending := by
  have hlines : ∀ rs : List (Except LexError (List Token)),
      (rs.flatMap Event.ofLine).filterMap Except.toOption = scannedTokens rs := by
    intro rs
    induction rs with
    | nil => rfl
    | cons r rs ih =>
      rw [List.flatMap_cons, List.filterMap_append, ih]
      cases r with
      | error e => rfl
      | ok ts =>
        change ((ts.map Except.ok).filterMap Except.toOption : List Token) ++ _ = ts ++ _
        rw [List.filterMap_map]
        exact congrArg (· ++ _) List.filterMap_some
  rw [View.scanned, view, List.filterMap_append, hlines, List.filterMap_map]
  exact congrArg (· ++ _) List.filterMap_some

/-- The errors to come are those that a stream has still to meet. -/
theorem faults_view (s : TokenStream) : s.view.faults = s.faults := by
  have htokens : ∀ ts : List Token,
      (ts.map Except.ok : List Event).filterMap Event.fault? = [] := by
    intro ts
    induction ts with
    | nil => rfl
    | cons t ts ih => exact ih
  have hlines : ∀ rs : List (Except LexError (List Token)),
      (rs.flatMap Event.ofLine).filterMap Event.fault? = scanErrors rs := by
    intro rs
    induction rs with
    | nil => rfl
    | cons r rs ih =>
      rw [List.flatMap_cons, List.filterMap_append, ih]
      cases r with
      | error e => rfl
      | ok ts => rw [Event.ofLine, htokens]; rfl
  rw [View.faults, view, List.filterMap_append, htokens, hlines]
  rfl

theorem plain_reserve {s : TokenStream} (hs : s.Classified) :
    s.plain.map (Token.reserve s.isReserved) = s.buffer := by
  rw [plain, List.map_map]
  refine (List.map_congr_left fun t ht => ?_).trans (List.map_id s.buffer)
  obtain ⟨plain, hplain, rfl⟩ := hs t ht
  exact congrArg _ (Token.lexical_reserve hplain)

/-! ## Pulling lines -/

theorem ahead_nil {s : TokenStream} (h : s.unread = []) : s.ahead = [] := by
  rw [ahead, h]
  rfl

theorem ahead_undecodable {s : TokenStream} {rest : List SourceLine}
    (h : s.unread = .undecodable :: rest) : s.ahead =
      .error (.undecodable (s.line + 1)) :: readings s.vocabulary.isIgnored s.line rest := by
  rw [ahead, h]
  rfl

theorem ahead_text {s : TokenStream} {chars : List Char} {rest : List SourceLine}
    (h : s.unread = .text chars :: rest) : s.ahead =
      lineTokens s.vocabulary.isIgnored (s.line + 1) chars ::
        readings s.vocabulary.isIgnored (s.line + 1) rest := by
  rw [ahead, h]
  rfl

theorem view_of_pull_ok {s s' : TokenStream} (h : pull s = .ok () s') : s'.view = s.view := by
  have hlast := (pulls_pull s).lastLine
  rw [h] at hlast
  unfold pull at h
  split at h
  · cases h
    rfl
  · cases h
  · next chars rest hu =>
    dsimp only at h
    split at h
    · cases h
    · next tokens htokens =>
      cases h
      refine View.ext rfl rfl ?_ hlast
      have hplain := lineTokens_isPlain htokens
      have hlexical : (tokens.map (Token.reserve s.isReserved)).map Token.lexical = tokens := by
        rw [List.map_map]
        exact (List.map_congr_left fun t ht => Token.lexical_reserve (hplain t ht)).trans
          (List.map_id tokens)
      simp only [view, plain, ahead_text hu, htokens, List.map_append, hlexical,
        List.flatMap_cons, Event.ofLine, List.append_assoc]
      rfl

theorem view_of_pull_error {s s' : TokenStream} {e : LexError} (h : pull s = .error e s') :
    s'.view = s.view.passFault ∧ ∀ k, s.buffer.length ≤ k → s.view.preview k = .error e := by
  have hlast := (pulls_pull s).lastLine
  rw [h] at hlast
  have hfault : ∀ {rest : List Event}, s.ahead.flatMap Event.ofLine = .error e :: rest →
      s.view.passFault.events = s.plain.map .ok ++ rest ∧
        ∀ k, s.buffer.length ≤ k → s.view.preview k = .error e := by
    intro rest hahead
    constructor
    · simp only [View.passFault, view, hahead, Event.eraseP_append]
    · intro k hk
      have hlen : s.plain.length ≤ k := by rwa [plain, List.length_map]
      simp only [View.preview, view, hahead, Event.nth_append_right _ _ hlen]
      rfl
  unfold pull at h
  split at h
  · cases h
  · next rest hu =>
    cases h
    obtain ⟨hevents, hpreview⟩ := hfault (by rw [ahead_undecodable hu]; rfl)
    exact ⟨View.ext rfl rfl hevents.symm hlast, hpreview⟩
  · next chars rest hu =>
    dsimp only at h
    split at h
    · next e he =>
      cases h
      obtain ⟨hevents, hpreview⟩ := hfault (by rw [ahead_text hu, he]; rfl)
      exact ⟨View.ext rfl rfl hevents.symm hlast, hpreview⟩
    · cases h

theorem length_buffer_le (s : TokenStream) : s.buffer.length ≤ s.view.events.length := by
  simp only [view, plain, List.length_append, List.length_map]
  exact Nat.le_add_right _ _

theorem view_of_fillFrom_ok {k : Nat} {lines : List SourceLine} {s s' : TokenStream}
    (h : fillFrom k lines s = .ok () s') : s'.view = s.view := by
  induction lines generalizing s with
  | nil => cases h; rfl
  | cons l lines ih =>
    rw [fillFrom_cons] at h
    split at h
    · cases h
      rfl
    · cases hp : pull s with
      | error e s₁ => rw [hp] at h; cases h
      | ok _ s₁ =>
        rw [hp] at h
        exact (ih h).trans (view_of_pull_ok hp)

theorem view_of_fillFrom_error {k : Nat} {lines : List SourceLine} {s s' : TokenStream}
    {e : LexError} (h : fillFrom k lines s = .error e s') :
    s'.view = s.view.passFault ∧ s.view.preview k = .error e := by
  induction lines generalizing s with
  | nil => cases h
  | cons l lines ih =>
    rw [fillFrom_cons] at h
    split at h
    · cases h
    · next hk =>
      cases hp : pull s with
      | error e₁ s₁ =>
        rw [hp] at h
        cases h
        obtain ⟨hview, hpreview⟩ := view_of_pull_error hp
        exact ⟨hview, hpreview k (Nat.le_of_not_lt hk)⟩
      | ok _ s₁ =>
        rw [hp] at h
        rw [← view_of_pull_ok hp]
        exact ih h

theorem view_of_pullFrom_ok {lines : List SourceLine} {s s' : TokenStream}
    (h : pullFrom lines s = .ok () s') : s'.view = s.view := by
  induction lines generalizing s with
  | nil => cases h; rfl
  | cons l lines ih =>
    rw [pullFrom_cons] at h
    cases hp : pull s with
    | error e s₁ => rw [hp] at h; cases h
    | ok _ s₁ =>
      rw [hp] at h
      exact (ih h).trans (view_of_pull_ok hp)

theorem view_of_pullFrom_error {lines : List SourceLine} {s s' : TokenStream} {e : LexError}
    (h : pullFrom lines s = .error e s') :
    s'.view = s.view.passFault ∧ s.view.preview s.view.events.length = .error e := by
  induction lines generalizing s with
  | nil => cases h
  | cons l lines ih =>
    rw [pullFrom_cons] at h
    cases hp : pull s with
    | error e₁ s₁ =>
      rw [hp] at h
      cases h
      obtain ⟨hview, hpreview⟩ := view_of_pull_error hp
      exact ⟨hview, hpreview _ (length_buffer_le s)⟩
    | ok _ s₁ =>
      rw [hp] at h
      rw [← view_of_pull_ok hp]
      exact ih h

theorem unread_of_pullFrom_ok {s s' : TokenStream} (h : pullFrom s.unread s = .ok () s') :
    s'.unread = [] := by
  generalize hl : s.unread = lines at h
  induction lines generalizing s with
  | nil => cases h; exact hl
  | cons l lines ih =>
    rw [pullFrom_cons] at h
    have hu := pull_unread s
    cases hp : pull s with
    | error e s₁ => rw [hp] at h; cases h
    | ok _ s₁ =>
      rw [hp] at h hu
      exact ih (hu.trans (by rw [hl]; rfl)) h

/-! ## What there is to see -/

/-- The view shows what the buffer holds, and behind it the end of input if no line is left. -/
theorem preview_view {s : TokenStream} (hs : s.Classified) {k : Nat}
    (h : k < s.buffer.length ∨ s.unread = []) : s.view.preview k = .ok (s.tokenAt k) := by
  have hlen : s.plain.length = s.buffer.length := List.length_map ..
  by_cases hk : k < s.buffer.length
  · have hplain : k < s.plain.length := by rwa [hlen]
    have htoken : s.plain[k].reserve s.isReserved = s.buffer[k] := by
      have hget := List.getElem_of_eq (plain_reserve hs).symm hk
      rw [List.getElem_map] at hget
      exact hget.symm
    simp only [View.preview, view, Event.nth_append_left _ _ hplain, tokenAt,
      List.getElem?_eq_getElem hk]
    exact congrArg Except.ok htoken
  · have hu : s.unread = [] := h.resolve_left hk
    have hplain : s.plain.length ≤ k := by rw [hlen]; exact Nat.le_of_not_lt hk
    have hline : s.lastLine = s.line := by rw [lastLine, hu]; rfl
    simp only [View.preview, view, ahead_nil hu, Event.nth_append_right _ _ hplain, tokenAt,
      List.getElem?_eq_none (Nat.le_of_not_lt hk), View.eof, hline]
    rfl

theorem peek_enough {k : Nat} {s s' : TokenStream} {t : Token} (h : peek k s = .ok t s') :
    t = s'.tokenAt k ∧ (k < s'.buffer.length ∨ s'.unread = []) := by
  rw [peek_eq] at h
  cases hf : fill k s with
  | error e s₁ => rw [hf] at h; cases h
  | ok u s₁ =>
    rw [hf] at h
    cases h
    exact ⟨rfl, fill_enough hf⟩

/-- A token at hand is shown without pulling a line. -/
theorem peek_of_enough {k : Nat} {s : TokenStream} (h : k < s.buffer.length ∨ s.unread = []) :
    peek k s = .ok (s.tokenAt k) s := by
  have hfill : fill k s = .ok () s := by
    rw [fill_eq]
    cases hu : s.unread with
    | nil => rfl
    | cons l lines => rw [fillFrom_cons, if_pos (h.resolve_right (by simp [hu]))]
  rw [peek_eq, hfill]

/-- A token that has been looked at is at hand. -/
theorem peek_again {k : Nat} {s s' : TokenStream} {t : Token} (h : peek k s = .ok t s') :
    peek k s' = .ok t s' := by
  obtain ⟨rfl, henough⟩ := peek_enough h
  exact peek_of_enough henough

theorem peek_ok_view {k : Nat} {s s' : TokenStream} {t : Token} (hs : s.Classified)
    (h : peek k s = .ok t s') :
    s.view.preview k = .ok t ∧ s'.view = s.view ∧ s'.Classified := by
  have henough := (peek_enough h).2
  have hs' := (peek_ok hs h).1.classified hs
  rw [peek_eq, fill_eq] at h
  cases hf : fillFrom k s.unread s with
  | error e s₁ => rw [hf] at h; cases h
  | ok u s₁ =>
    rw [hf] at h
    cases h
    have hview := view_of_fillFrom_ok hf
    exact ⟨hview ▸ preview_view hs' henough, hview, hs'⟩

theorem peek_error_view {k : Nat} {s s' : TokenStream} {e : LexError} (hs : s.Classified)
    (h : peek k s = .error e s') :
    s.view.preview k = .error e ∧ s'.view = s.view.passFault ∧ s'.Classified := by
  have hs' := (peek_error h).classified hs
  rw [peek_eq, fill_eq] at h
  cases hf : fillFrom k s.unread s with
  | error e₁ s₁ =>
    rw [hf] at h
    cases h
    obtain ⟨hview, hpreview⟩ := view_of_fillFrom_error hf
    exact ⟨hpreview, hview, hs'⟩
  | ok u s₁ => rw [hf] at h; cases h

/-- A separator spells its word. -/
theorem word_of_separator {s : TokenStream} (hs : s.Classified) {pos : Nat}
    (h : (s.shown pos).kind = .separator) : (s.shown pos).word = (s.shown pos).text := by
  unfold TokenStream.shown at h ⊢
  cases hat : s.upcoming[pos]? with
  | none =>
    rw [hat] at h
    cases h
  | some t =>
    rw [hat] at h
    rw [Option.getD_some] at h ⊢
    obtain ⟨plain, hplain, rfl⟩ := List.mem_map.mp (List.mem_of_getElem? hat)
    have hsame := Token.reserve_of_kind_ne (p := s.isReserved) (t := plain) (by simp [h])
    rw [hsame] at h ⊢
    rw [Token.word, (pending_isPlain hs plain hplain).separator_value h]

theorem shown_of_preview {s : TokenStream} (hs : s.Classified) {pos : Nat} {t : Token}
    (h : s.view.preview pos = .ok t) : t = s.shown pos := by
  cases hpeek : peek pos s with
  | ok u s' =>
    obtain rfl := Except.ok.inj ((peek_ok_view hs hpeek).1.symm.trans h)
    exact (peek_ok hs hpeek).2
  | error e s' => cases (peek_error_view hs hpeek).1.symm.trans h

theorem word_of_preview {s : TokenStream} (hs : s.Classified) {pos : Nat} {t : Token}
    (h : s.view.preview pos = .ok t) (hk : t.kind = .separator) : t.word = t.text := by
  obtain rfl := shown_of_preview hs h
  exact word_of_separator hs hk

/-! ## Calls -/

theorem view_reserve {s : TokenStream} (hs : s.Classified) (w : String) :
    (s.reserve w).view = { s.view with reserved := s.view.reserved.insert w } := by
  have hplain : (s.reserve w).plain = s.plain := by
    change (s.buffer.map (Token.reserve (· == w))).map Token.lexical = _
    rw [List.map_map]
    exact List.map_congr_left (lexical_reserve_of_classified hs _)
  unfold view
  rw [hplain]
  rfl

theorem view_release (s : TokenStream) (w : String) :
    (s.release w).view = { s.view with reserved := s.view.reserved.erase w } := by
  unfold release
  dsimp only
  split
  · have hplain : (s.buffer.map (Token.release w)).map Token.lexical = s.plain := by
      rw [List.map_map]
      exact List.map_congr_left fun t _ => Token.lexical_release w t
    unfold view
    simp only [plain, hplain]
    rfl
  · rfl

theorem read_eq_peek (s : TokenStream) :
    read s = match peek 0 s with
      | .ok t s' => .ok t { s' with buffer := s'.buffer.tail }
      | .error e s' => .error e s' := by
  rw [read_eq, peek_eq]
  cases fill 0 s <;> rfl

theorem view_tail {s : TokenStream} (h : 0 < s.buffer.length ∨ s.unread = []) :
    ({ s with buffer := s.buffer.tail } : TokenStream).view =
      { s.view with events := s.view.events.tail } := by
  refine View.ext rfl rfl ?_ rfl
  change (s.buffer.tail.map Token.lexical).map Except.ok ++ s.ahead.flatMap Event.ofLine =
    ((s.buffer.map Token.lexical).map Except.ok ++ s.ahead.flatMap Event.ofLine).tail
  cases hb : s.buffer with
  | nil =>
    have hu : s.unread = [] := h.resolve_left (by simp [hb])
    simp [ahead_nil hu]
  | cons t rest => simp

theorem view_empty {s : TokenStream} (h : s.unread = []) :
    ({ s with buffer := [] } : TokenStream).view = { s.view with events := [] } := by
  refine View.ext rfl rfl ?_ rfl
  change ([] ++ s.ahead.flatMap Event.ofLine : List Event) = []
  rw [ahead_nil h]
  rfl

/-- The reply to a call and the view after it depend on the view alone. -/
theorem view_run (c : Call) {s : TokenStream} (hs : s.Classified) :
    ((c.run s).1, (c.run s).2.view) = s.view.run c := by
  cases c with
  | peek k =>
    simp only [Call.run, View.run]
    cases h : peek k s with
    | ok t s' =>
      obtain ⟨hpreview, hview, -⟩ := peek_ok_view hs h
      rw [hpreview]
      exact congrArg _ hview
    | error e s' =>
      obtain ⟨hpreview, hview, -⟩ := peek_error_view hs h
      rw [hpreview]
      exact congrArg _ hview
  | read =>
    simp only [Call.run, View.run, read_eq_peek]
    cases h : peek 0 s with
    | ok t s' =>
      obtain ⟨hpreview, hview, -⟩ := peek_ok_view hs h
      rw [hpreview, ← hview]
      exact congrArg _ (view_tail (peek_enough h).2)
    | error e s' =>
      obtain ⟨hpreview, hview, -⟩ := peek_error_view hs h
      rw [hpreview]
      exact congrArg _ hview
  | tokens =>
    simp only [Call.run, View.run, tokens_eq]
    cases h : pullFrom s.unread s with
    | ok u s' =>
      have hview := view_of_pullFrom_ok h
      have hunread := unread_of_pullFrom_ok h
      have hpulls := pulls_pullFrom s.unread s
      rw [h] at hpulls
      have hs' : s'.Classified := hpulls.classified hs
      have hscanned : s'.view.scanned = s'.plain := by
        rw [scanned_view, pending, ahead_nil hunread]
        exact List.append_nil _
      have hbuffer : s'.view.scanned.map (Token.reserve s'.view.isReserved) = s'.buffer := by
        rw [hscanned]
        exact plain_reserve hs'
      rw [← hview, preview_view hs' (Or.inr hunread), hbuffer, ← view_empty hunread]
      rfl
    | error e s' =>
      obtain ⟨hview, hpreview⟩ := view_of_pullFrom_error h
      rw [hpreview]
      exact congrArg _ hview
  | reserve w => exact congrArg _ (view_reserve hs w)
  | release w => exact congrArg _ (view_release s w)

end TokenStream
end HandlerGrammar
