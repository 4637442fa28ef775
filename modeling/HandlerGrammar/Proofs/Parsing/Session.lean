import HandlerGrammar.Proofs.Parsing.View

/-! # Sessions on a stream

A caller makes calls, asks whether words are reserved and parses, in any order, and goes on after
errors. What a request answers and what it leaves to later ones can be told from the view of the
stream, so two streams with the same view answer alike for ever.

* `Request.run`, `attend`: requests and their answers;
* `view_request`, `view_attend`: the view is enough for one request and for a session;
* `parse_eq_parsePreview`: a parse takes no notice of what is buffered and what is not;
* `mismatch_leaves_no_trace`: after a mismatch all is as if there had been no parse;
* `retry_after_lexical_error`: after a lexical error the faulty line is gone;
* `parse_takes_all`: a parse that succeeds has seen and taken everything. -/
namespace HandlerGrammar
open Text
set_option autoImplicit false

/-- What may be asked of a stream in the course of parsing. -/
inductive Request where
  | call (c : Call)
  | isReserved (word : String)
  | parse (g : Grammar)

inductive Answer where
  | reply (r : Reply)
  | flag (b : Bool)
  | parsed (outcome : Except ParseError ParseTree)

def Request.run : Request → TokenStream → Answer × TokenStream
  | call c, s => (.reply (c.run s).1, (c.run s).2)
  | isReserved w, s => (.flag (s.isReserved w), s)
  | parse g, s => (.parsed (g.outcome s).1, (g.outcome s).2)

/-- The answers to requests made one after the other, whether they fail or not. -/
def attend : List Request → TokenStream → List Answer × TokenStream
  | [], s => ([], s)
  | r :: rs, s =>
    let (answer, s') := r.run s
    let (answers, s'') := attend rs s'
    (answer :: answers, s'')

/-! ## The view is enough -/

namespace View

def answer : Request → View → Answer × View
  | .call c, v => (.reply (v.run c).1, (v.run c).2)
  | .isReserved w, v => (.flag (v.isReserved w), v)
  | .parse g, v => (.parsed (v.parse g).1, (v.parse g).2)

def attend : List Request → View → List Answer × View
  | [], v => ([], v)
  | r :: rs, v =>
    let (answer, v') := v.answer r
    let (answers, v'') := attend rs v'
    (answer :: answers, v'')

/-- With nothing left to come it stays so. -/
theorem answer_exhausted (r : Request) {v : View} (h : v.events = []) :
    (v.answer r).2.events = [] ∧ (v.answer r).2.lastLine = v.lastLine := by
  have hpass : v.passFault.events = [] := by rw [passFault, h]; rfl
  cases r with
  | call c =>
    cases c with
    | read =>
      simp only [answer, run]
      split
      · exact ⟨by rw [h]; rfl, rfl⟩
      · exact ⟨hpass, rfl⟩
    | peek k =>
      simp only [answer, run]
      split
      · exact ⟨h, rfl⟩
      · exact ⟨hpass, rfl⟩
    | tokens =>
      simp only [answer, run]
      split
      · exact ⟨rfl, rfl⟩
      · exact ⟨hpass, rfl⟩
    | reserve w => exact ⟨h, rfl⟩
    | release w => exact ⟨h, rfl⟩
  | isReserved w => exact ⟨h, rfl⟩
  | parse g =>
    simp only [answer, parse]
    split
    · exact ⟨rfl, rfl⟩
    · exact ⟨hpass, rfl⟩
    · exact ⟨h, rfl⟩

theorem attend_exhausted (rs : List Request) {v : View} (h : v.events = []) :
    (v.attend rs).2.events = [] ∧ (v.attend rs).2.lastLine = v.lastLine := by
  induction rs generalizing v with
  | nil => exact ⟨h, rfl⟩
  | cons r rs ih =>
    obtain ⟨hevents, hline⟩ := answer_exhausted r h
    obtain ⟨hevents', hline'⟩ := ih hevents
    exact ⟨hevents', hline'.trans hline⟩

end View

theorem view_request (r : Request) {s : TokenStream} (hs : s.Classified) :
    ((r.run s).1, (r.run s).2.view) = s.view.answer r ∧ (r.run s).2.Classified := by
  cases r with
  | call c =>
    have hview := TokenStream.view_run c hs
    refine ⟨?_, (TokenStream.serves_run c hs).classified⟩
    rw [View.answer, ← hview]
    rfl
  | isReserved w => exact ⟨rfl, hs⟩
  | parse g =>
    obtain ⟨hview, hs'⟩ := g.view_parse hs
    refine ⟨?_, hs'⟩
    rw [View.answer, ← hview]
    rfl

theorem view_attend (rs : List Request) {s : TokenStream} (hs : s.Classified) :
    ((attend rs s).1, (attend rs s).2.view) = s.view.attend rs ∧ (attend rs s).2.Classified := by
  induction rs generalizing s with
  | nil => exact ⟨rfl, hs⟩
  | cons r rs ih =>
    obtain ⟨hfirst, hs'⟩ := view_request r hs
    obtain ⟨hrest, hs''⟩ := ih hs'
    refine ⟨?_, hs''⟩
    rw [View.attend, ← hfirst]
    dsimp only
    rw [← hrest]
    rfl

/-- Streams with the same view answer alike. -/
theorem attend_congr (rs : List Request) {s s' : TokenStream} (hs : s.Classified)
    (hs' : s'.Classified) (h : s.view = s'.view) : (attend rs s).1 = (attend rs s').1 := by
  have hview := (view_attend rs hs).1
  rw [h, ← (view_attend rs hs').1] at hview
  exact (Prod.mk.inj hview).1

/-- After any requests on a fresh stream its tokens are classified. -/
theorem classified_attend (v : Vocabulary) (bytes : List UInt8) (before : List Request) :
    (attend before (.ofBytes v bytes)).2.Classified :=
  (view_attend before (TokenStream.classified_ofLines v _)).2

/-! ## A sample grammar -/

/-- The word `rows` and a number. -/
def rowsRule : Rule := .labeled "rows" [.keyword "rows", .token .number]

def rowsGrammar : Grammar := ⟨[⟨"rows", rowsRule⟩], 0, WordSet.ofList ["rows"]⟩

/-- The text `rows 1`. -/
def rowsSource : List UInt8 := [114, 111, 119, 115, 32, 49]

/-! ## Parsing with all tokens at hand -/

namespace Grammar

/-- What is left of a stream, were it all pulled and the keywords of the grammar reserved: the tokens
still to be delivered and the end of input, on the last line, behind them. -/
def remainder (g : Grammar) (s : TokenStream) : Preview :=
  .ofList (s.pending.map (Token.reserve fun w => s.isReserved w || g.keywords.contains w))
    (.eof (max s.lastLine 1))

variable {g : Grammar} {s : TokenStream}

theorem endsBy_remainder (g : Grammar) (s : TokenStream) :
    (g.remainder s).EndsBy s.pending.length := by
  have h : (g.remainder s).EndsBy _ := Preview.endsBy_ofList _ rfl
  rwa [List.length_map] at h

theorem preview_reserving (hs : s.Classified) (hfaults : s.faults = []) :
    (s.view.reserving g).preview = g.remainder s := by
  have hnone : (s.view.reserving g).faults = [] := (s.faults_view).trans hfaults
  have hscanned : (s.view.reserving g).scanned = s.pending := s.scanned_view
  rw [View.preview_of_no_fault hnone, hscanned, TokenStream.isReserved_reserving g hs]
  rfl

/-- If all lines to come scan, the outcome of a parse is that with all tokens at hand. -/
theorem outcome_eq_depthFor (hs : s.Classified) (hfaults : s.faults = []) :
    (g.outcome s).1 = g.parsePreview (g.depthFor s.pending.length) (g.remainder s) := by
  have hview := congrArg Prod.fst (g.view_parse hs).1
  rw [View.parse_fst, preview_reserving hs hfaults, TokenStream.scanned_view] at hview
  exact hview

theorem outcome_eq_parsePreview (hs : s.Classified) (hfaults : s.faults = []) {depth : Nat}
    (h : g.parsePreview depth (g.remainder s) ≠ .error .diverged) :
    (g.outcome s).1 = g.parsePreview depth (g.remainder s) :=
  (outcome_eq_depthFor hs hfaults).trans (parsePreview_eq (g.endsBy_remainder s) h (Nat.le_refl _))

end Grammar

/-- Whatever has been asked of a stream before: if all lines to come scan and the match of the
tokens left, all of them at hand and with the keywords reserved, comes to an end at any depth, a
parse has just that outcome. -/
theorem parse_eq_parsePreview (g : Grammar) (v : Vocabulary) (bytes : List UInt8)
    (before : List Request) (depth : Nat) :
    let s := (attend before (.ofBytes v bytes)).2
    s.faults = [] → g.parsePreview depth (g.remainder s) ≠ .error .diverged →
      (g.outcome s).1 = g.parsePreview depth (g.remainder s) := by
  intro s hfaults hends
  exact Grammar.outcome_eq_parsePreview (classified_attend v bytes before) hfaults hends

/-- The text `rows 1`, after a look at its first word. -/
theorem parse_eq_parsePreview_sample :
    let s := (attend [.call (.peek 0)] (.ofBytes .standard rowsSource)).2
    s.faults = [] ∧ (rowsGrammar.outcome s).1 =
      rowsGrammar.parsePreview 1 (rowsGrammar.remainder s) := by
  have hfaults : (attend [.call (.peek 0)] (.ofBytes .standard rowsSource)).2.faults = [] := by
    decide +kernel
  have hok : (rowsGrammar.parsePreview 1 (rowsGrammar.remainder
      (attend [.call (.peek 0)] (.ofBytes .standard rowsSource)).2)).isOk = true := by
    decide +kernel
  refine ⟨hfaults, parse_eq_parsePreview rowsGrammar .standard rowsSource _ 1 hfaults ?_⟩
  intro hdiverged
  rw [hdiverged] at hok
  cases hok

/-! ## After a parse that fails -/

/-- A parse that ends in a mismatch makes no difference to anything that is asked later. -/
theorem mismatch_leaves_no_trace (g : Grammar) (v : Vocabulary) (bytes : List UInt8)
    (before : List Request) {t : Token} {expected : List String} {s' : TokenStream}
    (h : g.parse (attend before (.ofBytes v bytes)).2 = .error (.mismatch t expected) s')
    (later : List Request) :
    (attend later s').1 = (attend later (attend before (.ofBytes v bytes)).2).1 := by
  have hs := classified_attend v bytes before
  obtain ⟨hs', hview⟩ := Grammar.left_by_mismatch hs h
  exact attend_congr later hs' hs hview

/-- A number with an open string on the next line. -/
theorem mismatch_leaves_no_trace_sample : ∃ s',
    rowsGrammar.parse (attend [.call (.peek 0)] (.ofBytes .standard [49, 10, 34])).2 =
      .error (.mismatch ⟨.integer, 1, "1", .integer 1⟩ ["`rows`"]) s' ∧
    ∀ later, (attend later s').1 =
      (attend later (attend [.call (.peek 0)] (.ofBytes .standard [49, 10, 34])).2).1 := by
  have hparse := rowsGrammar.parse_of_map_error
    (s := (attend [.call (.peek 0)] (.ofBytes .standard [49, 10, 34])).2)
    (e := .mismatch ⟨.integer, 1, "1", .integer 1⟩ ["`rows`"]) (by decide +kernel)
  exact ⟨_, hparse, mismatch_leaves_no_trace rowsGrammar .standard [49, 10, 34] _ hparse⟩

/-- A parse that fails by a lexical error has passed over the faulty line. The tokens of the other
lines are left, and all words are reserved or not as before. So a second attempt succeeds exactly
if there is no other faulty line and the tokens left match. -/
theorem retry_after_lexical_error (g : Grammar) (v : Vocabulary) (bytes : List UInt8)
    (before : List Request) {e : LexError} {s' : TokenStream}
    (h : g.parse (attend before (.ofBytes v bytes)).2 = .error (.lexical e) s') :
    let s := (attend before (.ofBytes v bytes)).2
    s.faults = e :: s'.faults ∧ s'.pending = s.pending ∧ s'.isReserved = s.isReserved ∧
    ((∃ tree s'', g.parse s' = .ok tree s'') ↔
      s.faults = [e] ∧ ∃ depth tree, g.parsePreview depth (g.remainder s) = .ok tree) := by
  intro s
  obtain ⟨hs', hpass, hfaults⟩ := Grammar.left_by_lexical (classified_attend v bytes before) h
  have hpending : s'.pending = s.pending := by
    rw [← TokenStream.scanned_view, hpass, View.scanned_passFault, TokenStream.scanned_view]
  have hreserved : s'.isReserved = s.isReserved := by
    rw [← TokenStream.view_isReserved, hpass]
    rfl
  have hline : s'.lastLine = s.lastLine := congrArg View.lastLine hpass
  have hremainder : g.remainder s' = g.remainder s := by
    rw [Grammar.remainder, hpending, hreserved, hline]
    rfl
  -- the second attempt sees what the first would have seen without the faulty line
  refine ⟨hfaults, hpending, hreserved, ?_, ?_⟩
  · rintro ⟨tree, s'', hretry⟩
    have houtcome : (g.outcome s').1 = .ok tree := by rw [Grammar.outcome_of_parse_ok hretry]
    have hlast := Grammar.faults_of_outcome_ok hs' houtcome
    rw [Grammar.outcome_eq_depthFor hs' hlast, hremainder] at houtcome
    exact ⟨by rw [hfaults, hlast], _, tree, houtcome⟩
  · rintro ⟨hlast, depth, tree, htree⟩
    have hnone : s'.faults = [] := by
      rw [hfaults] at hlast
      exact (List.cons.inj hlast).2
    rw [← hremainder] at htree
    have hends : g.parsePreview depth (g.remainder s') ≠ .error .diverged := by
      rw [htree]
      intro hdiverged
      cases hdiverged
    have houtcome := Grammar.outcome_eq_parsePreview hs' hnone hends
    exact ⟨tree, _, Grammar.parse_of_outcome_ok (houtcome.trans htree)⟩

/-- An open string on the line before `rows 1`. -/
theorem retry_after_lexical_error_sample : ∃ s',
    rowsGrammar.parse (attend [] (.ofBytes .standard (34 :: 10 :: rowsSource))).2 =
      .error (.lexical (.unreadable 1 "\"")) s' ∧
    ∃ tree s'', rowsGrammar.parse s' = .ok tree s'' := by
  have hparse := rowsGrammar.parse_of_map_error
    (s := (attend [] (.ofBytes .standard (34 :: 10 :: rowsSource))).2)
    (e := .lexical (.unreadable 1 "\"")) (by decide +kernel)
  obtain ⟨-, -, -, hretry⟩ := retry_after_lexical_error rowsGrammar .standard _ [] hparse
  refine ⟨_, hparse, hretry.mpr ⟨by decide +kernel, 1, ?_⟩⟩
  cases hmatch : rowsGrammar.parsePreview 1
      (rowsGrammar.remainder (attend [] (.ofBytes .standard (34 :: 10 :: rowsSource))).2) with
  | ok tree => exact ⟨tree, rfl⟩
  | error e =>
    have hok : (rowsGrammar.parsePreview 1 (rowsGrammar.remainder
        (attend [] (.ofBytes .standard (34 :: 10 :: rowsSource))).2)).isOk = true := by
      decide +kernel
    rw [hmatch] at hok
    cases hok

/-- A second attempt behind a lexical error may succeed. -/
theorem lexical_error_not_final : (Arena.empty.add rowsRule).2.build 0 = .ok rowsGrammar ∧
    ∃ s', rowsGrammar.parse (.ofBytes .standard (34 :: 10 :: rowsSource)) =
        .error (.lexical (.unreadable 1 "\"")) s' ∧
      ∃ tree s'', rowsGrammar.parse s' = .ok tree s'' := by
  have hfails := rowsGrammar.parse_of_map_error
    (s := .ofBytes .standard (34 :: 10 :: rowsSource)) (e := .lexical (.unreadable 1 "\""))
    (by decide +kernel)
  obtain ⟨tree, hretry⟩ := rowsGrammar.parse_of_isOk
    (s := (rowsGrammar.outcome (.ofBytes .standard (34 :: 10 :: rowsSource))).2) (by decide +kernel)
  exact ⟨by decide +kernel, _, hfails, tree, _, hretry⟩

/-! ## After a parse that succeeds -/

/-- If no line fails to scan, each one is text and has its tokens. -/
theorem readings_of_no_error {isIgnored : String → Bool} {line : Nat} {lines : List SourceLine}
    (h : scanErrors (readings isIgnored line lines) = []) :
    (∀ l ∈ lines, l ≠ .undecodable) ∧ ∀ r ∈ readings isIgnored line lines, ∃ ts, r = .ok ts := by
  induction lines generalizing line with
  | nil => exact ⟨fun _ hl => absurd hl List.not_mem_nil, fun _ hr => absurd hr List.not_mem_nil⟩
  | cons l lines ih =>
    cases l with
    | undecodable => cases h
    | text chars =>
      cases hline : lineTokens isIgnored (line + 1) chars with
      | error e =>
        rw [readings, hline] at h
        cases h
      | ok ts =>
        rw [readings, hline] at h
        obtain ⟨htext, hok⟩ := ih h
        rw [readings, hline]
        refine ⟨List.forall_mem_cons.mpr ⟨?_, htext⟩, List.forall_mem_cons.mpr ⟨⟨ts, rfl⟩, hok⟩⟩
        intro hl
        cases hl

theorem lastLine_of_text {s : TokenStream} (h : ∀ l ∈ s.unread, l ≠ .undecodable) :
    s.lastLine = s.line + s.unread.length := by
  rw [TokenStream.lastLine, List.countP_eq_length.mpr fun l hl => bne_iff_ne.mpr (h l hl)]

/-- Once nothing is left to come, the end of input is read, whatever else has been asked for. -/
theorem read_exhausted (later : List Request) {s : TokenStream} (hs : s.Classified)
    (h : s.view.events = []) :
    (Call.read.run (attend later s).2).1 = .token (.eof (max s.lastLine 1)) := by
  obtain ⟨hlater, hclassified⟩ := view_attend later hs
  obtain ⟨hevents, hline⟩ := View.attend_exhausted later h
  rw [← hlater] at hevents hline
  have hpreview : (attend later s).2.view.preview 0 = .ok (.eof (max s.lastLine 1)) := by
    rw [View.preview, hevents, View.eof, hline]
    rfl
  have hread := congrArg Prod.fst (TokenStream.view_run .read hclassified)
  rw [View.run, hpreview] at hread
  exact hread

theorem shown_prepared (g : Grammar) {s : TokenStream} (hs : s.Classified) {k : Nat} :
    (g.prepared s).shown k = (g.prepared s).upcoming[k]?.getD (.eof (max s.lastLine 1)) := by
  have hline : (g.prepared s).lastLine = s.lastLine :=
    (TokenStream.reserveAll_spec hs _).2.2.2.1
  rw [TokenStream.shown, hline]

/-- A parse of a whole source succeeds only if every line is text and scans, and takes all tokens of
all lines. Whatever is asked afterwards, there is nothing but the end of input to read, and the
words reserved are those reserved before and the keywords. -/
theorem parse_takes_all (g : Grammar) (v : Vocabulary) (bytes : List UInt8) (words : List String)
    {tree : ParseTree} {s' : TokenStream}
    (h : g.parse ((TokenStream.ofBytes v bytes).reserveAll words) = .ok tree s') :
    let lines := readings v.isIgnored 0 (sourceLines bytes)
    let isReserved := fun w => v.isReserved w || words.contains w || g.keywords.contains w
    let all := (scannedTokens lines).map (Token.reserve isReserved)
    let eof := Token.eof (max (sourceLines bytes).length 1)
    (∀ l ∈ sourceLines bytes, l ≠ .undecodable) ∧ (∀ r ∈ lines, ∃ ts, r = .ok ts) ∧
    (∃ d, Derives g (fun k => all[k]?.getD eof) [.rule g.entry] [d] 0 all.length ∧ d.tokens = all ∧
      tree = Grammar.treeOf (all[0]?.getD eof).line d.nodes) ∧
    (∀ later, (Call.read.run (attend later s').2).1 = .token eof) ∧ s'.isReserved = isReserved := by
  intro lines isReserved all eof
  obtain ⟨hs, hpending, hfaults, hline, hreserved⟩ :=
    TokenStream.reserveAll_spec (TokenStream.classified_ofLines v (sourceLines bytes)) words
  change g.parse ((TokenStream.ofLines v (sourceLines bytes)).reserveAll words) = _ at h
  generalize (TokenStream.ofLines v (sourceLines bytes)).reserveAll words = s at *
  have hnone : s.faults = [] :=
    Grammar.faults_of_outcome_ok hs (by rw [Grammar.outcome_of_parse_ok h])
  obtain ⟨htext, hok⟩ := readings_of_no_error (hfaults.symm.trans hnone)
  have hlast : s.lastLine = (sourceLines bytes).length :=
    hline.trans ((lastLine_of_text htext).trans (Nat.zero_add _))
  have hwords : s.isReserved = fun w => v.isReserved w || words.contains w := by
    funext w
    rw [hreserved w]
    exact congrArg (· || words.contains w) (Bool.or_false _)
  have hall : (g.prepared s).upcoming = all := by
    rw [Grammar.upcoming_prepared hs, hpending, hwords]
    rfl
  have hshown : (g.prepared s).shown = fun k => all[k]?.getD eof := by
    funext k
    rw [shown_prepared g hs, hall, hlast]
  obtain ⟨hs', hleft⟩ := Grammar.left_by_ok hs h
  have hlast' : s'.lastLine = (sourceLines bytes).length :=
    (congrArg View.lastLine hleft).trans hlast
  refine ⟨htext, hok, ?_, fun later => ?_, ?_⟩
  · obtain ⟨d, hd, htokens, htree⟩ := Grammar.parse_derives hs h
    rw [hshown, hall] at hd
    rw [hall] at htokens
    rw [hshown] at htree
    exact ⟨d, hd, htokens, htree⟩
  · rw [read_exhausted later hs' (congrArg View.events hleft), hlast']
  · rw [← TokenStream.view_isReserved, hleft]
    refine (TokenStream.isReserved_reserving g hs).trans ?_
    rw [hwords]

/-- The text `rows 1`, without words reserved before. -/
theorem parse_takes_all_sample : ∃ tree s',
    rowsGrammar.parse ((TokenStream.ofBytes .standard rowsSource).reserveAll []) = .ok tree s' ∧
    (∀ later, (Call.read.run (attend later s').2).1 = .token (.eof 1)) ∧
    s'.isReserved "rows" = true := by
  obtain ⟨tree, hparse⟩ := rowsGrammar.parse_of_isOk
    (s := (TokenStream.ofBytes .standard rowsSource).reserveAll []) (by decide +kernel)
  obtain ⟨-, -, -, hread, hreserved⟩ := parse_takes_all rowsGrammar .standard rowsSource [] hparse
  exact ⟨tree, _, hparse, hread, by rw [hreserved]; decide +kernel⟩

end HandlerGrammar
