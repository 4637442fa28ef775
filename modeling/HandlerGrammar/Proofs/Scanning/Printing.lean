import HandlerGrammar.Proofs.Scanning.Delimiting
import HandlerGrammar.Proofs.Scanning.Lines
import HandlerGrammar.Proofs.Scanning.Tiling
import HandlerGrammar.Proofs.Stream.View

/-! # Printing tokens and scanning them again

The texts of the tokens of a source, printed with blanks and line breaks between them, are scanned
as the same tokens again.

* `TokenStream.tokens_eq_ok_iff`: what it means that a source is tokenized;
* `Lexeme.Gives`: the token of a lexeme, on any line;
* `Lexeme.IsPrintable`: what the lexemes of tokens have in common, `exists_printable`;
* `Scans`: the lexemes of a text, line by line, put together from the end of the text;
* `Spaced`: texts with blanks and line breaks between them, `scans_of_spaced`;
* `tokens_of_spaced`: the statement about sources that are tokenized. -/
namespace HandlerGrammar
open Text
set_option autoImplicit false

/-! ## The tokens of a source -/

namespace TokenStream

/-- The stream over a source with some words reserved on it. -/
def ofSource (v : Vocabulary) (reserved : WordSet) (bytes : List UInt8) : TokenStream :=
  { ofBytes v bytes with reserved }

theorem classified_ofSource (v : Vocabulary) (reserved : WordSet) (bytes : List UInt8) :
    (ofSource v reserved bytes).Classified := by
  intro t ht
  cases ht

theorem upcoming_ofSource (v : Vocabulary) (reserved : WordSet) (bytes : List UInt8) :
    (ofSource v reserved bytes).upcoming =
      (scannedTokens (readings v.isIgnored 0 (sourceLines bytes))).map
        (Token.reserve (ofSource v reserved []).isReserved) :=
  upcoming_eq_append (classified_ofSource v reserved bytes)

theorem tokens_eq_ok_iff {s : TokenStream} (hs : s.Classified) {ts : List Token} :
    (∃ s', tokens s = .ok ts s') ↔ s.faults = [] ∧ ts = s.upcoming := by
  have hpulls := pulls_pullFrom s.unread s
  rw [tokens_eq]
  cases hpull : pullFrom s.unread s with
  | error e s' =>
    rw [hpull] at hpulls
    constructor
    · rintro ⟨_, h⟩
      cases h
    · rintro ⟨hnone, -⟩
      rw [hpulls.faults] at hnone
      cases hnone
  | ok _ s' =>
    rw [hpull] at hpulls
    have hahead : s'.ahead = [] := ahead_nil (unread_of_pullFrom_ok hpull)
    have hfaults : s.faults = [] := by
      rw [hpulls.faults, faults, stateOf, hahead]
      rfl
    have hupcoming : s.upcoming = s'.buffer := by
      rw [← hpulls.upcoming, upcoming_eq_append (hpulls.classified hs), stateOf, hahead]
      exact List.append_nil _
    rw [hfaults, hupcoming]
    constructor
    · rintro ⟨_, h⟩
      cases h
      exact ⟨rfl, rfl⟩
    · rintro ⟨-, rfl⟩
      exact ⟨_, rfl⟩

end TokenStream

/-! ## Lexemes and their tokens -/

namespace Lexeme

/-- A token that a lexeme gives on some line. -/
def Gives (isIgnored : String → Bool) (l : Lexeme) (t : Token) : Prop :=
  ∃ line, l.token? isIgnored line = .ok (some t)

section
variable {isIgnored : String → Bool} {l : Lexeme} {t t' : Token}

/-- The line of a lexeme is the line of its token and nothing else. -/
theorem token?_line {line : Nat} (h : l.token? isIgnored line = .ok (some t)) (other : Nat) :
    l.token? isIgnored other = .ok (some { t with line := other }) := by
  obtain ⟨category, text⟩ := l
  cases category with
  | comment => cases h
  | float | bool | string | word =>
    simp only [token?, Except.ok.injEq, Option.some.injEq] at h
    subst h
    rfl
  | integer =>
    simp only [token?] at h ⊢
    split at h
    · simp only [Except.ok.injEq, Option.some.injEq] at h
      subst h
      simp [*]
    · cases h
  | symbol =>
    simp only [token?] at h ⊢
    split at h
    · cases h
    · next hignored =>
      simp only [Except.ok.injEq, Option.some.injEq] at h
      subst h
      rw [if_neg hignored]

theorem gives_of_tokens {line : Nat} {ls : List Lexeme} {ts : List Token}
    (h : tokens isIgnored line ls = .ok ts) : List.Forall₂ (Gives isIgnored) (kept isIgnored ls) ts :=
  (tokens_ok_iff.mp h).imp fun _ _ ht => ⟨line, ht⟩

theorem Gives.eq (h : l.Gives isIgnored t) (h' : l.Gives isIgnored t') :
    t' = { t with line := t'.line } := by
  obtain ⟨line, h⟩ := h
  obtain ⟨line', h'⟩ := h'
  have hsame := (token?_line h t'.line).symm.trans (token?_line h' t'.line)
  exact (Option.some.inj (Except.ok.inj hsame)).symm

/-- What the lexemes of tokens have in common. -/
structure IsPrintable (isIgnored : String → Bool) (l : Lexeme) : Prop where
  munches : ∃ cs, Munches cs l
  not_dropped : l.isDropped isIgnored = false
  no_newline : '\n' ∉ l.text
  no_return : l.text.getLast? ≠ some '\r'

theorem not_comment_of_kept (h : l.isDropped isIgnored = false) : l.category ≠ .comment := by
  intro hcomment
  simp [isDropped, hcomment] at h

end
end Lexeme

section
variable {isIgnored : String → Bool} (hreturn : isIgnored "\r" = true)
include hreturn

/-- A carriage return ends no lexeme but one that is dropped. -/
theorem no_return_of_munches {cs : List Char} {l : Lexeme} (h : Munches cs l)
    (hkept : l.isDropped isIgnored = false) : l.text.getLast? ≠ some '\r' := by
  intro hlast
  obtain ⟨hsymbol, htext⟩ := eq_return (Lexeme.not_comment_of_kept hkept) h.mem_language hlast
  simp [Lexeme.isDropped, hsymbol, htext, hreturn] at hkept

/-- The lexemes of the tokens on a line are printable. -/
theorem printable_of_cuts {line : List Char} (hline : '\n' ∉ line) {ls : List Lexeme}
    (h : Cuts line ls []) : ∀ l ∈ Lexeme.kept isIgnored ls, l.IsPrintable isIgnored := by
  intro l hl
  obtain ⟨hmem, hkept⟩ := Lexeme.mem_kept.mp hl
  obtain ⟨r, hr, hmunches⟩ := h.munches l hmem
  exact ⟨⟨_, hmunches⟩, hkept, fun hnl => hline (hr.subset (List.mem_append_left _ hnl)),
    no_return_of_munches hreturn hmunches hkept⟩

/-- Lines without errors give the tokens of printable lexemes. -/
theorem exists_printable {lines : List SourceLine}
    (hlines : ∀ chars, .text chars ∈ lines → '\n' ∉ chars) {n : Nat}
    (hclean : scanErrors (readings isIgnored n lines) = []) : ∃ ls : List Lexeme,
      (∀ l ∈ ls, l.IsPrintable isIgnored) ∧
        List.Forall₂ (Lexeme.Gives isIgnored) ls (scannedTokens (readings isIgnored n lines)) := by
  induction lines generalizing n with
  | nil => exact ⟨[], by simp, .nil⟩
  | cons line lines ih =>
    cases line with
    | undecodable => cases hclean
    | text chars =>
      have hchars := hlines chars List.mem_cons_self
      cases hread : lineTokens isIgnored (n + 1) chars with
      | error e =>
        rw [readings, hread] at hclean
        cases hclean
      | ok ts =>
        rw [readings, hread] at hclean ⊢
        obtain ⟨ls, hls, hts⟩ := (lineTokens_ok_iff hchars).mp hread
        obtain ⟨more, hmore, hgives⟩ := ih (fun c hc => hlines c (List.mem_cons_of_mem _ hc)) hclean
        refine ⟨Lexeme.kept isIgnored ls ++ more, ?_, ?_⟩
        · exact List.forall_mem_append.mpr ⟨printable_of_cuts hreturn hchars hls, hmore⟩
        · exact List.rel_append (Lexeme.gives_of_tokens hts) hgives

end

/-! ## Lexemes of a text -/

/-- The lexemes of a text, line by line. No line ends in a carriage return. -/
def Scans (cs : List Char) (ls : List Lexeme) : Prop :=
  ∃ lss : List (List Lexeme), lss.flatten = ls ∧
    List.Forall₂ (fun line ls => Cuts line ls [] ∧ line.getLast? ≠ some '\r') (splitText cs) lss

section
variable {isIgnored : String → Bool} {cs : List Char} {ls : List Lexeme} {l : Lexeme}

theorem scans_nil : Scans [] [] := ⟨[], rfl, .nil⟩

theorem Scans.newline (h : Scans cs ls) : Scans ('\n' :: cs) ls := by
  obtain ⟨lss, rfl, hlines⟩ := h
  refine ⟨[] :: lss, rfl, ?_⟩
  rw [splitText, if_pos rfl]
  exact .cons ⟨.done [], by simp⟩ hlines

/-- What stands in front of the first line of a text is scanned with that line. -/
theorem Scans.front (as : List Char) (ms : List Lexeme) (hne : as ≠ []) (hline : '\n' ∉ as)
    (hreturn : as.getLast? ≠ some '\r')
    (hcut : ∀ ls, Cuts ((splitText cs).headD []) ls [] →
      Cuts (as ++ (splitText cs).headD []) (ms ++ ls) [])
    (h : Scans cs ls) : Scans (as ++ cs) (ms ++ ls) := by
  obtain ⟨lss, rfl, hlines⟩ := h
  rw [Scans, splitText_append hne hline]
  generalize splitText cs = lines at hcut hlines ⊢
  cases hlines with
  | nil =>
    refine ⟨[ms ++ []], by simp, .cons ⟨hcut [] (.done []), ?_⟩ .nil⟩
    rwa [List.headD_nil, List.append_nil]
  | @cons line ls lines lss hfirst hrest =>
    refine ⟨(ms ++ ls) :: lss, by simp, .cons ⟨hcut ls hfirst.1, ?_⟩ hrest⟩
    rw [List.headD_cons, List.getLast?_append]
    cases hlast : line.getLast? with
    | none => exact hreturn
    | some c =>
      have hkept := hfirst.2
      rwa [hlast] at hkept

theorem Scans.space (h : Scans cs ls) : Scans (' ' :: cs) ls :=
  h.front [' '] [] (by simp) (by decide) (by decide) fun _ hcut => hcut.space

theorem Scans.tab (h : Scans cs ls) : Scans ('\t' :: cs) (⟨.symbol, ['\t']⟩ :: ls) :=
  h.front ['\t'] [⟨.symbol, ['\t']⟩] (by simp) (by decide) (by decide) fun _ hcut =>
    Cuts.lexeme (l := ⟨.symbol, ['\t']⟩) (fun fragment => not_unclosed_tab _ fragment)
      (munches_tab _) hcut

/-- A character that may stand between the texts of tokens. -/
def IsBreak (c : Char) : Prop := c = ' ' ∨ c = '\t' ∨ c = '\n'

theorem delimits_of_break (hcs : ∀ c ∈ cs.head?, IsBreak c) :
    Delimits ((splitText cs).headD []) := by
  cases cs with
  | nil => exact fun c hc => by cases hc
  | cons c cs =>
    rw [splitText]
    by_cases hc : c = '\n'
    · rw [if_pos hc]
      exact fun d hd => by cases hd
    · rw [if_neg hc]
      rintro d ⟨⟩
      rcases hcs c rfl with h | h | h
      · exact Or.inl h
      · exact Or.inr h
      · exact absurd h hc

theorem Scans.printable (hl : l.IsPrintable isIgnored) (hcs : ∀ c ∈ cs.head?, IsBreak c)
    (h : Scans cs ls) : Scans (l.text ++ cs) (l :: ls) := by
  obtain ⟨r, hmunches⟩ := hl.munches
  have hcomment := Lexeme.not_comment_of_kept hl.not_dropped
  have hdelimits := delimits_of_break hcs
  refine h.front l.text [l] hmunches.ne_nil hl.no_newline hl.no_return fun ls hcut => ?_
  refine Cuts.lexeme (hmunches.not_unclosed hcomment hdelimits) ?_ hcut
  refine hmunches.delimited hcomment hdelimits fun hnl => ?_
  exact (List.mem_append.mp hnl).elim hl.no_newline (newline_not_mem_headD cs)

/-- Breaks in front of a text make no difference to its tokens. -/
theorem Scans.breaks (htab : isIgnored "\t" = true) {sep : List Char} (hsep : ∀ c ∈ sep, IsBreak c)
    (h : Scans cs ls) :
    ∃ ms, Scans (sep ++ cs) ms ∧ Lexeme.kept isIgnored ms = Lexeme.kept isIgnored ls := by
  induction sep with
  | nil => exact ⟨ls, h, rfl⟩
  | cons c sep ih =>
    obtain ⟨hc, hsep⟩ := List.forall_mem_cons.mp hsep
    obtain ⟨ms, hms, hkept⟩ := ih hsep
    rcases hc with rfl | rfl | rfl
    · exact ⟨ms, hms.space, hkept⟩
    · refine ⟨_, hms.tab, ?_⟩
      rw [Lexeme.kept_cons_of_dropped (by simp [Lexeme.isDropped, htab]), hkept]
    · exact ⟨ms, hms.newline, hkept⟩

/-- Texts in order, with breaks between them. -/
inductive Spaced : List String → List Char → Prop where
  | nil : Spaced [] []
  | last (text : String) : Spaced [text] text.toList
  | cons (text : String) (sep : List Char) {texts : List String} {cs : List Char} (hne : sep ≠ [])
      (hsep : ∀ c ∈ sep, IsBreak c) (hmore : texts ≠ []) (h : Spaced texts cs) :
      Spaced (text :: texts) (text.toList ++ (sep ++ cs))

theorem scans_of_spaced (htab : isIgnored "\t" = true) {texts : List String} (h : Spaced texts cs)
    (hls : ∀ l ∈ ls, l.IsPrintable isIgnored)
    (htexts : ls.map (fun l => String.ofList l.text) = texts) :
    ∃ ms, Scans cs ms ∧ Lexeme.kept isIgnored ms = ls := by
  induction h generalizing ls with
  | nil =>
    obtain rfl := List.map_eq_nil_iff.mp htexts
    exact ⟨[], scans_nil, rfl⟩
  | last text =>
    obtain ⟨l, rfl, rfl⟩ := List.map_eq_singleton_iff.mp htexts
    have hl := hls l (List.mem_singleton_self l)
    have hscans := scans_nil.printable hl (by simp)
    rw [List.append_nil] at hscans
    rw [String.toList_ofList]
    exact ⟨[l], hscans, Lexeme.kept_cons hl.not_dropped⟩
  | @cons text sep texts cs hne hsep hmore h ih =>
    obtain ⟨l, ls', rfl, rfl, rfl⟩ := List.map_eq_cons_iff.mp htexts
    obtain ⟨hl, hls'⟩ := List.forall_mem_cons.mp hls
    obtain ⟨ms, hms, hkept⟩ := ih hls' rfl
    obtain ⟨ms', hms', hkept'⟩ := hms.breaks htab hsep
    obtain ⟨c, seps, rfl⟩ := List.exists_cons_of_ne_nil hne
    have hscans := hms'.printable hl (fun d hd => by
      obtain rfl := Option.some.inj hd
      exact hsep _ List.mem_cons_self)
    rw [String.toList_ofList]
    refine ⟨l :: ms', hscans, ?_⟩
    rw [Lexeme.kept_cons hl.not_dropped, hkept', hkept]

end

/-! ## The tokens of a text -/

section
variable {isIgnored : String → Bool}

theorem exists_tokens {ls : List Lexeme} (line : Nat)
    (hgives : ∀ l ∈ Lexeme.kept isIgnored ls, ∃ t, l.Gives isIgnored t) :
    ∃ ts, Lexeme.tokens isIgnored line ls = .ok ts := by
  simp only [Lexeme.tokens_ok_iff]
  generalize Lexeme.kept isIgnored ls = kept at hgives ⊢
  induction kept with
  | nil => exact ⟨[], .nil⟩
  | cons l ls ih =>
    obtain ⟨⟨t, n, ht⟩, hmore⟩ := List.forall_mem_cons.mp hgives
    obtain ⟨ts, hts⟩ := ih hmore
    exact ⟨_ :: ts, .cons (Lexeme.token?_line ht line) hts⟩

/-- What the lines of a text give, if its lexemes that are not dropped give tokens. -/
theorem readings_of_lines {lines : List (List Char)} {lss : List (List Lexeme)}
    (hlines : ∀ line ∈ lines, '\n' ∉ line)
    (h : List.Forall₂ (fun line ls => Cuts line ls [] ∧ line.getLast? ≠ some '\r') lines lss)
    (hgives : ∀ l ∈ Lexeme.kept isIgnored lss.flatten, ∃ t, l.Gives isIgnored t) (n : Nat) :
    scanErrors (readings isIgnored n (lines.map (.text ∘ chomp))) = [] ∧
      List.Forall₂ (Lexeme.Gives isIgnored) (Lexeme.kept isIgnored lss.flatten)
        (scannedTokens (readings isIgnored n (lines.map (.text ∘ chomp)))) := by
  induction h generalizing n with
  | nil => exact ⟨rfl, .nil⟩
  | @cons line ls lines lss hfirst h ih =>
    obtain ⟨hline, hlines⟩ := List.forall_mem_cons.mp hlines
    rw [List.flatten_cons, Lexeme.kept_append] at hgives ⊢
    obtain ⟨hgives, hmore⟩ := List.forall_mem_append.mp hgives
    obtain ⟨hclean, htokens⟩ := ih hlines hmore (n + 1)
    obtain ⟨ts, hts⟩ := exists_tokens (n + 1) hgives
    have hread := (lineTokens_ok_iff hline).mpr ⟨ls, hfirst.1, hts⟩
    have hchomp : chomp line = line := if_neg hfirst.2
    rw [List.map_cons, Function.comp_apply, hchomp, readings, hread]
    exact ⟨hclean, List.rel_append (Lexeme.gives_of_tokens hts) htokens⟩

end

/-! ## The round trip -/

/-- Tokens that differ in their lines only. -/
structure Token.EqUpToLine (t t' : Token) : Prop where
  kind : t'.kind = t.kind
  text : t'.text = t.text
  value : t'.value = t.value
  isShared : t'.isShared = t.isShared

theorem Token.reserve_line (p : String → Bool) (t : Token) (n : Nat) :
    ({ t with line := n } : Token).reserve p = { t.reserve p with line := n } := by
  have hword : ({ t with line := n } : Token).word = t.word := rfl
  unfold reserve
  rw [hword]
  dsimp only
  split
  · split <;> rfl
  · split <;> rfl
  · rfl

theorem Token.eqUpToLine_reserve {p : String → Bool} {t t' : Token}
    (h : t' = { t with line := t'.line }) : Token.EqUpToLine (t.reserve p) (t'.reserve p) := by
  obtain ⟨n, rfl⟩ : ∃ n, t' = { t with line := n } := ⟨_, h⟩
  rw [reserve_line p t n]
  exact ⟨rfl, rfl, rfl, rfl⟩

section
variable {isIgnored p : String → Bool} {ls : List Lexeme} {ts ts' : List Token}

theorem texts_of_gives (h : List.Forall₂ (Lexeme.Gives isIgnored) ls ts) :
    ls.map (fun l => String.ofList l.text) = (ts.map (Token.reserve p)).map Token.text := by
  induction h with
  | nil => rfl
  | cons ht h ih =>
    obtain ⟨line, ht⟩ := ht
    rw [List.map_cons, List.map_cons, List.map_cons, ih, (readAs_of_token? ht p).text]

theorem forall₂_of_gives (h : List.Forall₂ (Lexeme.Gives isIgnored) ls ts)
    (h' : List.Forall₂ (Lexeme.Gives isIgnored) ls ts') :
    List.Forall₂ Token.EqUpToLine (ts.map (Token.reserve p)) (ts'.map (Token.reserve p)) := by
  induction h generalizing ts' with
  | nil =>
    cases h'
    exact .nil
  | cons ht h ih =>
    cases h' with
    | cons ht' h' => exact .cons (Token.eqUpToLine_reserve (ht.eq ht')) (ih h')

end

theorem isIgnored_standard (symbol : String) (h : symbol ∈ ["\t", "\r"])
    (words symbols : List String) :
    (Vocabulary.standard.extend words symbols).isIgnored symbol = true := by
  have hstandard : ∀ symbol ∈ ["\t", "\r"], Vocabulary.standard.isIgnored symbol = true := by
    simp [Vocabulary.isIgnored, Vocabulary.standard, WordSet.ofList, WordSet.contains_insertAll]
  rw [Vocabulary.isIgnored_extend, hstandard symbol h, Bool.or_true]

section
open TokenStream

/-- Whatever a source is tokenized as, the texts of its tokens with breaks between them are
tokenized as the same tokens, lines aside. -/
theorem tokens_of_spaced (words symbols : List String) (reserved : WordSet) (bytes : List UInt8)
    {ts : List Token} {s : TokenStream}
    (hscan : (ofSource (Vocabulary.standard.extend words symbols) reserved bytes).tokens = .ok ts s)
    {cs : List Char} (hcs : Spaced (ts.map Token.text) cs) : ∃ ts' s',
      (ofSource (Vocabulary.standard.extend words symbols) reserved (utf8 cs)).tokens = .ok ts' s' ∧
        List.Forall₂ Token.EqUpToLine ts ts' := by
  have htab := isIgnored_standard "\t" (by simp) words symbols
  have hreturn := isIgnored_standard "\r" (by simp) words symbols
  generalize Vocabulary.standard.extend words symbols = v at hscan htab hreturn ⊢
  -- the tokens of the source come from printable lexemes
  obtain ⟨hclean, rfl⟩ := (tokens_eq_ok_iff (classified_ofSource v reserved bytes)).mp ⟨s, hscan⟩
  obtain ⟨ls, hls, hgives⟩ := exists_printable hreturn (fun chars => newline_not_mem) hclean
  rw [upcoming_ofSource] at hcs ⊢
  -- and these are cut off the printed text again, among tabs only
  obtain ⟨ms, ⟨lss, rfl, hlines⟩, rfl⟩ := scans_of_spaced htab hcs hls (texts_of_gives hgives)
  have hreads :=
    readings_of_lines newline_not_mem_splitText hlines (exists_of_forall₂ hgives) 0
  rw [← sourceLines_utf8] at hreads
  have hprinted := classified_ofSource v reserved (utf8 cs)
  obtain ⟨s', hs'⟩ := (tokens_eq_ok_iff hprinted).mpr ⟨hreads.1, rfl⟩
  refine ⟨_, s', hs', ?_⟩
  rw [upcoming_ofSource]
  exact forall₂_of_gives hgives hreads.2

/-- Tokens that stand together with a comment between them, on three lines. -/
theorem tokens_of_spaced_sample :
    let v := Vocabulary.standard.extend ["b"] []
    let source := utf8 ['a', '-', 'b', '/', '*', '-', '*', '/', '"', 'c', ' ', '"']
    let printed := ['a', ' ', '-', '\t', '\n', 'b', '\n', '"', 'c', ' ', '"']
    let ts : List Token := [⟨.identifier, 1, "a", .absent⟩, ⟨.separator, 1, "-", .absent⟩,
      ⟨.reserved, 1, "b", .absent⟩, ⟨.string, 1, "\"c \"", .text "c "⟩]
    ∃ s, (ofSource v .empty source).tokens = .ok ts s ∧ Spaced (ts.map Token.text) printed ∧
      ∃ ts' s', (ofSource v .empty (utf8 printed)).tokens = .ok ts' s' ∧
        List.Forall₂ Token.EqUpToLine ts ts' := by
  intro v source printed ts
  obtain ⟨s, hscan⟩ : ∃ s, (ofSource v .empty source).tokens = .ok ts s := by
    refine (tokens_eq_ok_iff (classified_ofSource v .empty source)).mpr ?_
    rw [ofSource, ofBytes, sourceLines_utf8]
    decide +kernel
  have hspaced : Spaced (ts.map Token.text) printed :=
    .cons "a" [' '] (by simp) (by simp [IsBreak]) (by simp)
      (.cons "-" ['\t', '\n'] (by simp) (by simp [IsBreak]) (by simp)
        (.cons "b" ['\n'] (by simp) (by simp [IsBreak]) (by simp) (.last "\"c \"")))
  exact ⟨s, hscan, hspaced, tokens_of_spaced ["b"] [] .empty source hscan hspaced⟩

end

end HandlerGrammar
