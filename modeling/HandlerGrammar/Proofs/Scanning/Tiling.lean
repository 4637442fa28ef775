import HandlerGrammar.Proofs.Scanning.Cutting
import HandlerGrammar.Proofs.Stream.Pulling

/-! # A line is tiled by its lexemes

Pulling a line takes the longest lexemes off it, one after another and up to its end, and buffers
the tokens of those that are no comments and no ignored symbols.

* `Lexeme.kept`: the lexemes that are neither comments nor ignored symbols;
* `Lexeme.tokens_ok_iff`: the tokens of lexemes are those of the kept ones, one for one;
* `ReadAs`: what token a lexeme shows as, `readAs_of_token?`;
* `lineTokens_ok_iff`, `pull_tiles`: what a line that scans gives. -/
namespace HandlerGrammar
open Text
set_option autoImplicit false

theorem exists_of_forall₂ {α β : Type} {R : α → β → Prop} {as : List α} {bs : List β}
    (h : List.Forall₂ R as bs) : ∀ a ∈ as, ∃ b, R a b := by
  induction h with
  | nil => simp
  | cons hab h ih => exact List.forall_mem_cons.mpr ⟨⟨_, hab⟩, ih⟩

namespace Lexeme

/-! ## Lexemes that give tokens -/

/-- Whether a lexeme gives no token. -/
def isDropped (isIgnored : String → Bool) (l : Lexeme) : Bool :=
  l.category == .comment || l.category == .symbol && isIgnored (String.ofList l.text)

/-- The lexemes that give tokens. -/
def kept (isIgnored : String → Bool) (ls : List Lexeme) : List Lexeme :=
  ls.filter (!·.isDropped isIgnored)

section
variable {isIgnored : String → Bool} {line : Nat} {l : Lexeme} {ls ms : List Lexeme}

theorem kept_cons_of_dropped (h : l.isDropped isIgnored = true) :
    kept isIgnored (l :: ls) = kept isIgnored ls := List.filter_cons_of_neg (by simp [h])

theorem kept_cons (h : l.isDropped isIgnored = false) :
    kept isIgnored (l :: ls) = l :: kept isIgnored ls := List.filter_cons_of_pos (by simp [h])

theorem kept_append : kept isIgnored (ls ++ ms) = kept isIgnored ls ++ kept isIgnored ms :=
  List.filter_append ls ms

theorem mem_kept : l ∈ kept isIgnored ls ↔ l ∈ ls ∧ l.isDropped isIgnored = false := by
  rw [kept, List.mem_filter, Bool.not_eq_true']

theorem token?_eq_none_iff :
    l.token? isIgnored line = .ok none ↔ l.isDropped isIgnored = true := by
  obtain ⟨category, text⟩ := l
  cases category with
  | integer =>
    simp only [token?, isDropped]
    split <;> simp
  | symbol =>
    simp only [token?, isDropped]
    split <;> simp_all
  | _ => simp [token?, isDropped]

/-- The tokens of lexemes are those of the kept ones, one for one. -/
theorem tokens_ok_iff {ts : List Token} : tokens isIgnored line ls = .ok ts ↔
    List.Forall₂ (fun l t => l.token? isIgnored line = .ok (some t)) (kept isIgnored ls) ts := by
  induction ls generalizing ts with
  | nil =>
    rw [tokens, kept, List.filter_nil, List.forall₂_nil_left_iff, Except.ok.injEq, eq_comm]
  | cons l ls ih =>
    cases hdropped : l.isDropped isIgnored with
    | true =>
      rw [tokens, token?_eq_none_iff.mpr hdropped, kept_cons_of_dropped hdropped]
      exact ih
    | false =>
      rw [kept_cons hdropped, List.forall₂_cons_left_iff, tokens]
      cases htoken : l.token? isIgnored line with
      | error e => simp
      | ok shown =>
        cases shown with
        | none =>
          rw [token?_eq_none_iff.mp htoken] at hdropped
          cases hdropped
        | some t =>
          constructor
          · intro h
            cases hrest : tokens isIgnored line ls with
            | error e => rw [hrest] at h; cases h
            | ok us =>
              rw [hrest] at h
              cases h
              exact ⟨t, us, rfl, ih.mp hrest, rfl⟩
          · rintro ⟨u, us, ht, hus, rfl⟩
            obtain rfl := Option.some.inj (Except.ok.inj ht)
            rw [ih.mpr hus]
            rfl

end

/-! ## What the tokens show -/

/-- What a lexeme spells: the content of a string, the text of anything else. -/
def word (l : Lexeme) : String :=
  match l.category with
  | .string => String.ofList (decode (unquote l.text))
  | _ => String.ofList l.text

/-- The kinds that a lexeme may show as, depending on whether its word is reserved. -/
def kinds (reserved : Bool) (l : Lexeme) : List Kind :=
  match l.category with
  | .comment => []
  | .float => [.float, .double]
  | .integer =>
    if -2147483648 ≤ Decimal.integer l.text ∧ Decimal.integer l.text ≤ 2147483647 then [.integer]
    else [.long]
  | .bool => [.bool]
  | .string => if reserved then [.reserved] else [.string]
  | .word => if reserved then [.reserved] else [.identifier]
  | .symbol => [.separator]

end Lexeme

/-- A token that shows a lexeme of a line, classified by the words that are reserved. -/
structure ReadAs (isReserved : String → Bool) (line : Nat) (l : Lexeme) (t : Token) : Prop where
  text : t.text = String.ofList l.text
  line : t.line = line
  word : t.word = l.word
  kind : t.kind ∈ l.kinds (isReserved l.word)

theorem readAs_of_token? {isIgnored : String → Bool} {line : Nat} {l : Lexeme} {t : Token}
    (h : l.token? isIgnored line = .ok (some t)) (isReserved : String → Bool) :
    ReadAs isReserved line l (t.reserve isReserved) := by
  obtain ⟨category, text⟩ := l
  cases category with
  | comment => cases h
  | float =>
    simp only [Lexeme.token?, Except.ok.injEq, Option.some.injEq] at h
    subst h
    unfold realNumber
    dsimp only
    split <;> exact ⟨rfl, rfl, rfl, by simp [Lexeme.kinds, Token.reserve]⟩
  | integer =>
    simp only [Lexeme.token?, wholeNumber?] at h
    by_cases hnarrow : -2147483648 ≤ Decimal.integer text ∧ Decimal.integer text ≤ 2147483647
    · simp only [if_pos hnarrow] at h
      cases h
      exact ⟨rfl, rfl, rfl, by simp [Lexeme.kinds, Token.reserve, hnarrow]⟩
    · simp only [if_neg hnarrow] at h
      split at h
      · next hwide =>
        split at hwide
        · cases hwide
          cases h
          exact ⟨rfl, rfl, rfl, by simp only [Lexeme.kinds, if_neg hnarrow]; simp [Token.reserve]⟩
        · cases hwide
      · cases h
  | bool =>
    cases h
    exact ⟨rfl, rfl, rfl, by simp [Lexeme.kinds, Token.reserve]⟩
  | string =>
    cases h
    cases hreserved : isReserved (String.ofList (decode (unquote text))) with
    | true =>
      rw [Token.reserve_of_isReserved (Or.inl rfl) hreserved]
      exact ⟨rfl, rfl, rfl, by simp [Lexeme.kinds, Lexeme.word, hreserved]⟩
    | false =>
      rw [Token.reserve_of_not_isReserved hreserved]
      exact ⟨rfl, rfl, rfl, by simp [Lexeme.kinds, Lexeme.word, hreserved]⟩
  | word =>
    cases h
    cases hreserved : isReserved (String.ofList text) with
    | true =>
      rw [Token.reserve_of_isReserved (Or.inr rfl) hreserved]
      exact ⟨rfl, rfl, rfl, by simp [Lexeme.kinds, Lexeme.word, hreserved]⟩
    | false =>
      rw [Token.reserve_of_not_isReserved hreserved]
      exact ⟨rfl, rfl, rfl, by simp [Lexeme.kinds, Lexeme.word, hreserved]⟩
  | symbol =>
    simp only [Lexeme.token?] at h
    split at h
    · cases h
    · cases h
      exact ⟨rfl, rfl, rfl, by simp [Lexeme.kinds, Token.reserve]⟩

/-! ## Lines -/

theorem lineTokens_ok_iff {isIgnored : String → Bool} {line : Nat} {text : List Char}
    {ts : List Token} (htext : '\n' ∉ text) : lineTokens isIgnored line text = .ok ts ↔
      ∃ ls, Cuts text ls [] ∧ Lexeme.tokens isIgnored line ls = .ok ts := by
  constructor
  · intro h
    unfold lineTokens at h
    dsimp only at h
    split at h
    · cases h
    · next hts hnone =>
      cases h
      exact ⟨(cut text).1, (cut_complete_iff htext).mp (Prod.ext rfl hnone), hts⟩
    · cases h
  · rintro ⟨ls, hls, hts⟩
    rw [lineTokens, (cut_complete_iff htext).mpr hls]
    dsimp only
    rw [hts]

section
variable {s s' : TokenStream} {line : List Char} {later : List SourceLine}

/-- A line that scans is made up of spaces and of longest lexemes, in one way only. What is buffered
are the tokens of those that are kept. -/
theorem pull_tiles (hunread : s.unread = .text line :: later) (hline : '\n' ∉ line)
    (hpull : s.pull = .ok () s') : ∃ ls ts,
      Cuts line ls [] ∧ (∀ ls', Cuts line ls' [] → ls' = ls) ∧
      List.Forall₂ (ReadAs s.isReserved (s.line + 1)) (Lexeme.kept s.vocabulary.isIgnored ls) ts ∧
      s' = { s with unread := later, line := s.line + 1, buffer := s.buffer ++ ts } := by
  cases hread : lineTokens s.vocabulary.isIgnored (s.line + 1) line with
  | error e =>
    rw [pull_of_error hunread hread] at hpull
    cases hpull
  | ok plain =>
    rw [pull_of_ok hunread hread] at hpull
    cases hpull
    obtain ⟨ls, hls, htokens⟩ := (lineTokens_ok_iff hline).mp hread
    have hunique : ∀ ls', Cuts line ls' [] → ls' = ls := fun ls' hls' => hls'.unique hls
    refine ⟨ls, plain.map (Token.reserve s.isReserved), hls, hunique, ?_, rfl⟩
    rw [List.forall₂_map_right_iff]
    exact (Lexeme.tokens_ok_iff.mp htokens).imp fun l t ht => readAs_of_token? ht s.isReserved

end

/-- A number that stops at its point, an operator, a reserved word, an ignored symbol, a comment
with a star more and a string, with one space between them all. -/
theorem pull_tiles_sample :
    let line := ['1', '.', '-', '>', 'i', 'f', '\t', '/', '*', '-', '*', '*', '/', ' ',
      '"', '\\', '"', '"']
    let s : TokenStream := ⟨.standard, .ofList ["if"], [], [.text line], 0⟩
    s.unread = [.text line] ∧ '\n' ∉ line ∧ ∃ s', s.pull = .ok () s' ∧ ∃ ls ts,
      Cuts line ls [] ∧ (∀ ls', Cuts line ls' [] → ls' = ls) ∧
      List.Forall₂ (ReadAs s.isReserved (s.line + 1)) (Lexeme.kept s.vocabulary.isIgnored ls) ts ∧
      s' = { s with unread := [], line := s.line + 1, buffer := s.buffer ++ ts } :=
  ⟨rfl, by decide, _, rfl, pull_tiles rfl (by decide) rfl⟩

end HandlerGrammar
