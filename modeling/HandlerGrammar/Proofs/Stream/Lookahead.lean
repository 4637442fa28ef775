import HandlerGrammar.Proofs.Matching.Contracts
import HandlerGrammar.Proofs.Stream.Pulling

/-! # Looking ahead in a stream

However many lines have been pulled already, looking ahead shows the same tokens: those still to be
delivered, classified by the words reserved now, and behind them the end of input on the last line.

* `upcoming`, `shown`: the tokens that a stream has to show;
* `shows_peek`: looking ahead shows them, wherever no faulty line is met;
* `upcoming_reserveAll`: reserving words reclassifies them;
* `length_upcoming`: there are at most `size` of them. -/
namespace HandlerGrammar
open Text
set_option autoImplicit false

namespace TokenStream

/-- The tokens still to be delivered, as the words reserved now classify them. -/
def upcoming (s : TokenStream) : List Token := s.pending.map (Token.reserve s.isReserved)

/-- The upcoming token at a position, or the end of input behind them all. -/
def shown (s : TokenStream) (k : Nat) : Token := s.upcoming[k]?.getD (.eof (max s.lastLine 1))

theorem Pulls.upcoming {s s' : TokenStream} {es : List LexError} (h : Pulls s es s') :
    s'.upcoming = s.upcoming := by
  unfold TokenStream.upcoming
  rw [h.pending, h.isReserved]

theorem Pulls.shown {s s' : TokenStream} {es : List LexError} (h : Pulls s es s') :
    s'.shown = s.shown := by
  funext k
  unfold TokenStream.shown
  rw [h.upcoming, h.lastLine]

theorem upcoming_eq_append {s : TokenStream} (hs : s.Classified) :
    s.upcoming = s.buffer ++ (scannedTokens s.ahead).map (Token.reserve s.isReserved) := by
  have hbuffer : (s.buffer.map Token.lexical).map (Token.reserve s.isReserved) = s.buffer := by
    rw [List.map_map]
    refine (List.map_congr_left fun t ht => ?_).trans (List.map_id s.buffer)
    obtain ⟨plain, hplain, rfl⟩ := hs t ht
    change ((plain.reserve s.isReserved).lexical).reserve s.isReserved = _
    rw [Token.lexical_reserve hplain]
    rfl
  rw [upcoming, pending, List.map_append, hbuffer]

theorem scannedTokens_isPlain {isIgnored : String → Bool} {line : Nat} {lines : List SourceLine} :
    ∀ t ∈ scannedTokens (readings isIgnored line lines), t.IsPlain := by
  induction lines generalizing line with
  | nil => exact fun t ht => nomatch ht
  | cons l lines ih =>
    intro t ht
    cases l with
    | undecodable => exact ih t ht
    | text chars =>
      rcases List.mem_append.mp ht with ht | ht
      · cases hl : lineTokens isIgnored (line + 1) chars with
        | error e => rw [hl] at ht; cases ht
        | ok tokens =>
          rw [hl] at ht
          exact lineTokens_isPlain hl t ht
      · exact ih t ht

theorem pending_isPlain {s : TokenStream} (hs : s.Classified) : ∀ t ∈ s.pending, t.IsPlain := by
  intro t ht
  rcases List.mem_append.mp ht with ht | ht
  · obtain ⟨u, hu, rfl⟩ := List.mem_map.mp ht
    obtain ⟨plain, hplain, rfl⟩ := hs u hu
    rw [Token.lexical_reserve hplain]
    exact hplain
  · exact scannedTokens_isPlain t ht

theorem upcoming_not_eof {s : TokenStream} (hs : s.Classified) :
    ∀ t ∈ s.upcoming, t.isEof = false := by
  intro t ht
  rw [upcoming_eq_append hs] at ht
  rcases List.mem_append.mp ht with ht | ht
  · exact not_eof_of_classified hs t ht
  · obtain ⟨plain, hp, rfl⟩ := List.mem_map.mp ht
    exact Token.isEof_reserve_of_isPlain (scannedTokens_isPlain plain hp)

theorem shown_isEof {s : TokenStream} (hs : s.Classified) (k : Nat) :
    (s.shown k).isEof = true ↔ s.upcoming.length ≤ k := by
  unfold shown
  by_cases hk : k < s.upcoming.length
  · have hne := upcoming_not_eof hs _ (List.getElem_mem hk)
    simp [List.getElem?_eq_getElem hk, hne]
    omega
  · simp [Nat.le_of_not_lt hk, Token.isEof, Token.eof]

/-! ## Peeking -/

theorem peek_ok {k : Nat} {s s' : TokenStream} {t : Token} (hs : s.Classified)
    (h : peek k s = .ok t s') : Pulls s [] s' ∧ t = s.shown k := by
  rw [peek_eq] at h
  cases hf : fill k s with
  | error e s₁ => rw [hf] at h; cases h
  | ok u s₁ =>
    rw [hf] at h
    cases h
    have hpulls := pulls_of_fill_ok hf
    refine ⟨hpulls, ?_⟩
    rw [← hpulls.shown, TokenStream.shown, upcoming_eq_append (hpulls.classified hs), tokenAt]
    rcases fill_enough hf with hk | hunread
    · rw [List.getElem?_append_left hk, List.getElem?_eq_getElem hk]
      rfl
    · have hahead : s'.ahead = [] := by rw [ahead, hunread]; rfl
      have hline : s'.lastLine = s'.line := by rw [lastLine, hunread]; rfl
      rw [hahead, hline]
      simp [scannedTokens, eof]

theorem peek_error {k : Nat} {s s' : TokenStream} {e : LexError} (h : peek k s = .error e s') :
    Pulls s [e] s' := by
  rw [peek_eq] at h
  cases hf : fill k s with
  | error e s₁ =>
    rw [hf] at h
    cases h
    exact pulls_of_fill_error hf
  | ok u s₁ => rw [hf] at h; cases h

/-- A stream that lines of `s` have been pulled from shows what `s` shows, or stops at one of the
errors still to be met. -/
theorem shows_peek {s : TokenStream} (hs : s.Classified) :
    Shows (fun s' => ∃ es, Pulls s es s') peek s.shown (fun e => ∃ l ∈ s.faults, e = .lexical l) := by
  intro k p ⟨es, hp⟩
  unfold HandlerGrammar.tokenAt
  cases h : peek k p.source with
  | ok t s' =>
    obtain ⟨hpulls, ht⟩ := peek_ok (hp.classified hs) h
    rw [hp.shown] at ht
    exact ⟨⟨_, hp.trans hpulls⟩, ht⟩
  | error e s' =>
    have hpulls := hp.trans (peek_error h)
    exact ⟨⟨_, hpulls⟩, e, by simp [hpulls.faults], rfl⟩

/-! ## Reserving words -/

theorem reserveAll_spec {s : TokenStream} (hs : s.Classified) (words : List String) :
    (s.reserveAll words).Classified ∧ (s.reserveAll words).pending = s.pending ∧
    (s.reserveAll words).faults = s.faults ∧
    (s.reserveAll words).lastLine = s.lastLine ∧
    ∀ w, (s.reserveAll words).isReserved w = (s.isReserved w || words.contains w) := by
  induction words generalizing s with
  | nil => exact ⟨hs, rfl, rfl, rfl, fun w => (Bool.or_false _).symm⟩
  | cons word words ih =>
    obtain ⟨hc, hp, hf, hl, hr⟩ := ih (classified_reserve hs word)
    refine ⟨hc, hp.trans (pending_reserve hs word), hf, hl, fun w => ?_⟩
    have h : (s.reserveAll (word :: words)).isReserved w =
        ((s.reserve word).isReserved w || words.contains w) := hr w
    rw [h, isReserved_reserve, List.contains_cons, Bool.or_assoc]

/-! ## The number of tokens -/

theorem length_cutFrom (cs : List Char) (skip : Nat) : (cutFrom skip cs).1.length ≤ cs.length := by
  induction cs generalizing skip with
  | nil => exact Nat.le_refl _
  | cons c cs ih =>
    have hcons : (c :: cs).length = cs.length + 1 := rfl
    unfold cutFrom
    cases skip with
    | succ skip =>
      have h := ih skip
      dsimp only
      omega
    | zero =>
      dsimp only
      split
      · have h := ih 0
        omega
      · split
        · exact Nat.zero_le _
        · have h := ih ((munch (c :: cs)).2 - 1)
          simp only [List.length_cons]
          omega

theorem length_lexemeTokens {isIgnored : String → Bool} {line : Nat} {ls : List Lexeme}
    {ts : List Token} (h : Lexeme.tokens isIgnored line ls = .ok ts) : ts.length ≤ ls.length := by
  induction ls generalizing ts with
  | nil => cases h; exact Nat.le_refl _
  | cons l ls ih =>
    unfold Lexeme.tokens at h
    split at h
    · cases h
    · have hle := ih h
      simp only [List.length_cons]
      omega
    · cases hrest : Lexeme.tokens isIgnored line ls with
      | error e => rw [hrest] at h; cases h
      | ok rest =>
        rw [hrest] at h
        cases h
        have hle := ih hrest
        simp only [List.length_cons]
        omega

theorem length_lineTokens {isIgnored : String → Bool} {line : Nat} {text : List Char}
    {ts : List Token} (h : lineTokens isIgnored line text = .ok ts) : ts.length ≤ text.length := by
  unfold lineTokens at h
  dsimp only at h
  split at h
  · cases h
  · next hts _ =>
    cases h
    exact Nat.le_trans (length_lexemeTokens hts) (length_cutFrom text 0)
  · cases h

theorem length_scannedTokens (isIgnored : String → Bool) (line : Nat) (lines : List SourceLine)
    (k : Nat) : (scannedTokens (readings isIgnored line lines)).length + k ≤
      lines.foldr (fun l n => l.size + n) k := by
  induction lines generalizing line with
  | nil => exact Nat.le_of_eq (Nat.zero_add k)
  | cons l lines ih =>
    cases l with
    | undecodable =>
      have h := ih line
      simpa [readings, scannedTokens, SourceLine.size, Except.toOption] using h
    | text chars =>
      have h := ih (line + 1)
      have hline : ((lineTokens isIgnored (line + 1) chars).toOption.getD []).length ≤
          chars.length := by
        cases hl : lineTokens isIgnored (line + 1) chars with
        | error e => exact Nat.zero_le _
        | ok tokens => exact length_lineTokens hl
      have hsize : (SourceLine.text chars).size = chars.length := rfl
      simp only [scannedTokens] at h
      simp only [readings, scannedTokens, List.flatMap_cons, List.length_append, List.foldr_cons, hsize]
      omega

theorem length_upcoming (s : TokenStream) : s.upcoming.length ≤ s.size := by
  have h := length_scannedTokens s.vocabulary.isIgnored s.line s.unread s.buffer.length
  simp only [upcoming, pending, ahead, size, List.length_map, List.length_append]
  omega

end TokenStream
end HandlerGrammar
