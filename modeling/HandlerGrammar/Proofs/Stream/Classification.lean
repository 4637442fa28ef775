import HandlerGrammar.TokenStream

/-! # Classification of buffered tokens

Scanning gives plain tokens, which no reserved word has touched yet. A stream buffers them as the
words that are reserved now make them, and reserving or releasing a word keeps this, however long
ago a token was scanned:

* `Token.IsPlain`: the tokens that scanning gives, `lineTokens_isPlain`;
* `forall_lineTokens`: what holds of the token of every lexeme holds of those of a line;
* `Token.lexical_reserve`, `Token.release_reserve`: a plain token is recovered from what reserving
  made of it, and releasing a word undoes reserving that word;
* `TokenStream.Classified`: the buffer is classified by the words reserved now;
* `classified_reserve`, `classified_release`: it stays so. -/
namespace HandlerGrammar
open Text
set_option autoImplicit false

/-! ## Plain tokens -/

namespace Token

/-- A token as scanning gives it: a string has its content, an identifier and a separator have none,
and neither a reserved word nor the end of input is among them. -/
structure IsPlain (t : Token) : Prop where
  not_reserved : t.kind ≠ .reserved
  not_eof : t.kind ≠ .eof
  string_value : t.kind = .string → ∃ content, t.value = .text content
  identifier_value : t.kind = .identifier → t.value = .absent
  separator_value : t.kind = .separator → t.value = .absent

/-- Whether the token is a quoted string or a word, reserved or not. -/
def isWord (t : Token) : Bool :=
  t.kind == .string || t.kind == .identifier || t.kind == .reserved

@[simp] theorem word_kind (t : Token) (kind : Kind) : ({ t with kind } : Token).word = t.word := rfl

theorem reserve_of_isReserved {p : String → Bool} {t : Token}
    (hk : t.kind = .string ∨ t.kind = .identifier) (hp : p t.word = true) :
    t.reserve p = { t with kind := .reserved } := by
  rcases hk with hk | hk <;> simp [reserve, hk, hp]

theorem reserve_of_not_isReserved {p : String → Bool} {t : Token} (hp : p t.word = false) :
    t.reserve p = t := by
  unfold reserve
  split <;> simp [hp]

theorem reserve_of_other {p : String → Bool} {t : Token} (hs : t.kind ≠ .string)
    (hi : t.kind ≠ .identifier) : t.reserve p = t := by
  unfold reserve
  split
  · contradiction
  · contradiction
  · rfl

theorem reserve_eq (p : String → Bool) (t : Token) : t.reserve p = t ∨
    (t.kind = .string ∨ t.kind = .identifier) ∧ t.reserve p = { t with kind := .reserved } := by
  by_cases hk : t.kind = .string ∨ t.kind = .identifier
  · cases hp : p t.word with
    | true => exact Or.inr ⟨hk, reserve_of_isReserved hk hp⟩
    | false => exact Or.inl (reserve_of_not_isReserved hp)
  · obtain ⟨hs, hi⟩ := not_or.mp hk
    exact Or.inl (reserve_of_other hs hi)

@[simp] theorem word_reserve (p : String → Bool) (t : Token) : (t.reserve p).word = t.word := by
  unfold reserve
  split
  · split <;> rfl
  · split <;> rfl
  · rfl

theorem line_reserve (p : String → Bool) (t : Token) : (t.reserve p).line = t.line := by
  rcases reserve_eq p t with h | ⟨-, h⟩ <;> rw [h]

theorem value_reserve (p : String → Bool) (t : Token) : (t.reserve p).value = t.value := by
  rcases reserve_eq p t with h | ⟨-, h⟩ <;> rw [h]

theorem isEof_reserve_of_isPlain {p : String → Bool} {t : Token} (ht : t.IsPlain) :
    (t.reserve p).isEof = false := by
  have hne : (t.reserve p).kind ≠ .eof := by
    unfold reserve
    split
    · split <;> simp [ht.not_eof]
    · split <;> simp [ht.not_eof]
    · exact ht.not_eof
  simpa [isEof] using hne

/-- Reserving makes nothing but reserved words. -/
theorem reserve_of_kind_ne {p : String → Bool} {t : Token} (h : (t.reserve p).kind ≠ .reserved) :
    t.reserve p = t := by
  rcases reserve_eq p t with hsame | ⟨-, hreserved⟩
  · exact hsame
  · rw [hreserved] at h
    exact absurd rfl h

theorem reserve_reserve (p q : String → Bool) (t : Token) :
    (t.reserve p).reserve q = t.reserve (fun w => p w || q w) := by
  by_cases hk : t.kind = .string ∨ t.kind = .identifier
  · cases hp : p t.word with
    | true =>
      rw [reserve_of_isReserved hk hp, reserve_of_isReserved hk (by simp [hp])]
      exact reserve_of_other (by simp) (by simp)
    | false =>
      rw [reserve_of_not_isReserved hp]
      simp only [reserve, hp, Bool.false_or]
  · obtain ⟨hs, hi⟩ := not_or.mp hk
    rw [reserve_of_other hs hi, reserve_of_other hs hi, reserve_of_other hs hi]

theorem reserve_congr {p q : String → Bool} {t : Token} (h : p t.word = q t.word) :
    t.reserve p = t.reserve q := by
  simp only [reserve, h]

/-- The kind under reserving tells whether the word is reserved. -/
theorem kind_reserve_eq_reserved {p : String → Bool} {t : Token} (ht : t.IsPlain)
    (hw : (t.reserve p).isWord = true) : (t.reserve p).kind = .reserved ↔ p t.word = true := by
  by_cases hk : t.kind = .string ∨ t.kind = .identifier
  · cases hp : p t.word with
    | true => simp [reserve_of_isReserved hk hp]
    | false => simp [reserve_of_not_isReserved hp, ht.not_reserved]
  · obtain ⟨hs, hi⟩ := not_or.mp hk
    rw [reserve_of_other hs hi] at hw
    simp [isWord, hs, hi, ht.not_reserved] at hw

theorem lexical_of_not_reserved {t : Token} (h : t.kind ≠ .reserved) : t.lexical = t := by
  unfold lexical
  split
  · exact absurd ‹_› h
  · exact absurd ‹_› h
  · rfl

theorem lexical_reserve {p : String → Bool} {t : Token} (ht : t.IsPlain) :
    (t.reserve p).lexical = t := by
  have hsame : t.lexical = t := lexical_of_not_reserved ht.not_reserved
  by_cases hk : t.kind = .string ∨ t.kind = .identifier
  · cases hp : p t.word with
    | true =>
      rw [reserve_of_isReserved hk hp]
      rcases hk with hk | hk
      · obtain ⟨content, hv⟩ := ht.string_value hk
        calc ({ t with kind := .reserved } : Token).lexical = { t with kind := .string } := by
              simp [lexical, hv]
          _ = t := by rw [← hk]
      · calc ({ t with kind := .reserved } : Token).lexical = { t with kind := .identifier } := by
              simp [lexical, ht.identifier_value hk]
          _ = t := by rw [← hk]
    | false => rw [reserve_of_not_isReserved hp, hsame]
  · obtain ⟨hs, hi⟩ := not_or.mp hk
    rw [reserve_of_other hs hi, hsame]

theorem lexical_lexical (t : Token) : t.lexical.lexical = t.lexical := by
  obtain ⟨kind, line, text, value⟩ := t
  cases kind <;> cases value <;> rfl

theorem line_lexical (t : Token) : t.lexical.line = t.line := by
  unfold lexical
  split <;> rfl

theorem lexical_release (w : String) (t : Token) : (t.release w).lexical = t.lexical := by
  unfold release
  split
  · exact lexical_lexical t
  · rfl

/-- Releasing a word leaves a plain token as the other reserved words make it. -/
theorem release_reserve {p : String → Bool} {t : Token} (ht : t.IsPlain) (w : String) :
    (t.reserve p).release w = t.reserve (fun x => x != w && p x) := by
  unfold release
  by_cases hw : t.word = w
  · have hplain : t.reserve (fun x => x != w && p x) = t := reserve_of_not_isReserved (by simp [hw])
    rw [hplain]
    split
    · exact lexical_reserve ht
    · next h =>
      simp only [word_reserve, hw, and_true] at h
      by_cases hk : t.kind = .string ∨ t.kind = .identifier
      · cases hp : p t.word with
        | true => exact absurd (by rw [reserve_of_isReserved hk hp]) h
        | false => exact reserve_of_not_isReserved hp
      · obtain ⟨hs, hi⟩ := not_or.mp hk
        exact reserve_of_other hs hi
  · rw [if_neg (by simp [hw])]
    exact reserve_congr (by simp [hw])

end Token

/-! ## Scanned lines -/

theorem token?_isPlain {isIgnored : String → Bool} {line : Nat} {l : Lexeme} {t : Token}
    (h : l.token? isIgnored line = .ok (some t)) : t.IsPlain := by
  unfold Lexeme.token? at h
  split at h
  · cases h
  · next hc =>
    simp only [Except.ok.injEq, Option.some.injEq] at h
    subst h
    unfold realNumber
    dsimp only
    split <;> exact ⟨by simp, by simp, by simp, by simp, by simp⟩
  · next hc =>
    split at h
    · next kind value hn =>
      simp only [Except.ok.injEq, Option.some.injEq] at h
      subst h
      unfold wholeNumber? at hn
      split at hn
      · cases hn
        exact ⟨by simp, by simp, by simp, by simp, by simp⟩
      · split at hn
        · cases hn
          exact ⟨by simp, by simp, by simp, by simp, by simp⟩
        · cases hn
    · cases h
  all_goals
    simp only [Except.ok.injEq] at h
    try split at h
    all_goals
      cases h
      try exact ⟨by simp, by simp, by simp, by simp, by simp⟩

theorem line_of_token? {isIgnored : String → Bool} {line : Nat} {l : Lexeme} {t : Token}
    (h : l.token? isIgnored line = .ok (some t)) : t.line = line := by
  unfold Lexeme.token? at h
  dsimp only at h
  split at h
  all_goals try split at h
  all_goals
    cases h
    try rfl

/-- What holds of the token of every lexeme holds of the tokens of a line. -/
theorem forall_lineTokens {P : Token → Prop} {isIgnored : String → Bool} {line : Nat}
    (hP : ∀ (l : Lexeme) (t : Token), l.token? isIgnored line = .ok (some t) → P t)
    {text : List Char} {ts : List Token} (h : lineTokens isIgnored line text = .ok ts) :
    ∀ t ∈ ts, P t := by
  have htokens : ∀ {ls : List Lexeme} {ts : List Token},
      Lexeme.tokens isIgnored line ls = .ok ts → ∀ t ∈ ts, P t := by
    intro ls ts h
    induction ls generalizing ts with
    | nil => cases h; simp
    | cons l ls ih =>
      unfold Lexeme.tokens at h
      split at h
      · cases h
      · exact ih h
      · next t ht =>
        cases hrest : Lexeme.tokens isIgnored line ls with
        | error e => rw [hrest] at h; cases h
        | ok rest =>
          rw [hrest] at h
          cases h
          exact List.forall_mem_cons.mpr ⟨hP l t ht, ih hrest⟩
  unfold lineTokens at h
  dsimp only at h
  split at h
  · cases h
  · next hts _ => cases h; exact htokens hts
  · cases h

theorem lineTokens_isPlain {isIgnored : String → Bool} {line : Nat} {text : List Char}
    {ts : List Token} (h : lineTokens isIgnored line text = .ok ts) : ∀ t ∈ ts, t.IsPlain :=
  forall_lineTokens (fun _ _ => token?_isPlain) h

/-! ## Classified buffers -/

namespace TokenStream

/-- Each token in the buffer is a plain token as the words that are reserved now make it. -/
def Classified (s : TokenStream) : Prop :=
  ∀ t ∈ s.buffer, ∃ plain : Token, plain.IsPlain ∧ t = plain.reserve s.isReserved

theorem classified_ofLines (v : Vocabulary) (lines : List SourceLine) :
    (ofLines v lines).Classified := by
  intro t ht
  cases ht

theorem not_eof_of_classified {s : TokenStream} (hs : s.Classified) :
    ∀ t ∈ s.buffer, t.isEof = false := by
  intro t ht
  obtain ⟨plain, hplain, rfl⟩ := hs t ht
  exact Token.isEof_reserve_of_isPlain hplain

theorem isReserved_reserve (s : TokenStream) (w x : String) :
    (s.reserve w).isReserved x = (s.isReserved x || x == w) := by
  simp only [isReserved, reserve, WordSet.contains_insert]
  rw [Bool.or_assoc, Bool.or_comm (x == w)]

theorem isReserved_release (s : TokenStream) (w x : String) :
    (s.release w).isReserved x = (s.vocabulary.isReserved x || x != w && s.reserved.contains x) := by
  unfold release
  dsimp only
  split <;> simp [isReserved]

theorem classified_reserve {s : TokenStream} (hs : s.Classified) (w : String) :
    (s.reserve w).Classified := by
  intro t ht
  obtain ⟨u, hu, rfl⟩ := List.mem_map.mp ht
  obtain ⟨plain, hplain, rfl⟩ := hs u hu
  refine ⟨plain, hplain, ?_⟩
  rw [Token.reserve_reserve]
  exact Token.reserve_congr (isReserved_reserve s w _).symm

theorem classified_release {s : TokenStream} (hs : s.Classified) (w : String) :
    (s.release w).Classified := by
  intro t ht
  have hnow := isReserved_release s w
  unfold release at ht hnow ⊢
  dsimp only at ht hnow ⊢
  split at ht
  · next hw =>
    rw [if_pos hw] at hnow ⊢
    obtain ⟨u, hu, rfl⟩ := List.mem_map.mp ht
    obtain ⟨plain, hplain, rfl⟩ := hs u hu
    refine ⟨plain, hplain, ?_⟩
    rw [Token.release_reserve hplain]
    apply Token.reserve_congr
    rw [hnow]
    by_cases hx : plain.word = w
    · simpa [hx] using hw.2
    · simp [bne_iff_ne.mpr hx, isReserved]
  · next hw =>
    rw [if_neg hw] at hnow ⊢
    obtain ⟨plain, hplain, rfl⟩ := hs t ht
    refine ⟨plain, hplain, Token.reserve_congr ?_⟩
    rw [hnow]
    by_cases hx : plain.word = w
    · cases hc : s.reserved.contains w <;> simp_all [isReserved]
    · simp [bne_iff_ne.mpr hx, isReserved]

/-- Classification depends on the buffer and the reserved words only. -/
theorem classified_congr {s s' : TokenStream} (hb : s'.buffer = s.buffer)
    (hv : s'.vocabulary = s.vocabulary) (hr : s'.reserved = s.reserved) (hs : s.Classified) :
    s'.Classified := by
  intro t ht
  obtain ⟨plain, hplain, rfl⟩ := hs t (hb ▸ ht)
  exact ⟨plain, hplain, Token.reserve_congr (by simp only [isReserved, hv, hr])⟩

end TokenStream
end HandlerGrammar
