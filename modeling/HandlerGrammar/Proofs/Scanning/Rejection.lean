import HandlerGrammar.Proofs.Scanning.Tiling

/-! # What a line is rejected for

A line gives no tokens for three reasons only: at one of its lexemes a string begins that is not
closed, or a comment, or a whole number stands there that needs more than 64 bits. Anything else is
a lexeme of some category and has its token.

* `Rejected`: these reasons, with the errors for them, `Rejected.unique`;
* `Cuts.split`: a walk by parts;
* `Lexeme.token?_eq_error_iff`, `Lexeme.tokens_eq_error`: lexemes that have no token;
* `Rejected.stuck`, `Rejected.isSuffix`: how far a walk gets that passes no error;
* `pull_rejects`: pulling fails where the walk over the line gets to something rejected, with the
  error of the leftmost such place. -/
namespace HandlerGrammar
open Text
set_option autoImplicit false

/-- The error for what a text begins with. -/
inductive Rejected (line : Nat) : List Char → LexError → Prop where
  | unclosed {cs fragment : List Char} (h : Unclosed cs fragment) :
      Rejected line cs (.unreadable line (String.ofList fragment))
  | outOfRange {cs : List Char} {l : Lexeme} (hl : Munches cs l) (hinteger : l.category = .integer)
      (hrange : Decimal.integer l.text < -9223372036854775808 ∨
        9223372036854775807 < Decimal.integer l.text) :
      Rejected line cs (.outOfRange line (String.ofList l.text))

section
variable {isIgnored : String → Bool} {line : Nat} {cs rest rest' : List Char}
  {ls ls' : List Lexeme} {l : Lexeme} {e e' : LexError}

theorem Cuts.split (h : Cuts cs (ls ++ ls') rest) : ∃ mid, Cuts cs ls mid ∧ Cuts mid ls' rest := by
  induction ls generalizing cs with
  | nil => exact ⟨cs, .done cs, h⟩
  | cons l ls ih =>
    obtain ⟨between, hspaces, hclosed, hl, hmore⟩ := h.uncons
    obtain ⟨mid, hmid, hrest⟩ := ih hmore
    exact ⟨mid, hspaces.append (hmid.lexeme hclosed hl), hrest⟩

/-! ## Lexemes without a token -/

namespace Lexeme

theorem token?_eq_error_iff : l.token? isIgnored line = .error e ↔ l.category = .integer ∧
    (Decimal.integer l.text < -9223372036854775808 ∨
      9223372036854775807 < Decimal.integer l.text) ∧
    e = .outOfRange line (String.ofList l.text) := by
  obtain ⟨category, text⟩ := l
  cases category with
  | integer =>
    simp only [token?, wholeNumber?, true_and]
    generalize Decimal.integer text = n
    by_cases hnarrow : -2147483648 ≤ n ∧ n ≤ 2147483647
    · simp only [if_pos hnarrow]
      constructor
      · intro h
        cases h
      · intro h
        exact absurd h.1 (by omega)
    · by_cases hwide : -9223372036854775808 ≤ n ∧ n ≤ 9223372036854775807
      · simp only [if_neg hnarrow, if_pos hwide]
        constructor
        · intro h
          cases h
        · intro h
          exact absurd h.1 (by omega)
      · simp only [if_neg hnarrow, if_neg hwide, Except.error.injEq]
        exact ⟨fun h => ⟨by omega, h.symm⟩, fun h => h.2.symm⟩
  | _ => simp [token?]

/-- The first lexeme that has an error. -/
theorem tokens_eq_error (h : tokens isIgnored line ls = .error e) : ∃ before l after,
    ls = before ++ l :: after ∧ l.token? isIgnored line = .error e ∧
      ∀ m ∈ before, ∀ e', m.token? isIgnored line ≠ .error e' := by
  induction ls with
  | nil => cases h
  | cons l ls ih =>
    rw [tokens] at h
    cases htoken : l.token? isIgnored line with
    | error e' =>
      rw [htoken] at h
      cases h
      exact ⟨[], l, ls, rfl, htoken, by simp⟩
    | ok shown =>
      have hmore : tokens isIgnored line ls = .error e := by
        rw [htoken] at h
        cases shown with
        | none => exact h
        | some t =>
          cases hrest : tokens isIgnored line ls with
          | error e' => rw [hrest] at h; exact h
          | ok us => rw [hrest] at h; cases h
      obtain ⟨before, m, after, rfl, hm, hbefore⟩ := ih hmore
      refine ⟨l :: before, m, after, rfl, hm, List.forall_mem_cons.mpr ⟨fun e' herror => ?_, hbefore⟩⟩
      rw [htoken] at herror
      cases herror

theorem token?_ne_error {ts : List Token} (h : tokens isIgnored line ls = .ok ts) :
    ∀ l ∈ ls, ∀ e, l.token? isIgnored line ≠ .error e := by
  intro l hl e herror
  cases hdropped : l.isDropped isIgnored with
  | true =>
    rw [token?_eq_none_iff.mpr hdropped] at herror
    cases herror
  | false =>
    obtain ⟨t, ht⟩ := exists_of_forall₂ (tokens_ok_iff.mp h) l (mem_kept.mpr ⟨hl, hdropped⟩)
    rw [ht] at herror
    cases herror

end Lexeme

/-! ## Walks to what is rejected -/

theorem Unclosed.unique {fragment fragment' : List Char} (h : Unclosed cs fragment)
    (h' : Unclosed cs fragment') : fragment = fragment' := by
  cases h <;> cases h' <;> rfl

/-- No whole number begins like a string or a comment. -/
theorem Unclosed.not_munches {fragment : List Char} (h : Unclosed cs fragment) (hl : Munches cs l) :
    l.category ≠ .integer := by
  intro hinteger
  obtain ⟨c, hc, hbegins⟩ := hl.begins
  rw [hinteger] at hbegins
  cases h <;> cases hc <;> exact absurd hbegins (by decide)

/-- A text is rejected for one thing only. -/
theorem Rejected.unique (h : Rejected line cs e) (h' : Rejected line cs e') : e = e' := by
  cases h with
  | unclosed h =>
    cases h' with
    | unclosed h' => rw [h.unique h']
    | outOfRange hl hinteger => exact absurd hinteger (h.not_munches hl)
  | outOfRange hl hinteger =>
    cases h' with
    | unclosed h' => exact absurd hinteger (h'.not_munches hl)
    | outOfRange hl' => rw [hl.eq hl']

/-- No walk goes past what is rejected, unless it takes off a lexeme that has an error. -/
theorem Rejected.stuck (hrejected : Rejected line cs e) (h : Cuts cs ls rest)
    (isIgnored : String → Bool) :
    ls = [] ∧ rest = cs ∨ ∃ l ∈ ls, ∃ e', l.token? isIgnored line = .error e' := by
  cases hrejected with
  | unclosed hopen => exact Or.inl (hopen.stuck h)
  | outOfRange hl hinteger hrange =>
    cases h with
    | done => exact Or.inl ⟨rfl, rfl⟩
    | space => exact absurd hl not_munches_space
    | lexeme _ hl' =>
      obtain rfl := hl.eq hl'
      exact Or.inr ⟨_, List.mem_cons_self, .outOfRange line _,
        Lexeme.token?_eq_error_iff.mpr ⟨hinteger, hrange, rfl⟩⟩

/-- Whatever is rejected on a line is behind the place that a walk gets to without an error. -/
theorem Rejected.isSuffix (hrejected : Rejected line rest' e') (hwalk' : Cuts cs ls' rest')
    (hwalk : Cuts cs ls rest) (hclean : ∀ l ∈ ls, ∀ e, l.token? isIgnored line ≠ .error e) :
    rest' <:+ rest := by
  rcases hwalk.comparable hwalk' with ⟨more, hmore, -⟩ | ⟨more, hmore, rfl⟩
  · exact hmore.isSuffix
  · rcases hrejected.stuck hmore isIgnored with ⟨-, rfl⟩ | ⟨l, hl, e, herror⟩
    · exact List.suffix_rfl
    · exact absurd herror (hclean l (List.mem_append_right _ hl) e)

/-- Where a line fails to be read, a walk has got to something rejected without an error. -/
theorem rejected_of_lineTokens (hcs : '\n' ∉ cs) (h : lineTokens isIgnored line cs = .error e) :
    ∃ ls rest, Cuts cs ls rest ∧ Rejected line rest e ∧
      ∀ l ∈ ls, ∀ e', l.token? isIgnored line ≠ .error e' := by
  obtain ⟨rest, hwalk, hend⟩ := exists_cuts_cut cs hcs
  unfold lineTokens at h
  dsimp only at h
  split at h
  · next htokens =>
    cases h
    obtain ⟨before, l, after, hsplit, herror, hbefore⟩ := Lexeme.tokens_eq_error htokens
    rw [hsplit] at hwalk
    obtain ⟨mid, hmid, hafter⟩ := hwalk.split
    obtain ⟨between, hspaces, -, hl, -⟩ := hafter.uncons
    obtain ⟨hinteger, hrange, rfl⟩ := Lexeme.token?_eq_error_iff.mp herror
    have happend := hmid.append hspaces
    rw [List.append_nil] at happend
    exact ⟨before, l.text ++ between, happend, .outOfRange hl hinteger hrange, hbefore⟩
  · cases h
  · next ts fragment htokens hfault =>
    cases h
    obtain ⟨hnone, -⟩ | ⟨fragment', hsome, hopen⟩ := hend
    · rw [hfault] at hnone
      cases hnone
    · obtain rfl := Option.some.inj (hfault.symm.trans hsome)
      exact ⟨(cut cs).1, rest, hwalk, .unclosed hopen, Lexeme.token?_ne_error htokens⟩

/-- A line with something rejected on it is not read. -/
theorem lineTokens_ne_ok (hcs : '\n' ∉ cs) (hwalk : Cuts cs ls rest)
    (hrejected : Rejected line rest e) (ts : List Token) : lineTokens isIgnored line cs ≠ .ok ts := by
  intro h
  obtain ⟨all, hall, htokens⟩ := (lineTokens_ok_iff hcs).mp h
  have hnil := hrejected.isSuffix hwalk hall (Lexeme.token?_ne_error htokens)
  rw [List.suffix_nil] at hnil
  subst hnil
  cases hrejected with
  | unclosed hopen => cases hopen
  | outOfRange hl => exact hl.ne_nil (List.prefix_nil.mp hl.isPrefix)

end

/-- Pulling a line fails if and only if the walk over it gets to something rejected, and the error
is that of the leftmost such place. The line counts as pulled and no token of it is buffered. -/
theorem pull_rejects {s : TokenStream} {line : List Char} {later : List SourceLine}
    (hunread : s.unread = .text line :: later) (hline : '\n' ∉ line) :
    ((∃ e s', s.pull = .error e s') ↔
      ∃ ls rest e, Cuts line ls rest ∧ Rejected (s.line + 1) rest e) ∧
    ∀ e s', s.pull = .error e s' ↔ s' = { s with unread := later, line := s.line + 1 } ∧
      ∃ ls rest, Cuts line ls rest ∧ Rejected (s.line + 1) rest e ∧
        ∀ ls' rest' e', Cuts line ls' rest' → Rejected (s.line + 1) rest' e' → rest' <:+ rest := by
  cases hread : lineTokens s.vocabulary.isIgnored (s.line + 1) line with
  | ok ts =>
    have hpull := pull_of_ok hunread hread
    have hnever : ∀ {ls rest e}, Cuts line ls rest → ¬ Rejected (s.line + 1) rest e :=
      fun hwalk hrejected => lineTokens_ne_ok hline hwalk hrejected ts hread
    rw [hpull]
    refine ⟨⟨?_, ?_⟩, fun e s' => ⟨?_, ?_⟩⟩
    · rintro ⟨e, s', h⟩
      cases h
    · rintro ⟨ls, rest, e, hwalk, hrejected⟩
      exact absurd hrejected (hnever hwalk)
    · intro h
      cases h
    · rintro ⟨-, ls, rest, hwalk, hrejected, -⟩
      exact absurd hrejected (hnever hwalk)
  | error e =>
    have hpull := pull_of_error hunread hread
    obtain ⟨ls, rest, hwalk, hrejected, hclean⟩ := rejected_of_lineTokens hline hread
    have hleftmost : ∀ ls' rest' e', Cuts line ls' rest' → Rejected (s.line + 1) rest' e' →
        rest' <:+ rest := fun _ _ _ hwalk' hrejected' => hrejected'.isSuffix hwalk' hwalk hclean
    refine ⟨⟨fun _ => ⟨ls, rest, e, hwalk, hrejected⟩, fun _ => ⟨e, _, hpull⟩⟩, fun e' s' => ⟨?_, ?_⟩⟩
    · intro h
      rw [hpull] at h
      cases h
      exact ⟨rfl, ls, rest, hwalk, hrejected, hleftmost⟩
    · rintro ⟨rfl, ls', rest', hwalk', hrejected', hleftmost'⟩
      -- each of the two places is at or behind the other
      obtain rfl : rest = rest' := (hleftmost' ls rest e hwalk hrejected).eq_of_length_le
        (hleftmost ls' rest' e' hwalk' hrejected').length_le
      rw [hpull, hrejected.unique hrejected']

/-- A string with a comment in it, a comment with a string in it, a number that is too large and a
string that is not closed: the number is what the line is rejected for. -/
theorem pull_rejects_sample :
    let line := ['"', '/', '*', '"', ' ', '/', '*', '"', '*', '/', '-', '9', '2', '2', '3', '3', '7',
      '2', '0', '3', '6', '8', '5', '4', '7', '7', '5', '8', '0', '9', '"', '\\', '"']
    let s : TokenStream := ⟨.standard, .empty, [], [.text line], 0⟩
    s.unread = [.text line] ∧ '\n' ∉ line ∧
      ((∃ e s', s.pull = .error e s') ↔
        ∃ ls rest e, Cuts line ls rest ∧ Rejected (s.line + 1) rest e) ∧
      ∀ e s', s.pull = .error e s' ↔ s' = { s with unread := [], line := s.line + 1 } ∧
        ∃ ls rest, Cuts line ls rest ∧ Rejected (s.line + 1) rest e ∧
          ∀ ls' rest' e', Cuts line ls' rest' → Rejected (s.line + 1) rest' e' → rest' <:+ rest :=
  ⟨rfl, by decide, pull_rejects rfl (by decide)⟩

end HandlerGrammar
