import Mathlib.Order.Nat
import HandlerGrammar.Proofs.Stream.View

/-! # Refilling the buffer

Looking `k` tokens ahead pulls lines as long as the buffer has no more than `k` tokens. How many
lines that takes can be told from the source before any is pulled: a line that does not scan has no
tokens, and looking ahead fails exactly if one of the lines it takes is such a line.

* `stock`, `Needs`: how many tokens lines give and how many lines are needed, `exists_needs`;
* `pulled`, `pull_cons`: the stream behind lines that scan, and what one line does;
* `fillFrom_runs`: refilling pulls the lines needed or stops at the first faulty one among them;
* `AtHand`: a token that needs no more lines stays at hand until as many tokens are read;
* `lookahead_pulls_least`: all this for looking ahead and reading. -/
namespace HandlerGrammar
open Text
set_option autoImplicit false

namespace TokenStream

/-! ## The lines needed -/

/-- How many tokens the buffer and the next `n` lines have. -/
def stock (s : TokenStream) (n : Nat) : Nat :=
  s.buffer.length + (scannedTokens (s.ahead.take n)).length

/-- `n` is the least number of lines with which there are more than `k` tokens, or the number of all
lines if there are never more. -/
def Needs (s : TokenStream) (k n : Nat) : Prop :=
  (k < s.stock n ∧ ∀ m < n, s.stock m ≤ k) ∨ ((∀ m, s.stock m ≤ k) ∧ n = s.unread.length)

/-- The stream behind the next `n` lines if all of them scan. -/
def pulled (s : TokenStream) (n : Nat) : TokenStream :=
  { s with
    unread := s.unread.drop n
    line := s.line + n
    buffer := s.buffer ++ (scannedTokens (s.ahead.take n)).map (Token.reserve s.isReserved) }

section
variable {s s' : TokenStream} {k n : Nat}

theorem pulled_zero (s : TokenStream) : s.pulled 0 = s := by
  simp [pulled, scannedTokens]

theorem length_readings (isIgnored : String → Bool) (line : Nat) (lines : List SourceLine) :
    (readings isIgnored line lines).length = lines.length := by
  induction lines generalizing line with
  | nil => rfl
  | cons l lines ih => cases l <;> simp [readings, ih]

theorem length_ahead (s : TokenStream) : s.ahead.length = s.unread.length := length_readings ..

/-- Behind the last line nothing is added. -/
theorem stock_le (s : TokenStream) (n : Nat) : s.stock n ≤ s.stock s.unread.length := by
  have hsplit : scannedTokens s.ahead =
      scannedTokens (s.ahead.take n) ++ scannedTokens (s.ahead.drop n) := by
    rw [scannedTokens, scannedTokens, scannedTokens, ← List.flatMap_append, List.take_append_drop]
  rw [stock, stock, ← length_ahead, List.take_length, hsplit, List.length_append]
  omega

theorem Needs.le (h : s.Needs k n) : n ≤ s.unread.length := by
  rcases h with ⟨hn, hleast⟩ | ⟨-, rfl⟩
  · by_contra hlt
    have hle := hleast _ (Nat.lt_of_not_le hlt)
    have hstock := s.stock_le n
    omega
  · exact Nat.le_refl _

theorem Needs.unique {m : Nat} (h : s.Needs k n) (h' : s.Needs k m) : m = n := by
  rcases h with ⟨hn, hleast⟩ | ⟨hnone, rfl⟩ <;> rcases h' with ⟨hm, hleast'⟩ | ⟨hnone', rfl⟩
  · have hnm : ¬ n < m := fun hlt => absurd (hleast' n hlt) (Nat.not_le_of_lt hn)
    have hmn : ¬ m < n := fun hlt => absurd (hleast m hlt) (Nat.not_le_of_lt hm)
    omega
  · exact absurd (hnone' n) (Nat.not_le_of_lt hn)
  · exact absurd (hnone m) (Nat.not_le_of_lt hm)
  · rfl

theorem exists_needs (s : TokenStream) (k : Nat) : ∃ n, s.Needs k n := by
  by_cases h : ∃ n, k < s.stock n
  · refine ⟨Nat.find h, Or.inl ⟨Nat.find_spec h, fun m hm => ?_⟩⟩
    exact Nat.le_of_not_lt (Nat.find_min h hm)
  · exact ⟨_, Or.inr ⟨fun m => Nat.le_of_not_lt fun hm => h ⟨m, hm⟩, rfl⟩⟩

/-- No line is needed for what the buffer has. -/
theorem needs_zero (h : k < s.buffer.length) : s.Needs k 0 :=
  Or.inl ⟨h, fun _ hm => absurd hm (Nat.not_lt_zero _)⟩

theorem Needs.pos {l : SourceLine} {rest : List SourceLine} (h : s.Needs k n)
    (hu : s.unread = l :: rest) (hk : ¬ k < s.buffer.length) : 0 < n := by
  refine Nat.pos_of_ne_zero ?_
  rintro rfl
  rcases h with ⟨hn, -⟩ | ⟨-, hall⟩
  · exact hk hn
  · rw [hu] at hall
    cases hall

/-! ## One line -/

theorem scannedTokens_cons (ts : List Token) (rs : List (Except LexError (List Token))) :
    scannedTokens (.ok ts :: rs) = ts ++ scannedTokens rs := rfl

theorem buffer_pulled {ts : List Token} {rs : List (Except LexError (List Token))}
    (h : s.ahead = .ok ts :: rs) :
    (s.pulled 1).buffer = s.buffer ++ ts.map (Token.reserve s.isReserved) := by
  change s.buffer ++ (scannedTokens (s.ahead.take 1)).map _ = _
  rw [h, List.take_succ_cons, scannedTokens_cons]
  simp [scannedTokens]

/-- Pulling a line buffers its tokens, or fails with its error. -/
theorem pull_cons {l : SourceLine} {rest : List SourceLine} (hu : s.unread = l :: rest) :
    (∃ ts, s.ahead = .ok ts :: (s.pulled 1).ahead ∧ pull s = .ok () (s.pulled 1)) ∨
      ∃ e s', s.ahead = .error e :: s'.ahead ∧ s'.buffer = s.buffer ∧ pull s = .error e s' := by
  cases l with
  | undecodable =>
    refine Or.inr ⟨_, { s with unread := rest }, ahead_undecodable hu, rfl, ?_⟩
    rw [pull, hu]
  | text chars =>
    have hahead := ahead_text hu
    cases hline : lineTokens s.vocabulary.isIgnored (s.line + 1) chars with
    | error e =>
      rw [hline] at hahead
      exact Or.inr ⟨e, { s with unread := rest, line := s.line + 1 }, hahead, rfl,
        pull_of_error hu hline⟩
    | ok ts =>
      rw [hline] at hahead
      have hpulled : s.pulled 1 = { s with
          unread := rest
          line := s.line + 1
          buffer := s.buffer ++ ts.map (Token.reserve s.isReserved) } := by
        rw [← buffer_pulled hahead, pulled, hu]
        rfl
      have hpull := pull_of_ok hu hline
      rw [← hpulled] at hpull
      refine Or.inl ⟨ts, ?_, hpull⟩
      rw [hahead, hpulled]
      rfl

section
variable {ts : List Token} (h : s.ahead = .ok ts :: (s.pulled 1).ahead)
include h

theorem take_ahead (n : Nat) : s.ahead.take (n + 1) = .ok ts :: (s.pulled 1).ahead.take n := by
  rw [h, List.take_succ_cons]

theorem stock_pulled (n : Nat) : (s.pulled 1).stock n = s.stock (n + 1) := by
  rw [stock, stock, take_ahead h, scannedTokens_cons, buffer_pulled h]
  simp [Nat.add_assoc]

theorem pulled_pulled (n : Nat) : (s.pulled 1).pulled n = s.pulled (n + 1) := by
  calc (s.pulled 1).pulled n = { s with
        unread := (s.unread.drop 1).drop n
        line := s.line + 1 + n
        buffer := (s.pulled 1).buffer ++
          (scannedTokens ((s.pulled 1).ahead.take n)).map (Token.reserve s.isReserved) } := rfl
    _ = { s with
        unread := s.unread.drop (n + 1)
        line := s.line + (n + 1)
        buffer := s.buffer ++
          (scannedTokens (s.ahead.take (n + 1))).map (Token.reserve s.isReserved) } := by
      rw [take_ahead h, scannedTokens_cons, buffer_pulled h, List.map_append, List.drop_drop,
        List.append_assoc, Nat.add_assoc, Nat.add_comm 1 n]

theorem no_fault_succ (hnone : ∀ e, .error e ∉ (s.pulled 1).ahead.take n) :
    ∀ e, .error e ∉ s.ahead.take (n + 1) := by
  intro e
  rw [take_ahead h, List.mem_cons, not_or]
  exact ⟨by simp, hnone e⟩

/-- Behind a line that scans, one line less is needed. -/
theorem needs_pulled {l : SourceLine} {rest : List SourceLine} (hu : s.unread = l :: rest)
    (hneeds : s.Needs k (n + 1)) : (s.pulled 1).Needs k n := by
  rcases hneeds with ⟨hn, hleast⟩ | ⟨hnone, hall⟩
  · refine Or.inl ⟨by rwa [stock_pulled h], fun m hm => ?_⟩
    rw [stock_pulled h]
    exact hleast _ (Nat.succ_lt_succ hm)
  · refine Or.inr ⟨fun m => ?_, ?_⟩
    · rw [stock_pulled h]
      exact hnone _
    · rw [hu] at hall
      exact (Nat.succ.inj hall).trans (by rw [pulled, hu]; rfl)

end

/-! ## Refilling -/

/-- Refilling pulls the lines needed, or stops at the first of them that does not scan. -/
theorem fillFrom_runs {lines : List SourceLine} (hl : s.unread = lines) (hneeds : s.Needs k n) :
    ((∀ e, .error e ∉ s.ahead.take n) ∧ fillFrom k lines s = .ok () (s.pulled n)) ∨
      ∃ i < n, (∀ e, .error e ∉ s.ahead.take i) ∧ ∃ e s', s.ahead[i]? = some (.error e) ∧
        s'.unread = s.unread.drop (i + 1) ∧ s'.buffer = (s.pulled i).buffer ∧
        fillFrom k lines s = .error e s' := by
  -- every line that scans is one of those needed, and behind it one less is needed
  induction lines generalizing s n with
  | nil =>
    have hle := hneeds.le
    rw [hl] at hle
    obtain rfl : n = 0 := Nat.le_zero.mp hle
    rw [pulled_zero]
    exact Or.inl ⟨by simp, rfl⟩
  | cons l lines ih =>
    rw [fillFrom_cons]
    split
    · next hk =>
      obtain rfl := hneeds.unique (needs_zero hk)
      rw [pulled_zero]
      exact Or.inl ⟨by simp, rfl⟩
    · next hk =>
      obtain ⟨n, rfl⟩ := Nat.exists_eq_succ_of_ne_zero (hneeds.pos hl hk).ne'
      rcases pull_cons hl with ⟨ts, hahead, hpull⟩ | ⟨e, s', hahead, hbuffer, hpull⟩
      · rw [hpull]
        have hu : (s.pulled 1).unread = lines := by rw [pulled, hl]; rfl
        rcases ih hu (needs_pulled hahead hl hneeds) with
          ⟨hnone, hfill⟩ | ⟨i, hi, hnone, e, s', hat, hunread, hbuffer, hfill⟩
        · rw [pulled_pulled hahead] at hfill
          exact Or.inl ⟨no_fault_succ hahead hnone, hfill⟩
        · refine Or.inr ⟨i + 1, Nat.succ_lt_succ hi, no_fault_succ hahead hnone, e, s',
            ?_, ?_, ?_, hfill⟩
          · rw [hahead, List.getElem?_cons_succ, hat]
          · rw [hunread, hu, hl]
            rfl
          · rw [hbuffer, pulled_pulled hahead]
      · have hunread := pull_unread s
        rw [hpull] at hunread ⊢
        refine Or.inr ⟨0, Nat.succ_pos n, by simp, e, s', ?_, ?_, ?_, rfl⟩
        · rw [hahead]
          rfl
        · rw [List.drop_one]
          exact hunread
        · rw [hbuffer, pulled_zero]

end

/-! ## Tokens at hand -/

/-- The token `k` places ahead is `t`, and no line is needed to see it. -/
def AtHand (s : TokenStream) (k : Nat) (t : Token) : Prop :=
  t = s.tokenAt k ∧ (k < s.buffer.length ∨ s.unread = [])

section
variable {s s' : TokenStream} {k : Nat} {t : Token}

/-- Refilling adds to the end of the buffer only. -/
theorem isPrefix_buffer (k : Nat) (s : TokenStream) :
    s.buffer <+: (stateOf (fill k s)).buffer := by
  obtain ⟨n, hneeds⟩ := s.exists_needs k
  rw [fill_eq]
  rcases fillFrom_runs rfl hneeds with ⟨-, hfill⟩ | ⟨i, -, -, e, s', -, -, hbuffer, hfill⟩
  · rw [hfill]
    exact List.prefix_append _ _
  · rw [hfill]
    change s.buffer <+: s'.buffer
    rw [hbuffer]
    exact List.prefix_append _ _

theorem tokenAt_of_isPrefix (hk : k < s.buffer.length) (h : s.buffer <+: s'.buffer) :
    s.tokenAt k = s'.tokenAt k := by
  have hk' : k < s'.buffer.length := Nat.lt_of_lt_of_le hk h.length_le
  rw [tokenAt, tokenAt, List.getElem?_eq_getElem hk, List.getElem?_eq_getElem hk', h.getElem hk]
  rfl

theorem AtHand.look (h : s.AtHand k t) (j : Nat) : ((Call.peek j).run s).2.AtHand k t := by
  obtain ⟨rfl, hk⟩ := h
  rcases hk with hk | hu
  · have hbuffer := isPrefix_buffer j s
    have hkeep : ∀ s' : TokenStream, s.buffer <+: s'.buffer → s'.AtHand k (s.tokenAt k) :=
      fun s' h => ⟨tokenAt_of_isPrefix hk h, Or.inl (Nat.lt_of_lt_of_le hk h.length_le)⟩
    rw [Call.run, peek_eq]
    cases hf : fill j s with
    | ok u s' =>
      rw [hf] at hbuffer
      exact hkeep s' hbuffer
    | error e s' =>
      rw [hf] at hbuffer
      exact hkeep s' hbuffer
  · rw [Call.run, peek_of_enough (Or.inr hu)]
    exact ⟨rfl, Or.inr hu⟩

theorem AtHand.take (h : s.AtHand (k + 1) t) : (Call.read.run s).2.AtHand k t := by
  obtain ⟨rfl, hk⟩ := h
  have henough : 0 < s.buffer.length ∨ s.unread = [] := hk.imp_left Nat.zero_lt_of_lt
  rw [Call.run, read_eq_peek, peek_of_enough henough]
  change ({ s with buffer := s.buffer.tail } : TokenStream).AtHand k (s.tokenAt (k + 1))
  refine ⟨?_, hk.imp_left fun hlt => ?_⟩
  · rw [tokenAt, tokenAt, List.getElem?_tail]
    rfl
  · rw [List.length_tail]
    exact Nat.lt_sub_of_add_lt hlt

theorem AtHand.read (h : s.AtHand 0 t) : ∃ s', TokenStream.read s = .ok t s' := by
  obtain ⟨rfl, hk⟩ := h
  rw [read_eq_peek, peek_of_enough hk]
  exact ⟨_, rfl⟩

/-- A token at hand comes nearer with every token read, and looking at others does not matter. -/
theorem AtHand.serve {calls : List Call} (hcalls : ∀ c ∈ calls, c = .read ∨ ∃ j, c = .peek j)
    (h : s.AtHand (k + calls.count .read) t) : (serve calls s).2.AtHand k t := by
  induction calls generalizing s with
  | nil => exact h
  | cons c calls ih =>
    obtain ⟨hc, hrest⟩ := List.forall_mem_cons.mp hcalls
    change (HandlerGrammar.serve calls (c.run s).2).2.AtHand k t
    rcases hc with rfl | ⟨j, rfl⟩
    · rw [List.count_cons_self, ← Nat.add_assoc] at h
      exact ih hrest h.take
    · rw [List.count_cons_of_ne (by simp)] at h
      exact ih hrest (h.look j)

end

/-! ## Looking ahead -/

/-- What looking ahead gives, told from the lines needed. -/
theorem peek_runs {s : TokenStream} {k n : Nat} (hneeds : s.Needs k n) :
    ((∀ e, .error e ∉ s.ahead.take n) ∧ peek k s = .ok ((s.pulled n).tokenAt k) (s.pulled n)) ∨
      ∃ i < n, (∀ e, .error e ∉ s.ahead.take i) ∧ ∃ e s', s.ahead[i]? = some (.error e) ∧
        s'.unread = s.unread.drop (i + 1) ∧ peek k s = .error e s' := by
  rcases fillFrom_runs rfl hneeds with ⟨hnone, hfill⟩ | ⟨i, hi, hnone, e, s', hat, hunread, -, hfill⟩
  · refine Or.inl ⟨hnone, ?_⟩
    rw [peek_eq, fill_eq, hfill]
  · refine Or.inr ⟨i, hi, hnone, e, s', hat, hunread, ?_⟩
    rw [peek_eq, fill_eq, hfill]

theorem read_ok_iff {s s' : TokenStream} {t : Token} :
    read s = .ok t s' ↔ ∃ s₁, peek 0 s = .ok t s₁ ∧ s' = s₁.advance 1 := by
  rw [read_eq_peek]
  cases peek 0 s with
  | ok u s₁ =>
    have hadvance : s₁.advance 1 = { s₁ with buffer := s₁.buffer.tail } := by
      rw [advance, List.drop_one]
    constructor
    · intro h
      cases h
      exact ⟨s₁, rfl, hadvance.symm⟩
    · rintro ⟨s₂, h, rfl⟩
      cases h
      rw [hadvance]
  | error e s₁ =>
    constructor
    · intro h
      cases h
    · rintro ⟨s₂, h, -⟩
      cases h

theorem read_error_iff {s s' : TokenStream} {e : LexError} :
    read s = .error e s' ↔ peek 0 s = .error e s' := by
  rw [read_eq_peek]
  cases peek 0 s with
  | ok u s₁ => constructor <;> intro h <;> cases h
  | error e s₁ => rfl

end TokenStream

open TokenStream in
/-- Looking `k` tokens ahead takes as many lines as are needed for more than `k` tokens, however the
stream has come about. Where all of them scan, these lines and no more are pulled, the token seen is
seen again without pulling any, and it is read after the `k` tokens before it. It fails exactly if
one of the lines needed does not scan, with the error of the first of them and right behind it.
Reading is looking at the next token and taking it. -/
theorem lookahead_pulls_least (s : TokenStream) (k : Nat) :
    ∃ n, (∀ m, s.Needs k m ↔ m = n) ∧ n ≤ s.unread.length ∧
      (∀ t s', peek k s = .ok t s' → s' = s.pulled n ∧ t = s'.tokenAt k ∧ peek k s' = .ok t s' ∧
        ∀ between : List Call, (∀ c ∈ between, c = .read ∨ ∃ j, c = .peek j) →
          between.count .read = k → ∃ s'', read (serve between s').2 = .ok t s'') ∧
      ((∃ e s', peek k s = .error e s') ↔ ∃ e, .error e ∈ s.ahead.take n) ∧
      (∀ e s', peek k s = .error e s' → ∃ i < n, s.ahead[i]? = some (.error e) ∧
        (∀ e', .error e' ∉ s.ahead.take i) ∧ s'.unread = s.unread.drop (i + 1)) ∧
      (∀ t s', read s = .ok t s' ↔ ∃ s₁, peek 0 s = .ok t s₁ ∧ s' = s₁.advance 1) ∧
      ∀ e s', read s = .error e s' ↔ peek 0 s = .error e s' := by
  obtain ⟨n, hneeds⟩ := s.exists_needs k
  refine ⟨n, fun m => ⟨hneeds.unique, fun h => h ▸ hneeds⟩, hneeds.le, fun t s' hpeek => ?_, ?_, ?_,
    fun t s' => read_ok_iff, fun e s' => read_error_iff⟩
  · have hagain := peek_again hpeek
    have hathand : s'.AtHand k t := peek_enough hpeek
    refine ⟨?_, hathand.1, hagain, fun between hcalls hcount => ?_⟩
    · rcases peek_runs hneeds with ⟨-, hruns⟩ | ⟨i, -, -, e, s₁, -, -, hruns⟩
      · rw [hruns] at hpeek
        cases hpeek
        rfl
      · rw [hruns] at hpeek
        cases hpeek
    · apply AtHand.read
      apply AtHand.serve hcalls
      rwa [hcount, Nat.zero_add]
  · rcases peek_runs hneeds with ⟨hnone, hruns⟩ | ⟨i, hi, -, e, s₁, hat, -, hruns⟩
    · constructor
      · rintro ⟨e, s', hpeek⟩
        rw [hruns] at hpeek
        cases hpeek
      · rintro ⟨e, he⟩
        exact absurd he (hnone e)
    · refine iff_of_true ⟨e, s₁, hruns⟩ ⟨e, ?_⟩
      exact List.mem_of_getElem? ((List.getElem?_take_of_lt hi).trans hat)
  · intro e s' hpeek
    rcases peek_runs hneeds with ⟨-, hruns⟩ | ⟨i, hi, hnone, e₁, s₁, hat, hunread, hruns⟩
    · rw [hruns] at hpeek
      cases hpeek
    · rw [hruns] at hpeek
      cases hpeek
      exact ⟨i, hi, hat, hnone, hunread⟩

end HandlerGrammar
