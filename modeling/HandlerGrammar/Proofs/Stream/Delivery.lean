import HandlerGrammar.Proofs.Stream.Pulling

/-! # Delivery of tokens

Calls are made on a stream in any order and go on after errors. Between the lines, the buffer and
the caller neither a token nor an error is lost, made up or given twice, and a word is delivered as
a reserved word exactly if it is reserved as it is delivered.

* `Call.run`, `serve`: calls and their replies;
* `Serves`: what one call keeps, `serves_run`, and what a run of calls keeps, `serves_serve`;
* `read_eof`: the end of input is answered behind the last line only;
* `delivery_exact`: all this for calls on a fresh stream. -/
namespace HandlerGrammar
open Text
set_option autoImplicit false

/-! ## Calls in any order -/

/-- What may be asked of a stream. -/
inductive Call where
  | read | peek (k : Nat) | tokens | reserve (word : String) | release (word : String)
  deriving DecidableEq, Repr

inductive Reply where
  | done
  | token (t : Token)
  | tokens (ts : List Token)
  | failed (e : LexError)
  deriving DecidableEq, Repr

namespace Reply

def ofResult {α : Type} (answer : α → Reply) :
    EStateM.Result LexError TokenStream α → Reply × TokenStream
  | .ok a s => (answer a, s)
  | .error e s => (failed e, s)

def failure? : Reply → Option LexError
  | failed e => some e
  | _ => none

end Reply

namespace Call

def run : Call → TokenStream → Reply × TokenStream
  | read, s => Reply.ofResult .token (TokenStream.read s)
  | peek k, s => Reply.ofResult .token (TokenStream.peek k s)
  | tokens, s => Reply.ofResult .tokens (TokenStream.tokens s)
  | reserve w, s => (.done, s.reserve w)
  | release w, s => (.done, s.release w)

/-- The tokens that a call hands over for good; the end of input is none of them. -/
def delivered : Call → Reply → List Token
  | read, .token t => if t.isEof then [] else [t]
  | tokens, .tokens ts => ts
  | _, _ => []

/-- The words reserved on the stream after the call, if `words` were before. -/
def reserving (words : WordSet) : Call → WordSet
  | reserve w => words.insert w
  | release w => words.erase w
  | _ => words

end Call

/-- The replies to calls made one after the other, whether they fail or not. -/
def serve : List Call → TokenStream → List (Call × Reply) × TokenStream
  | [], s => ([], s)
  | c :: cs, s =>
    let (reply, s') := c.run s
    let (replies, s'') := serve cs s'
    ((c, reply) :: replies, s'')

def deliveries (history : List (Call × Reply)) : List Token :=
  history.flatMap fun e => e.1.delivered e.2

def failures (history : List (Call × Reply)) : List LexError :=
  history.flatMap fun e => e.2.failure?.toList

def reservedBy (calls : List Call) : WordSet := calls.foldl Call.reserving .empty

/-! ## One call -/

namespace TokenStream

/-- Calls on `s` deliver some tokens, fail with some errors and leave `s'`. -/
structure Serves (s : TokenStream) (delivered : List Token) (errors : List LexError)
    (s' : TokenStream) : Prop where
  vocabulary : s'.vocabulary = s.vocabulary
  pending : s.pending = delivered.map Token.lexical ++ s'.pending
  faults : s.faults = errors ++ s'.faults
  classified : s'.Classified

theorem Pulls.serves {s s' : TokenStream} {es : List LexError} (h : Pulls s es s')
    (hs : s.Classified) : Serves s [] es s' :=
  ⟨h.vocabulary, h.pending.symm, h.faults, h.classified hs⟩

theorem Serves.trans {s s' s'' : TokenStream} {ts ts' : List Token} {es es' : List LexError}
    (h : Serves s ts es s') (h' : Serves s' ts' es' s'') :
    Serves s (ts ++ ts') (es ++ es') s'' where
  vocabulary := h'.vocabulary.trans h.vocabulary
  pending := by rw [h.pending, h'.pending, List.map_append, List.append_assoc]
  faults := by rw [h.faults, h'.faults, List.append_assoc]
  classified := h'.classified

theorem Serves.of_pulls {s s' s'' : TokenStream} {ts : List Token} {es : List LexError}
    (h : Pulls s [] s') (hs : s.Classified) (h' : Serves s' ts es s'') : Serves s ts es s'' :=
  (h.serves hs).trans h'

theorem serves_take {s : TokenStream} {taken rest : List Token} (hb : s.buffer = taken ++ rest)
    (hs : s.Classified) : Serves s taken [] { s with buffer := rest } where
  vocabulary := rfl
  pending := by
    unfold pending
    rw [hb, List.map_append, List.append_assoc]
    rfl
  faults := rfl
  classified := fun t ht => hs t (by rw [hb]; exact List.mem_append_right _ ht)

theorem serves_read {s : TokenStream} (hs : s.Classified) :
    Serves s (Call.read.delivered (Call.read.run s).1) (Call.read.run s).1.failure?.toList
      (Call.read.run s).2 := by
  simp only [Call.run, read_eq]
  cases hf : fill 0 s with
  | error e s' => exact (pulls_of_fill_error hf).serves hs
  | ok _ s' =>
    have h := pulls_of_fill_ok hf
    have hs' := h.classified hs
    refine Serves.of_pulls h hs ?_
    change Serves s' (if (s'.tokenAt 0).isEof then [] else [s'.tokenAt 0]) []
      { s' with buffer := s'.buffer.tail }
    cases hb : s'.buffer with
    | nil =>
      have hserves : Serves s' [] [] { s' with buffer := [] } :=
        serves_take (by rw [hb]; rfl) hs'
      have htoken : s'.tokenAt 0 = s'.eof := by rw [tokenAt, hb]; rfl
      rw [htoken]
      exact hserves
    | cons t rest =>
      have hne := not_eof_of_classified hs' t (by rw [hb]; exact List.mem_cons_self ..)
      have hserves : Serves s' [t] [] { s' with buffer := rest } :=
        serves_take (by rw [hb]; rfl) hs'
      have htoken : s'.tokenAt 0 = t := by rw [tokenAt, hb]; rfl
      rw [htoken, hne]
      exact hserves

theorem serves_peek (k : Nat) {s : TokenStream} (hs : s.Classified) :
    Serves s [] ((Call.peek k).run s).1.failure?.toList ((Call.peek k).run s).2 := by
  simp only [Call.run, peek_eq]
  cases hf : fill k s with
  | error e s' => exact (pulls_of_fill_error hf).serves hs
  | ok _ s' => exact (pulls_of_fill_ok hf).serves hs

theorem serves_tokens {s : TokenStream} (hs : s.Classified) :
    Serves s (Call.tokens.delivered (Call.tokens.run s).1) (Call.tokens.run s).1.failure?.toList
      (Call.tokens.run s).2 := by
  have h := pulls_pullFrom s.unread s
  simp only [Call.run, tokens_eq]
  cases hf : pullFrom s.unread s with
  | error e s' =>
    rw [hf] at h
    exact h.serves hs
  | ok _ s' =>
    rw [hf] at h
    have htake := serves_take (List.append_nil s'.buffer).symm (h.classified hs)
    exact Serves.of_pulls h hs htake

theorem serves_run (c : Call) {s : TokenStream} (hs : s.Classified) :
    Serves s (c.delivered (c.run s).1) (c.run s).1.failure?.toList (c.run s).2 := by
  cases c with
  | read => exact serves_read hs
  | peek k => exact serves_peek k hs
  | tokens => exact serves_tokens hs
  | reserve w => exact ⟨rfl, (pending_reserve hs w).symm, rfl, classified_reserve hs w⟩
  | release w =>
    have hv : (s.release w).vocabulary = s.vocabulary := by
      unfold release
      dsimp only
      split <;> rfl
    have hf : (s.release w).faults = s.faults := by
      unfold release
      dsimp only
      split <;> rfl
    exact ⟨hv, (pending_release s w).symm, hf.symm, classified_release hs w⟩

theorem read_eof {s : TokenStream} (hs : s.Classified) {t : Token} {s' : TokenStream}
    (h : Call.read.run s = (.token t, s')) (ht : t.isEof = true) :
    s'.unread = [] ∧ s'.buffer = [] := by
  simp only [Call.run, read_eq] at h
  cases hf : fill 0 s with
  | error e s₁ => rw [hf] at h; cases h
  | ok u s₁ =>
    rw [hf] at h
    have hs₁ := (pulls_of_fill_ok hf).classified hs
    cases h
    cases hb : s₁.buffer with
    | nil =>
      have henough := fill_enough hf
      rw [hb] at henough
      exact ⟨henough.resolve_left (Nat.not_lt_zero 0), rfl⟩
    | cons t rest =>
      have hne := not_eof_of_classified hs₁ t (by rw [hb]; exact List.mem_cons_self ..)
      have htoken : s₁.tokenAt 0 = t := by rw [tokenAt, hb]; rfl
      rw [htoken, hne] at ht
      cases ht

/-- A word is delivered with the kind that it has by the words reserved before the call. -/
theorem delivered_kind (c : Call) {s : TokenStream} (hs : s.Classified) :
    ∀ t ∈ c.delivered (c.run s).1, t.isWord = true →
      (t.kind = .reserved ↔ s.isReserved t.word = true) := by
  have hbuffer : ∀ s' : TokenStream, s'.Classified → s'.isReserved = s.isReserved →
      ∀ t ∈ s'.buffer, t.isWord = true → (t.kind = .reserved ↔ s.isReserved t.word = true) := by
    intro s' hs' hr t ht hw
    obtain ⟨plain, hplain, rfl⟩ := hs' t ht
    rw [← hr, Token.word_reserve]
    exact Token.kind_reserve_eq_reserved hplain hw
  intro t ht hw
  cases c with
  | read =>
    simp only [Call.run, read_eq] at ht
    cases hf : fill 0 s with
    | error e s' => rw [hf] at ht; cases ht
    | ok u s' =>
      rw [hf] at ht
      have hp := pulls_of_fill_ok hf
      change t ∈ (if (s'.tokenAt 0).isEof then [] else [s'.tokenAt 0]) at ht
      split at ht
      · cases ht
      · next hne =>
        rw [List.mem_singleton] at ht
        subst ht
        apply hbuffer s' (hp.classified hs) hp.isReserved _ _ hw
        cases hb : s'.buffer with
        | nil =>
          have htoken : s'.tokenAt 0 = s'.eof := by rw [tokenAt, hb]; rfl
          exact absurd (by rw [htoken]; rfl) hne
        | cons u rest =>
          have htoken : s'.tokenAt 0 = u := by rw [tokenAt, hb]; rfl
          rw [htoken]
          exact List.mem_cons_self ..
  | tokens =>
    simp only [Call.run, tokens_eq] at ht
    have hp := pulls_pullFrom s.unread s
    cases hf : pullFrom s.unread s with
    | error e s' => rw [hf] at ht; cases ht
    | ok u s' =>
      rw [hf] at ht hp
      exact hbuffer s' (hp.classified hs) hp.isReserved t ht hw
  | peek k => cases ht
  | reserve w => cases ht
  | release w => cases ht

/-! ## Calls one after the other -/

theorem serves_serve (calls : List Call) {s : TokenStream} (hs : s.Classified) :
    Serves s (deliveries (serve calls s).1) (failures (serve calls s).1) (serve calls s).2 := by
  induction calls generalizing s with
  | nil => exact ⟨rfl, rfl, rfl, hs⟩
  | cons c calls ih =>
    have hfirst := serves_run c hs
    have hrest := ih hfirst.classified
    exact hfirst.trans hrest

/-- The words reserved on a stream are those of the calls made on it. -/
theorem serve_reserved (calls : List Call) (s : TokenStream) :
    (serve calls s).2.reserved = calls.foldl Call.reserving s.reserved := by
  have hstep : ∀ (c : Call) (s : TokenStream), (c.run s).2.reserved = c.reserving s.reserved := by
    intro c s
    cases c with
    | read =>
      simp only [Call.run, read_eq]
      cases hf : fill 0 s with
      | error e s' => exact (pulls_of_fill_error hf).reserved
      | ok u s' => exact (pulls_of_fill_ok hf).reserved
    | peek k =>
      simp only [Call.run, peek_eq]
      cases hf : fill k s with
      | error e s' => exact (pulls_of_fill_error hf).reserved
      | ok u s' => exact (pulls_of_fill_ok hf).reserved
    | tokens =>
      simp only [Call.run, tokens_eq]
      have hp := pulls_pullFrom s.unread s
      cases hf : pullFrom s.unread s with
      | error e s' => rw [hf] at hp; exact hp.reserved
      | ok u s' => rw [hf] at hp; exact hp.reserved
    | reserve w => rfl
    | release w =>
      change (s.release w).reserved = s.reserved.erase w
      unfold release
      dsimp only
      split <;> rfl
  induction calls generalizing s with
  | nil => rfl
  | cons c calls ih =>
    change (serve calls (c.run s).2).2.reserved = calls.foldl Call.reserving (c.reserving s.reserved)
    rw [ih, hstep]

end TokenStream

open TokenStream in
/-- Whatever is called on a fresh stream: the tokens delivered so far and those pending are the
tokens of the lines that scan, in order, and likewise the failures are the errors of the lines that
do not. A further call delivers a word as reserved exactly if the vocabulary or the calls so far
reserve it, and answers the end of input only when nothing is left, so that then all tokens have
been delivered and all errors met. -/
theorem delivery_exact (v : Vocabulary) (bytes : List UInt8) (calls : List Call) :
    let lines := readings v.isIgnored 0 (sourceLines bytes)
    let history := (serve calls (ofBytes v bytes)).1
    let s := (serve calls (ofBytes v bytes)).2
    (deliveries history).map Token.lexical ++ s.pending = scannedTokens lines ∧
    failures history ++ s.faults = scanErrors lines ∧
    (∀ next : Call, ∀ t ∈ next.delivered (next.run s).1, t.isWord = true →
      (t.kind = .reserved ↔ v.isReserved t.word = true ∨ (reservedBy calls).contains t.word = true)) ∧
    (∀ (t : Token) (s' : TokenStream), Call.read.run s = (.token t, s') → t.isEof = true →
      s'.unread = [] ∧ s'.buffer = []) ∧
    (s.unread = [] → s.buffer = [] →
      (deliveries history).map Token.lexical = scannedTokens lines ∧
      failures history = scanErrors lines) := by
  intro lines history s
  have hserves : Serves (ofBytes v bytes) (deliveries history) (failures history) s :=
    serves_serve calls (classified_ofLines v _)
  have hpending : (deliveries history).map Token.lexical ++ s.pending = scannedTokens lines :=
    hserves.pending.symm
  have hfaults : failures history ++ s.faults = scanErrors lines := hserves.faults.symm
  refine ⟨hpending, hfaults, ?_, ?_, ?_⟩
  · intro next t ht hw
    rw [delivered_kind next hserves.classified t ht hw]
    have hr : s.reserved = reservedBy calls := serve_reserved calls _
    simp only [isReserved, hserves.vocabulary, hr, Bool.or_eq_true]
    rfl
  · intro t s' h ht
    exact read_eof hserves.classified h ht
  · intro hu hb
    have hahead : s.ahead = [] := by rw [ahead, hu]; rfl
    constructor
    · simpa [pending, hb, hahead, scannedTokens] using hpending
    · simpa [TokenStream.faults, hahead, scanErrors] using hfaults

end HandlerGrammar
