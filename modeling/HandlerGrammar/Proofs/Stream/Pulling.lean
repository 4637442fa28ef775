import HandlerGrammar.Proofs.Stream.Classification

/-! # Pulling lines

What a source still has to give is read off its lines alone: each line gives tokens or an error.
Looking ahead moves tokens from the lines into the buffer and meets the errors of the lines it
passes, and nothing else changes:

* `readings`: what each line gives;
* `pending`, `faults`: the plain tokens still to be delivered and the errors still to be met;
* `Pulls`: what every way of pulling lines keeps, with `pulls_pull` for one line and
  `pulls_fillFrom`, `pulls_pullFrom` for many;
* `fill_enough`: how far pulling goes. -/
namespace HandlerGrammar
open Text
set_option autoImplicit false

/-! ## What the lines give -/

/-- What each line gives, the lines before them being `line` in number: its plain tokens or its
error. A line that is no text is not counted. -/
def readings (isIgnored : String → Bool) : Nat → List SourceLine → List (Except LexError (List Token))
  | _, [] => []
  | line, .undecodable :: rest => .error (.undecodable (line + 1)) :: readings isIgnored line rest
  | line, .text chars :: rest =>
    lineTokens isIgnored (line + 1) chars :: readings isIgnored (line + 1) rest

/-- The tokens of the lines that scan. -/
def scannedTokens (rs : List (Except LexError (List Token))) : List Token :=
  rs.flatMap fun r => r.toOption.getD []

/-- The errors of the lines that do not. -/
def scanErrors (rs : List (Except LexError (List Token))) : List LexError :=
  rs.filterMap fun r => match r with
    | .error e => some e
    | .ok _ => none

section
variable {s : TokenStream} {line : List Char} {later : List SourceLine}

theorem pull_of_ok {ts : List Token} (hunread : s.unread = .text line :: later)
    (h : lineTokens s.vocabulary.isIgnored (s.line + 1) line = .ok ts) : s.pull = .ok () { s with
      unread := later
      line := s.line + 1
      buffer := s.buffer ++ ts.map (Token.reserve s.isReserved) } := by
  rw [TokenStream.pull, hunread]
  dsimp only
  rw [h]

theorem pull_of_error {e : LexError} (hunread : s.unread = .text line :: later)
    (h : lineTokens s.vocabulary.isIgnored (s.line + 1) line = .error e) :
    s.pull = .error e { s with unread := later, line := s.line + 1 } := by
  rw [TokenStream.pull, hunread]
  dsimp only
  rw [h]

end

namespace TokenStream

/-- What the lines that are left give. -/
def ahead (s : TokenStream) : List (Except LexError (List Token)) :=
  readings s.vocabulary.isIgnored s.line s.unread

/-- The tokens still to be delivered, without regard to reserved words. -/
def pending (s : TokenStream) : List Token := s.buffer.map Token.lexical ++ scannedTokens s.ahead

/-- The errors still to be met. -/
def faults (s : TokenStream) : List LexError := scanErrors s.ahead

/-- The number of lines once all are pulled. -/
def lastLine (s : TokenStream) : Nat := s.line + s.unread.countP (· != .undecodable)

/-! ## Pulling lines -/

/-- Pulling lines of `s`, with the errors met, gives `s'`. -/
structure Pulls (s : TokenStream) (errors : List LexError) (s' : TokenStream) : Prop where
  vocabulary : s'.vocabulary = s.vocabulary
  reserved : s'.reserved = s.reserved
  pending : s'.pending = s.pending
  faults : s.faults = errors ++ s'.faults
  lastLine : s'.lastLine = s.lastLine
  classified : s.Classified → s'.Classified

theorem Pulls.refl (s : TokenStream) : Pulls s [] s := ⟨rfl, rfl, rfl, rfl, rfl, id⟩

theorem Pulls.trans {s s' s'' : TokenStream} {es es' : List LexError} (h : Pulls s es s')
    (h' : Pulls s' es' s'') : Pulls s (es ++ es') s'' where
  vocabulary := h'.vocabulary.trans h.vocabulary
  reserved := h'.reserved.trans h.reserved
  pending := h'.pending.trans h.pending
  faults := by rw [h.faults, h'.faults, List.append_assoc]
  lastLine := h'.lastLine.trans h.lastLine
  classified := h'.classified ∘ h.classified

theorem Pulls.isReserved {s s' : TokenStream} {es : List LexError} (h : Pulls s es s') :
    s'.isReserved = s.isReserved := by
  funext w
  simp only [TokenStream.isReserved, h.vocabulary, h.reserved]

/-- What an operation does to a stream in either outcome: the error it fails with, if it fails. -/
def errorOf? {α : Type} : EStateM.Result LexError TokenStream α → Option LexError
  | .ok _ _ => none
  | .error e _ => some e

def stateOf {α : Type} : EStateM.Result LexError TokenStream α → TokenStream
  | .ok _ s | .error _ s => s

theorem pulls_pull (s : TokenStream) : Pulls s (errorOf? (pull s)).toList (stateOf (pull s)) := by
  unfold pull
  split
  · exact .refl s
  · next rest hu =>
    refine ⟨rfl, rfl, ?_, ?_, ?_, classified_congr rfl rfl rfl⟩
    · simp [pending, ahead, hu, readings, scannedTokens, stateOf, Except.toOption]
    · simp [faults, ahead, hu, readings, scanErrors, errorOf?, stateOf]
    · simp [lastLine, hu, stateOf]
  · next chars rest hu =>
    have hline : s.line + 1 + rest.countP (· != .undecodable) = s.lastLine := by
      simp only [lastLine, hu, List.countP_cons, bne_iff_ne, ne_eq, reduceCtorEq,
        not_false_eq_true, if_true]
      omega
    dsimp only
    split
    · next e he =>
      refine ⟨rfl, rfl, ?_, ?_, hline, classified_congr rfl rfl rfl⟩
      · simp [pending, ahead, hu, readings, scannedTokens, stateOf, he, Except.toOption]
      · simp [faults, ahead, hu, readings, scanErrors, errorOf?, stateOf, he]
    · next tokens ht =>
      have hplain := lineTokens_isPlain ht
      have hlex : (tokens.map (Token.reserve s.isReserved)).map Token.lexical = tokens := by
        rw [List.map_map]
        exact (List.map_congr_left fun t h => Token.lexical_reserve (hplain t h)).trans
          (List.map_id tokens)
      refine ⟨rfl, rfl, ?_, ?_, hline, ?_⟩
      · simp [pending, ahead, hu, readings, scannedTokens, stateOf, ht, Except.toOption, hlex]
      · simp [faults, ahead, hu, readings, scanErrors, errorOf?, stateOf, ht]
      · intro hs t hmem
        rcases List.mem_append.mp hmem with hmem | hmem
        · exact hs t hmem
        · obtain ⟨plain, hp, rfl⟩ := List.mem_map.mp hmem
          exact ⟨plain, hplain plain hp, rfl⟩

/-! ## Pulling as far as needed -/

theorem fillFrom_cons (k : Nat) (l : SourceLine) (lines : List SourceLine) (s : TokenStream) :
    fillFrom k (l :: lines) s =
      if k < s.buffer.length then .ok () s
      else match pull s with
        | .ok _ s' => fillFrom k lines s'
        | .error e s' => .error e s' := by
  rw [fillFrom]
  change (if k < s.buffer.length then pure () else _ : EStateM LexError TokenStream Unit) s = _
  split
  · rfl
  · change EStateM.bind pull _ s = _
    unfold EStateM.bind
    cases pull s <;> rfl

theorem pullFrom_cons (l : SourceLine) (lines : List SourceLine) (s : TokenStream) :
    pullFrom (l :: lines) s =
      match pull s with
      | .ok _ s' => pullFrom lines s'
      | .error e s' => .error e s' := by
  rw [pullFrom]
  change EStateM.bind pull _ s = _
  unfold EStateM.bind
  cases pull s <;> rfl

theorem pulls_fillFrom (k : Nat) (lines : List SourceLine) (s : TokenStream) :
    Pulls s (errorOf? (fillFrom k lines s)).toList (stateOf (fillFrom k lines s)) := by
  induction lines generalizing s with
  | nil => exact .refl s
  | cons l lines ih =>
    rw [fillFrom_cons]
    split
    · exact .refl s
    · have h := pulls_pull s
      cases hp : pull s with
      | error e s' =>
        rw [hp] at h
        exact h
      | ok _ s' =>
        rw [hp] at h
        exact h.trans (ih s')

theorem pulls_pullFrom (lines : List SourceLine) (s : TokenStream) :
    Pulls s (errorOf? (pullFrom lines s)).toList (stateOf (pullFrom lines s)) := by
  induction lines generalizing s with
  | nil => exact .refl s
  | cons l lines ih =>
    rw [pullFrom_cons]
    have h := pulls_pull s
    cases hp : pull s with
    | error e s' =>
      rw [hp] at h
      exact h
    | ok _ s' =>
      rw [hp] at h
      exact h.trans (ih s')

theorem fill_eq (k : Nat) (s : TokenStream) : fill k s = fillFrom k s.unread s := rfl

theorem pulls_of_fill_ok {k : Nat} {s s' : TokenStream} {u : Unit} (h : fill k s = .ok u s') :
    Pulls s [] s' := by
  have hp := pulls_fillFrom k s.unread s
  rw [← fill_eq, h] at hp
  exact hp

theorem pulls_of_fill_error {k : Nat} {s s' : TokenStream} {e : LexError}
    (h : fill k s = .error e s') : Pulls s [e] s' := by
  have hp := pulls_fillFrom k s.unread s
  rw [← fill_eq, h] at hp
  exact hp

theorem pull_unread (s : TokenStream) : (stateOf (pull s)).unread = s.unread.tail := by
  unfold pull
  split
  · next h => simp [stateOf, h]
  · next h => simp [stateOf, h]
  · next h =>
    dsimp only
    split <;> simp [stateOf, h]

theorem fill_enough {k : Nat} {s s' : TokenStream} (h : fill k s = .ok () s') :
    k < s'.buffer.length ∨ s'.unread = [] := by
  rw [fill_eq] at h
  generalize hl : s.unread = lines at h
  induction lines generalizing s with
  | nil =>
    cases h
    exact Or.inr hl
  | cons l lines ih =>
    rw [fillFrom_cons] at h
    split at h
    · next hk =>
      cases h
      exact Or.inl hk
    · have hu := pull_unread s
      cases hp : pull s with
      | error e s₁ =>
        rw [hp] at h
        cases h
      | ok _ s₁ =>
        rw [hp] at h hu
        exact ih (hu.trans (by rw [hl]; rfl)) h

/-! ## Single calls -/

theorem peek_eq (k : Nat) (s : TokenStream) :
    peek k s = match fill k s with
      | .ok _ s' => .ok (s'.tokenAt k) s'
      | .error e s' => .error e s' := by
  change EStateM.bind (fill k) _ s = _
  unfold EStateM.bind
  cases fill k s <;> rfl

theorem read_eq (s : TokenStream) :
    read s = match fill 0 s with
      | .ok _ s' => .ok (s'.tokenAt 0) { s' with buffer := s'.buffer.tail }
      | .error e s' => .error e s' := by
  change EStateM.bind (fill 0) _ s = _
  unfold EStateM.bind
  cases fill 0 s <;> rfl

theorem tokens_eq (s : TokenStream) :
    tokens s = match pullFrom s.unread s with
      | .ok _ s' => .ok s'.buffer { s' with buffer := [] }
      | .error e s' => .error e s' := by
  change EStateM.bind (pullFrom s.unread) _ s = _
  unfold EStateM.bind
  cases pullFrom s.unread s <;> rfl

theorem lexical_reserve_of_classified {s : TokenStream} (hs : s.Classified) (p : String → Bool) :
    ∀ t ∈ s.buffer, (t.reserve p).lexical = t.lexical := by
  intro t ht
  obtain ⟨plain, hplain, rfl⟩ := hs t ht
  rw [Token.reserve_reserve, Token.lexical_reserve hplain, Token.lexical_reserve hplain]

theorem pending_reserve {s : TokenStream} (hs : s.Classified) (w : String) :
    (s.reserve w).pending = s.pending := by
  have h : ((s.reserve w).buffer).map Token.lexical = s.buffer.map Token.lexical := by
    change (s.buffer.map (Token.reserve (· == w))).map Token.lexical = _
    rw [List.map_map]
    exact List.map_congr_left (lexical_reserve_of_classified hs _)
  unfold pending
  rw [h]
  rfl

theorem pending_release (s : TokenStream) (w : String) : (s.release w).pending = s.pending := by
  unfold release
  dsimp only
  split
  · have h : (s.buffer.map (Token.release w)).map Token.lexical = s.buffer.map Token.lexical := by
      rw [List.map_map]
      exact List.map_congr_left fun t _ => Token.lexical_release w t
    unfold pending
    dsimp only
    rw [h]
    rfl
  · rfl

end TokenStream
end HandlerGrammar
