import HandlerGrammar.Proofs.Scanning.Lines
import HandlerGrammar.Proofs.Scanning.Rejection
import HandlerGrammar.Proofs.Stream.View

/-! # Line numbers

Tokens and errors are numbered by the lines pulled before them. A line that is no text is pulled
without being counted, so behind such lines the numbers fall short of the source, by one for each.

* `Place`, `places`: the lines of a source, each with the lines before it, `isPrefix_placesFrom`;
* `Place.Numbers`: a line number, given by the line feeds in front of any byte of the line;
* `line_of_lineTokens`: the tokens and the error of a line have its number;
* `Place.reading`, `readings_places`: what a line gives, in terms of the source alone;
* `line_numbers`: the numbers of the tokens and errors that calls answer with. -/
namespace HandlerGrammar
open Text
set_option autoImplicit false

/-! ## Lines and what stands before them -/

namespace Text

/-- A line of a source and the lines before it, all without their line feeds. -/
structure Place where
  before : List (List UInt8)
  line : List UInt8

/-- Each of some lines behind other lines. -/
def placesFrom (before : List (List UInt8)) : List (List UInt8) → List Place
  | [] => []
  | line :: lines => ⟨before, line⟩ :: placesFrom (before ++ [line]) lines

/-- The lines of a source. -/
def places (bytes : List UInt8) : List Place := placesFrom [] (splitLines bytes)

namespace Place

/-- The bytes before the line. -/
def start (p : Place) : List UInt8 := p.before.flatMap (· ++ [10])

/-- How many of the lines before are no text. -/
def undecodables (p : Place) : Nat := (p.before.map SourceLine.ofBytes).count .undecodable

/-- A number for all that stands on the line: one more than the line feeds in front of it, but for
the lines that are no text. -/
def Numbers (p : Place) (n : Nat) : Prop :=
  ∀ front, front <+: p.line → n + p.undecodables = 1 + (p.start ++ front).count 10

end Place

theorem splitLines_eq_nil {bytes : List UInt8} (h : splitLines bytes = []) : bytes = [] := by
  cases bytes with
  | nil => rfl
  | cons b bytes =>
    rw [splitLines] at h
    split at h
    · cases h
    · split at h <;> cases h

/-- The first line of a source goes to its end or to a line feed. -/
theorem splitLines_eq_cons {bytes line : List UInt8} {lines : List (List UInt8)}
    (h : splitLines bytes = line :: lines) : bytes = line ∧ lines = [] ∨
      ∃ more, bytes = line ++ 10 :: more ∧ splitLines more = lines := by
  induction bytes generalizing line with
  | nil => cases h
  | cons b bytes ih =>
    rw [splitLines] at h
    split at h
    · next hb =>
      obtain ⟨rfl, rfl⟩ := List.cons.inj h
      exact Or.inr ⟨bytes, by rw [hb]; rfl, rfl⟩
    · split at h
      · next hnil =>
        obtain ⟨rfl, rfl⟩ := List.cons.inj h
        rw [splitLines_eq_nil hnil]
        exact Or.inl ⟨rfl, rfl⟩
      · next first rest hcons =>
        obtain ⟨rfl, rfl⟩ := List.cons.inj h
        rcases ih hcons with ⟨rfl, rfl⟩ | ⟨more, rfl, hmore⟩
        · exact Or.inl ⟨rfl, rfl⟩
        · exact Or.inr ⟨more, rfl, hmore⟩

/-- Each line stands behind the lines before it. -/
theorem isPrefix_placesFrom {lines : List (List UInt8)} (before : List (List UInt8))
    {bytes : List UInt8} (h : splitLines bytes = lines) : ∀ p ∈ placesFrom before lines,
      p.start ++ p.line <+: before.flatMap (· ++ [10]) ++ bytes := by
  induction lines generalizing before bytes with
  | nil => simp [placesFrom]
  | cons line lines ih =>
    rw [placesFrom, List.forall_mem_cons]
    rcases splitLines_eq_cons h with ⟨rfl, rfl⟩ | ⟨more, rfl, hmore⟩
    · exact ⟨List.prefix_rfl, by simp [placesFrom]⟩
    · have hsame : (before ++ [line]).flatMap (· ++ [10]) ++ more =
          before.flatMap (· ++ [10]) ++ (line ++ 10 :: more) := by simp
      refine ⟨(List.prefix_append_right_inj _).mpr (List.prefix_append _ _), ?_⟩
      rw [← hsame]
      exact ih (before ++ [line]) hmore

theorem ten_not_mem_placesFrom {lines : List (List UInt8)} (hlines : ∀ l ∈ lines, 10 ∉ l)
    {before : List (List UInt8)} (hbefore : ∀ l ∈ before, 10 ∉ l) :
    ∀ p ∈ placesFrom before lines, 10 ∉ p.line ∧ ∀ l ∈ p.before, 10 ∉ l := by
  induction lines generalizing before with
  | nil => simp [placesFrom]
  | cons line lines ih =>
    obtain ⟨hline, hlines⟩ := List.forall_mem_cons.mp hlines
    rw [placesFrom, List.forall_mem_cons]
    refine ⟨⟨hline, hbefore⟩, ih hlines fun l hl => ?_⟩
    rcases List.mem_append.mp hl with hl | hl
    · exact hbefore l hl
    · rwa [List.mem_singleton.mp hl]

theorem ten_not_mem_places {bytes : List UInt8} {p : Place} (hp : p ∈ places bytes) :
    10 ∉ p.line ∧ ∀ l ∈ p.before, 10 ∉ l :=
  ten_not_mem_placesFrom (fun _ => ten_not_mem) (List.forall_mem_nil _) p hp

/-- There are as many line feeds before a line as lines. -/
theorem count_start {ls : List (List UInt8)} (h : ∀ l ∈ ls, 10 ∉ l) :
    (ls.flatMap (· ++ [10])).count 10 = ls.length := by
  induction ls with
  | nil => rfl
  | cons l ls ih =>
    obtain ⟨hl, hls⟩ := List.forall_mem_cons.mp h
    rw [List.flatMap_cons, List.count_append, List.count_append, List.count_eq_zero.mpr hl, ih hls]
    simp [Nat.add_comm]

end Text

/-! ## What a line gives -/

theorem line_of_lineTokens {isIgnored : String → Bool} {line : Nat} {text : List Char} :
    (∀ ts, lineTokens isIgnored line text = .ok ts → ∀ t ∈ ts, t.line = line) ∧
      ∀ e, lineTokens isIgnored line text = .error e → e.line = line := by
  refine ⟨fun ts => forall_lineTokens fun _ _ => line_of_token?, fun e h => ?_⟩
  unfold lineTokens at h
  dsimp only at h
  split at h
  · next htokens =>
    cases h
    obtain ⟨_, l, _, -, herror, -⟩ := Lexeme.tokens_eq_error htokens
    obtain ⟨-, -, rfl⟩ := Lexeme.token?_eq_error_iff.mp herror
    rfl
  · cases h
  · cases h
    rfl

namespace Text.Place

/-- The number of a line, those before it that are no text not counted. -/
def number (p : Place) : Nat := (p.before.map SourceLine.ofBytes).countP (· != .undecodable) + 1

/-- What a line gives: its plain tokens or its error. -/
def reading (isIgnored : String → Bool) (p : Place) : Except LexError (List Token) :=
  match SourceLine.ofBytes p.line with
  | .undecodable => .error (.undecodable p.number)
  | .text chars => lineTokens isIgnored p.number chars

theorem number_add (p : Place) : p.number + p.undecodables = p.before.length + 1 := by
  have hcount := List.length_eq_countP_add_countP (· != .undecodable)
    (l := p.before.map SourceLine.ofBytes)
  have hnot : (p.before.map SourceLine.ofBytes).countP (fun l => ¬(l != .undecodable) = true) =
      p.undecodables := List.countP_congr fun l _ => by simp
  rw [hnot, List.length_map] at hcount
  rw [number, hcount]
  omega

theorem numbers_number {bytes : List UInt8} {p : Place} (hp : p ∈ places bytes) :
    p.Numbers p.number := by
  obtain ⟨hline, hbefore⟩ := ten_not_mem_places hp
  intro front hfront
  have hnone : front.count 10 = 0 := List.count_eq_zero.mpr fun h => hline (hfront.subset h)
  rw [List.count_append, hnone, start, count_start hbefore, number_add]
  omega

theorem line_of_reading {isIgnored : String → Bool} {p : Place} :
    (∀ ts, p.reading isIgnored = .ok ts → ∀ t ∈ ts, t.line = p.number) ∧
      ∀ e, p.reading isIgnored = .error e → e.line = p.number := by
  unfold reading
  split
  · refine ⟨fun ts h => ?_, fun e h => ?_⟩
    · cases h
    · cases h
      rfl
  · exact line_of_lineTokens

end Text.Place

/-- What the lines give is what each gives where it stands. -/
theorem readings_placesFrom (isIgnored : String → Bool) (before lines : List (List UInt8)) :
    readings isIgnored ((before.map SourceLine.ofBytes).countP (· != .undecodable))
        (lines.map SourceLine.ofBytes) =
      (placesFrom before lines).map (Place.reading isIgnored) := by
  induction lines generalizing before with
  | nil => rfl
  | cons line lines ih =>
    have hrest := ih (before ++ [line])
    rw [List.map_append, List.countP_append, List.map_singleton, List.countP_singleton] at hrest
    rw [placesFrom, List.map_cons, List.map_cons, ← hrest, Place.reading]
    cases SourceLine.ofBytes line <;> rfl

theorem readings_places (isIgnored : String → Bool) (bytes : List UInt8) :
    readings isIgnored 0 (sourceLines bytes) = (places bytes).map (Place.reading isIgnored) :=
  readings_placesFrom isIgnored [] (splitLines bytes)

/-! ## What calls answer with -/

theorem mem_scannedTokens {rs : List (Except LexError (List Token))} {t : Token} :
    t ∈ scannedTokens rs ↔ ∃ ts, .ok ts ∈ rs ∧ t ∈ ts := by
  rw [scannedTokens, List.mem_flatMap]
  constructor
  · rintro ⟨r, hr, ht⟩
    cases r with
    | error e => cases ht
    | ok ts => exact ⟨ts, hr, ht⟩
  · rintro ⟨ts, hts, ht⟩
    exact ⟨.ok ts, hts, ht⟩

theorem mem_scanErrors {rs : List (Except LexError (List Token))} {e : LexError} :
    e ∈ scanErrors rs ↔ .error e ∈ rs := by
  rw [scanErrors, List.mem_filterMap]
  constructor
  · rintro ⟨r, hr, he⟩
    cases r with
    | error e' =>
      cases he
      exact hr
    | ok ts => cases he
  · exact fun h => ⟨.error e, h, rfl⟩

namespace TokenStream

/-- A token that is looked at is the pending one at its position, classified. -/
theorem lexical_of_peek {k : Nat} {s s' : TokenStream} {t : Token} (hs : s.Classified)
    (h : peek k s = .ok t s') (hne : t.isEof = false) : s.pending[k]? = some t.lexical := by
  obtain ⟨-, rfl⟩ := peek_ok hs h
  unfold TokenStream.shown at hne ⊢
  rw [upcoming, List.getElem?_map] at hne ⊢
  cases hat : s.pending[k]? with
  | none =>
    rw [hat] at hne
    cases hne
  | some plain =>
    have hplain := pending_isPlain hs plain (List.mem_of_getElem? hat)
    rw [Option.map_some, Option.getD_some, Token.lexical_reserve hplain]

end TokenStream

open TokenStream in
/-- Whatever is called on a fresh stream, failures or not: the tokens delivered and those pending
are the tokens of the lines of the source in order, the errors met and those to come are the errors
of the lines in order, and a token looked at is the pending one at its position. Each of them bears
the number of its line: one more than the line feeds in front of it, less the lines in front of it
that are no text. -/
theorem line_numbers (v : Vocabulary) (bytes : List UInt8) (calls : List Call) :
    let history := (serve calls (ofBytes v bytes)).1
    let s := (serve calls (ofBytes v bytes)).2
    let lines := (places bytes).map (Place.reading v.isIgnored)
    (∀ p ∈ places bytes, p.start ++ p.line <+: bytes ∧ 10 ∉ p.line) ∧
    (deliveries history).map Token.lexical ++ s.pending = scannedTokens lines ∧
    failures history ++ s.faults = scanErrors lines ∧
    (∀ t ∈ deliveries history, ∃ p ∈ places bytes, ∃ ts, p.reading v.isIgnored = .ok ts ∧
      t.lexical ∈ ts ∧ p.Numbers t.line) ∧
    (∀ e ∈ failures history, ∃ p ∈ places bytes, p.reading v.isIgnored = .error e ∧
      p.Numbers e.line) ∧
    ∀ (k : Nat) (t : Token) (s' : TokenStream), peek k s = .ok t s' → t.isEof = false →
      s.pending[k]? = some t.lexical ∧ ∃ p ∈ places bytes, ∃ ts,
        p.reading v.isIgnored = .ok ts ∧ t.lexical ∈ ts ∧ p.Numbers t.line := by
  intro history s lines
  have hserves : Serves (ofBytes v bytes) (deliveries history) (failures history) s :=
    serves_serve calls (classified_ofLines v _)
  have hlines : (ofBytes v bytes).ahead = lines := readings_places v.isIgnored bytes
  have hpending : (deliveries history).map Token.lexical ++ s.pending = scannedTokens lines := by
    rw [← hserves.pending, TokenStream.pending, hlines]
    rfl
  have hfaults : failures history ++ s.faults = scanErrors lines := by
    rw [← hserves.faults, TokenStream.faults, hlines]
  have htoken : ∀ t : Token, t.lexical ∈ scannedTokens lines → ∃ p ∈ places bytes, ∃ ts,
      p.reading v.isIgnored = .ok ts ∧ t.lexical ∈ ts ∧ p.Numbers t.line := by
    intro t ht
    obtain ⟨ts, hts, ht⟩ := mem_scannedTokens.mp ht
    obtain ⟨p, hp, hreading⟩ := List.mem_map.mp hts
    have hline : t.line = p.number := by
      rw [← Token.line_lexical]
      exact Place.line_of_reading.1 ts hreading _ ht
    exact ⟨p, hp, ts, hreading, ht, hline ▸ Place.numbers_number hp⟩
  refine ⟨fun p hp => ⟨?_, ?_⟩, hpending, hfaults, fun t ht => ?_, fun e he => ?_, ?_⟩
  · exact isPrefix_placesFrom [] rfl p hp
  · exact (ten_not_mem_places hp).1
  · apply htoken
    rw [← hpending]
    exact List.mem_append_left _ (List.mem_map_of_mem ht)
  · have hmem : e ∈ scanErrors lines := hfaults ▸ List.mem_append_left _ he
    obtain ⟨p, hp, hreading⟩ := List.mem_map.mp (mem_scanErrors.mp hmem)
    exact ⟨p, hp, hreading, Place.line_of_reading.2 e hreading ▸ Place.numbers_number hp⟩
  · intro k t s' h hne
    have hat := lexical_of_peek hserves.classified h hne
    refine ⟨hat, htoken t ?_⟩
    rw [← hpending]
    exact List.mem_append_right _ (List.mem_of_getElem? hat)

/-- Behind a line that is no text, a token bears the number of the line before its own. -/
theorem undecodable_uncounted :
    (serve [.read, .read] (TokenStream.ofBytes .standard [255, 10, 97])).1 =
      [(.read, .failed (.undecodable 1)), (.read, .token ⟨.identifier, 1, "a", .absent⟩)] ∧
    1 ≠ 1 + ([255, 10] : List UInt8).count 10 := by
  decide +kernel

end HandlerGrammar
