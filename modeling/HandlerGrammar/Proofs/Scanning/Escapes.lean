import HandlerGrammar.Proofs.Scanning.Tiling

/-! # The content of string literals

The content of a literal is read off its body from the left: a backslash and the character behind it
stand for one character, and `\u` takes four characters more where these are read as a number. Four
hexadecimal digits are; so are a plus sign and three digits, which is one spelling too many.

* `IsHexDigit`, `FourDigits`: numbers of characters, `hexDigit_eq_some_iff`;
* `FourOrSigned`: what is read as such a number, `scalar_eq_some_iff`;
* `Decodes`: reading from the left, for any notion of number, `Decodes.unique`;
* `decode_eq_iff`: `decode` is this reading;
* `Decodes.four_digits`: without a sign behind `\u` only four digits are read;
* `literals_decoded`: the content of the literals on a line. -/
namespace HandlerGrammar.Text
set_option autoImplicit false

/-! ## Numbers of characters -/

def smallDigits : List Char :=
  ['0', '1', '2', '3', '4', '5', '6', '7', '8', '9', 'a', 'b', 'c', 'd', 'e', 'f']

def capitalDigits : List Char :=
  ['0', '1', '2', '3', '4', '5', '6', '7', '8', '9', 'A', 'B', 'C', 'D', 'E', 'F']

/-- A hexadecimal digit and its value. -/
def IsHexDigit (c : Char) (n : Nat) : Prop :=
  smallDigits[n]? = some c ∨ capitalDigits[n]? = some c

instance (c : Char) (n : Nat) : Decidable (IsHexDigit c n) :=
  inferInstanceAs (Decidable (_ ∨ _))

/-- Four hexadecimal digits and the character whose number they are. -/
def FourDigits (a b c d x : Char) : Prop :=
  ∃ i j k l, IsHexDigit a i ∧ IsHexDigit b j ∧ IsHexDigit c k ∧ IsHexDigit d l ∧
    x.toNat = ((i * 16 + j) * 16 + k) * 16 + l

/-- Four hexadecimal digits, or three behind a plus sign. -/
def FourOrSigned (a b c d x : Char) : Prop :=
  FourDigits a b c d x ∨ a = '+' ∧ FourDigits '0' b c d x

theorem toNat_le_of_le {c d : Char} (h : c ≤ d) : c.toNat ≤ d.toNat :=
  UInt32.le_iff_toNat_le.mp (Char.le_def.mp h)

theorem toNat_lt_of_hexDigit {c : Char} {n : Nat} (h : hexDigit? c = some n) : c.toNat < 128 := by
  unfold hexDigit? at h
  split at h
  · next hc => exact (Char.isDigit_iff_toNat.mp hc).2.trans_lt (by decide)
  · split at h
    · next hc => exact (toNat_le_of_le hc.2).trans_lt (by decide)
    · split at h
      · next hc => exact (toNat_le_of_le hc.2).trans_lt (by decide)
      · cases h

theorem hexDigit_eq_some_iff {c : Char} {n : Nat} : hexDigit? c = some n ↔ IsHexDigit c n := by
  constructor
  · intro h
    have hall : ∀ m < 128, ∀ n ∈ hexDigit? (Char.ofNat m), IsHexDigit (Char.ofNat m) n := by decide
    have hc := hall c.toNat (toNat_lt_of_hexDigit h) n
    rw [Char.ofNat_toNat] at hc
    exact hc h
  · have hsmall : ∀ p ∈ smallDigits.zipIdx, hexDigit? p.1 = some p.2 := by decide
    have hcapital : ∀ p ∈ capitalDigits.zipIdx, hexDigit? p.1 = some p.2 := by decide
    rintro (h | h)
    · exact hsmall (c, n) (List.mk_mem_zipIdx_iff_getElem?.mpr h)
    · exact hcapital (c, n) (List.mk_mem_zipIdx_iff_getElem?.mpr h)

theorem not_isHexDigit_plus (n : Nat) : ¬ IsHexDigit '+' n := by
  rw [← hexDigit_eq_some_iff]
  intro h
  cases h

theorem hexNumber_eq_some_iff {a b c d : Char} {n : Nat} : hexNumber? [a, b, c, d] = some n ↔
    ∃ i j k l, IsHexDigit a i ∧ IsHexDigit b j ∧ IsHexDigit c k ∧ IsHexDigit d l ∧
      n = ((i * 16 + j) * 16 + k) * 16 + l := by
  simp only [hexNumber?, List.foldl_cons, List.foldl_nil, Option.bind_eq_some_iff,
    Option.map_eq_some_iff, ← hexDigit_eq_some_iff]
  constructor
  · rintro ⟨_, ⟨_, ⟨_, ⟨_, hzero, i, ha, rfl⟩, j, hb, rfl⟩, k, hc, rfl⟩, l, hd, rfl⟩
    obtain rfl := Option.some.inj hzero
    exact ⟨i, j, k, l, ha, hb, hc, hd, by omega⟩
  · rintro ⟨i, j, k, l, ha, hb, hc, hd, rfl⟩
    exact ⟨_, ⟨_, ⟨_, ⟨0, rfl, i, ha, rfl⟩, j, hb, rfl⟩, k, hc, rfl⟩, l, hd, by omega⟩

/-- A number that is a scalar value is that of one character. -/
theorem ofNatAux_eq_some_iff {n? : Option Nat} {x : Char} :
    (n?.bind fun n => if h : n.isValidChar then some (Char.ofNatAux n h) else none) = some x ↔
      n? = some x.toNat := by
  cases n? with
  | none => constructor <;> intro h <;> cases h
  | some n =>
    rw [Option.bind_some, Option.some.injEq]
    constructor
    · intro h
      by_cases hn : n.isValidChar
      · rw [dif_pos hn] at h
        obtain rfl := Option.some.inj h
        rfl
      · rw [dif_neg hn] at h
        cases h
    · rintro rfl
      exact dif_pos x.valid

/-- A plus sign counts as a zero. -/
theorem scalar_eq_some_iff {a b c d x : Char} :
    scalar? a b c d = some x ↔ FourOrSigned a b c d x := by
  rw [scalar?, ofNatAux_eq_some_iff]
  by_cases ha : a = '+'
  · subst ha
    have hzero : hexNumber? [b, c, d] = hexNumber? ['0', b, c, d] := rfl
    rw [if_pos rfl, hzero, hexNumber_eq_some_iff]
    constructor
    · exact fun h => Or.inr ⟨rfl, h⟩
    · rintro (⟨i, j, k, l, hplus, -⟩ | ⟨-, h⟩)
      · exact absurd hplus (not_isHexDigit_plus i)
      · exact h
  · rw [if_neg ha, hexNumber_eq_some_iff]
    exact ⟨Or.inl, fun h => h.resolve_right fun hplus => ha hplus.1⟩

/-! ## Reading from the left -/

/-- The characters that a letter behind a backslash stands for. -/
def controls : List (Char × Char) :=
  [('n', '\n'), ('t', '\t'), ('r', '\r'), ('b', '\x08'), ('f', '\x0c')]

/-- Reading the body of a literal from the left. Four characters behind `\u` are read together if they
are a number `R` of a character. -/
inductive Decodes (R : Char → Char → Char → Char → Char → Prop) : List Char → List Char → Prop where
  | done : Decodes R [] []
  /-- Every other character stands for itself, a last backslash with nothing behind it too. -/
  | char {c : Char} {cs xs : List Char} (hc : c = '\\' → cs = []) (h : Decodes R cs xs) :
      Decodes R (c :: cs) (c :: xs)
  | control {c x : Char} {cs xs : List Char} (hc : (c, x) ∈ controls) (h : Decodes R cs xs) :
      Decodes R ('\\' :: c :: cs) (x :: xs)
  | number {a b c d x : Char} {cs xs : List Char} (hx : R a b c d x) (h : Decodes R cs xs) :
      Decodes R ('\\' :: 'u' :: a :: b :: c :: d :: cs) (x :: xs)
  | other {c : Char} {cs xs : List Char} (hc : ∀ x, (c, x) ∉ controls)
      (hu : c = 'u' → ∀ a b c d rest x, cs = a :: b :: c :: d :: rest → ¬ R a b c d x)
      (h : Decodes R cs xs) : Decodes R ('\\' :: c :: cs) (c :: xs)

section
variable {R : Char → Char → Char → Char → Char → Prop} {cs xs ys : List Char}

theorem eq_of_mem_controls {c x y : Char} (hx : (c, x) ∈ controls) (hy : (c, y) ∈ controls) :
    x = y := by
  have hall : ∀ p ∈ controls, ∀ q ∈ controls, p.1 = q.1 → p.2 = q.2 := by decide
  exact hall _ hx _ hy rfl

theorem u_not_mem_controls (x : Char) : ('u', x) ∉ controls := by
  have hall : ∀ p ∈ controls, p.1 ≠ 'u' := by decide
  exact fun h => hall _ h rfl

/-- Where a number is that of one character only, there is one way to read a body. -/
theorem Decodes.unique (hR : ∀ {a b c d x y}, R a b c d x → R a b c d y → x = y)
    (h : Decodes R cs xs) (h' : Decodes R cs ys) : xs = ys := by
  induction h generalizing ys with
  | done =>
    cases h'
    rfl
  | @char c cs xs hc h ih =>
    cases h' with
    | char _ h' => rw [ih h']
    | control => cases hc rfl
    | number => cases hc rfl
    | other => cases hc rfl
  | @control c x cs xs hc h ih =>
    cases h' with
    | char hlast => cases hlast rfl
    | control hc' h' => rw [eq_of_mem_controls hc hc', ih h']
    | number => exact absurd hc (u_not_mem_controls x)
    | other hno => exact absurd hc (hno x)
  | @number a b c d x cs xs hx h ih =>
    cases h' with
    | char hlast => cases hlast rfl
    | control hc => exact absurd hc (u_not_mem_controls _)
    | number hx' h' => rw [hR hx hx', ih h']
    | other _ hno => exact absurd hx (hno rfl _ _ _ _ _ _ rfl)
  | @other c cs xs hc hu h ih =>
    cases h' with
    | char hlast => cases hlast rfl
    | control hc' => exact absurd hc' (hc _)
    | number hx => exact absurd hx (hu rfl _ _ _ _ _ _ rfl)
    | other _ _ h' => rw [ih h']

theorem escaped_of_mem {c x : Char} (h : (c, x) ∈ controls) : escaped c = x := by
  have hall : ∀ p ∈ controls, escaped p.1 = p.2 := by decide
  exact hall _ h

theorem escaped_eq_or_mem (c : Char) : escaped c = c ∨ (c, escaped c) ∈ controls := by
  unfold escaped
  split <;> simp [controls]

/-- What is read of two characters behind a backslash. -/
theorem Decodes.pair {c : Char} (h : Decodes R cs xs)
    (hu : c = 'u' → ∀ a b c d rest x, cs = a :: b :: c :: d :: rest → ¬ R a b c d x) :
    Decodes R ('\\' :: c :: cs) (escaped c :: xs) := by
  by_cases hc : ∃ x, (c, x) ∈ controls
  · obtain ⟨x, hc⟩ := hc
    rw [escaped_of_mem hc]
    exact h.control hc
  · have hsame : escaped c = c := (escaped_eq_or_mem c).resolve_right fun hmem => hc ⟨_, hmem⟩
    rw [hsame]
    exact h.other (fun x hx => hc ⟨x, hx⟩) hu

theorem decodes_decode (cs : List Char) : Decodes FourOrSigned cs (decode cs) := by
  fun_induction decode cs with
  | case1 a b c d rest x hx ih => exact ih.number (scalar_eq_some_iff.mp hx)
  | case2 a b c d rest hnone ih =>
    refine ih.pair fun _ _ _ _ _ _ x hsame hx => ?_
    cases hsame
    rw [scalar_eq_some_iff.mpr hx] at hnone
    cases hnone
  | case3 c rest hshort ih =>
    exact ih.pair fun hu _ _ _ _ _ _ hsame => (hshort _ _ _ _ _ hu hsame).elim
  | case4 c rest hnumber hpair ih =>
    refine ih.char fun hc => ?_
    cases rest with
    | nil => rfl
    | cons d rest => exact (hpair d rest hc rfl).elim
  | case5 => exact .done

theorem fourDigits_unique {a b c d x y : Char} (hx : FourDigits a b c d x)
    (hy : FourDigits a b c d y) : x = y := by
  have hx := scalar_eq_some_iff.mpr (Or.inl hx)
  have hy := scalar_eq_some_iff.mpr (Or.inl hy)
  exact Option.some.inj (hx.symm.trans hy)

/-- Decoding is reading from the left. -/
theorem decode_eq_iff : decode cs = xs ↔ Decodes FourOrSigned cs xs := by
  constructor
  · rintro rfl
    exact decodes_decode cs
  · refine (decodes_decode cs).unique fun hx hy => ?_
    have hx := scalar_eq_some_iff.mpr hx
    exact Option.some.inj (hx.symm.trans (scalar_eq_some_iff.mpr hy))

/-- Where no plus sign follows a `\u`, four digits are all that is read as a number. -/
theorem Decodes.four_digits (h : Decodes FourOrSigned cs xs) (hplus : ¬ ['\\', 'u', '+'] <:+: cs) :
    Decodes FourDigits cs xs := by
  have htail : ∀ (ds : List Char) {rest : List Char}, ¬ ['\\', 'u', '+'] <:+: ds ++ rest →
      ¬ ['\\', 'u', '+'] <:+: rest := fun ds _ hplus h =>
    hplus (h.trans (List.suffix_append ds _).isInfix)
  induction h with
  | done => exact .done
  | @char c _ _ hc h ih => exact (ih (htail [c] hplus)).char hc
  | @control c _ _ _ hc h ih => exact (ih (htail ['\\', c] hplus)).control hc
  | @number a b c d _ cs _ hx h ih =>
    refine (ih (htail ['\\', 'u', a, b, c, d] hplus)).number (hx.resolve_right ?_)
    rintro ⟨rfl, -⟩
    exact hplus ⟨[], b :: c :: d :: cs, rfl⟩
  | @other c _ _ hc hu h ih =>
    refine (ih (htail ['\\', c] hplus)).other hc fun hu' a b c d rest x hcs hx => ?_
    exact hu hu' a b c d rest x hcs (Or.inl hx)

theorem decodes_fourDigits_iff (hplus : ¬ ['\\', 'u', '+'] <:+: cs) :
    Decodes FourDigits cs xs ↔ xs = decode cs := by
  have hdecodes := (decodes_decode cs).four_digits hplus
  constructor
  · exact fun h => h.unique (R := FourDigits) fourDigits_unique hdecodes
  · rintro rfl
    exact hdecodes

end
end HandlerGrammar.Text

namespace HandlerGrammar
open Text Pattern Category
set_option autoImplicit false

/-! ## Literals on a line -/

/-- A string is its body between two quotes. -/
theorem exists_body {w : List Char} (hw : w ∈ Category.string.language) :
    ∃ body, w = '"' :: (body ++ ['"']) := by
  obtain ⟨v, hv, rfl⟩ := mem_literal_mul.mp hw
  obtain ⟨body, -, _, rfl, rfl⟩ := Language.mem_mul.mp hv
  exact ⟨body, rfl⟩

theorem unquote_quoted (body : List Char) : unquote ('"' :: (body ++ ['"'])) = body :=
  List.dropLast_concat

/-- The token of a string lexeme, whose content its body is read as. -/
structure ReadsLiteral (l : Lexeme) (t : Token) (body content : List Char) : Prop where
  lexeme : l.text = '"' :: (body ++ ['"'])
  text : t.text = String.ofList l.text
  value : t.value = .text (String.ofList content)

theorem readsLiteral_of_token? {isIgnored : String → Bool} {line : Nat} {l : Lexeme} {t : Token}
    (h : l.token? isIgnored line = .ok (some t)) (hstring : l.category = .string)
    (hl : l.text ∈ l.category.language) (isReserved : String → Bool) :
    ∃ body, ReadsLiteral l (t.reserve isReserved) body (decode body) := by
  obtain ⟨category, text⟩ := l
  obtain rfl : category = .string := hstring
  obtain ⟨body, rfl⟩ := exists_body hl
  have hvalue : t.value = .text (String.ofList (decode body)) := by
    simp only [Lexeme.token?, Except.ok.injEq, Option.some.injEq] at h
    rw [← h, unquote_quoted]
  exact ⟨body, rfl, (readAs_of_token? h isReserved).text, (Token.value_reserve _ _).trans hvalue⟩

/-- The content of every literal on a line that scans is its body read from the left, a number being
four hexadecimal digits or three behind a plus sign. If no plus sign follows a `\u` in it, only four
digits are a number. -/
theorem literals_decoded {s s' : TokenStream} {line : List Char} {later : List SourceLine}
    (hunread : s.unread = .text line :: later) (hline : '\n' ∉ line) (hpull : s.pull = .ok () s') :
    ∃ ls ts, Cuts line ls [] ∧ s'.buffer = s.buffer ++ ts ∧
      List.Forall₂ (fun l t => l.category = .string → ∃ body content,
          ReadsLiteral l t body content ∧
          (∀ xs, Decodes FourOrSigned body xs ↔ xs = content) ∧
          (¬ ['\\', 'u', '+'] <:+: body → ∀ xs, Decodes FourDigits body xs ↔ xs = content))
        (Lexeme.kept s.vocabulary.isIgnored ls) ts := by
  cases hread : lineTokens s.vocabulary.isIgnored (s.line + 1) line with
  | error e =>
    rw [pull_of_error hunread hread] at hpull
    cases hpull
  | ok plain =>
    rw [pull_of_ok hunread hread] at hpull
    cases hpull
    obtain ⟨ls, hls, htokens⟩ := (lineTokens_ok_iff hline).mp hread
    refine ⟨ls, plain.map (Token.reserve s.isReserved), hls, rfl, ?_⟩
    rw [List.forall₂_map_right_iff]
    have hlanguage : ∀ l ∈ Lexeme.kept s.vocabulary.isIgnored ls, l.text ∈ l.category.language := by
      intro l hl
      obtain ⟨_, -, hmunches⟩ := hls.munches l (Lexeme.mem_kept.mp hl).1
      exact hmunches.mem_language
    refine ((List.forall₂_and_left _ _).mpr ⟨hlanguage, Lexeme.tokens_ok_iff.mp htokens⟩).imp ?_
    rintro l t ⟨hl, htoken⟩ hstring
    obtain ⟨body, hreads⟩ := readsLiteral_of_token? htoken hstring hl s.isReserved
    refine ⟨body, decode body, hreads, fun xs => ?_, fun hplus xs => decodes_fourDigits_iff hplus⟩
    rw [← decode_eq_iff, eq_comm]

/-- A capital letter by its number, half of a surrogate pair, a number behind a sign, a quote and a line
break. -/
theorem literals_decoded_sample :
    let line := ['"', '\\', 'u', '0', '0', '4', 'a', '\\', 'u', 'D', '8', '3', 'D', '"', ' ',
      '"', '\\', 'u', '+', '0', '4', '1', '\\', '"', '\\', 'n', '"']
    let s : TokenStream := ⟨.standard, .empty, [], [.text line], 0⟩
    s.unread = [.text line] ∧ '\n' ∉ line ∧ ∃ s', s.pull = .ok () s' ∧ ∃ ls ts,
      Cuts line ls [] ∧ s'.buffer = s.buffer ++ ts ∧
        List.Forall₂ (fun l t => l.category = .string → ∃ body content,
            ReadsLiteral l t body content ∧
            (∀ xs, Decodes FourOrSigned body xs ↔ xs = content) ∧
            (¬ ['\\', 'u', '+'] <:+: body → ∀ xs, Decodes FourDigits body xs ↔ xs = content))
          (Lexeme.kept s.vocabulary.isIgnored ls) ts :=
  ⟨rfl, by decide, _, rfl, literals_decoded rfl (by decide) rfl⟩

/-- Three digits behind a plus sign are read as a number, although they are not four digits: by those
the literal would have six characters. -/
theorem plus_sign_decoded :
    let body := ['\\', 'u', '+', '0', '4', '1']
    let s : TokenStream := ⟨.standard, .empty, [], [.text ('"' :: (body ++ ['"']))], 0⟩
    (∃ s', s.pull = .ok () s' ∧ s'.buffer = [⟨.string, 1, "\"\\u+041\"", .text "A"⟩]) ∧
      Decodes FourDigits body ['u', '+', '0', '4', '1'] ∧ ¬ Decodes FourDigits body ['A'] := by
  intro body s
  have hno : ∀ {a b c d : Char} {rest : List Char} {x : Char},
      ['+', '0', '4', '1'] = a :: b :: c :: d :: rest → ¬ FourDigits a b c d x := by
    rintro _ _ _ _ _ _ ⟨⟩ ⟨i, _, _, _, hplus, -⟩
    exact not_isHexDigit_plus i hplus
  have hchars : Decodes FourDigits ['+', '0', '4', '1'] ['+', '0', '4', '1'] :=
    .char (by decide) (.char (by decide) (.char (by decide) (.char (by decide) .done)))
  have hfour : Decodes FourDigits body ['u', '+', '0', '4', '1'] :=
    hchars.other u_not_mem_controls fun _ _ _ _ _ _ _ => hno
  refine ⟨⟨_, rfl, rfl⟩, hfour, fun h => ?_⟩
  · have hsame := h.unique (R := FourDigits) fourDigits_unique hfour
    exact absurd hsame (by decide)

end HandlerGrammar
