import HandlerGrammar.Proofs.Scanning.Escapes
import HandlerGrammar.Proofs.Scanning.Printing

/-! # Writing string literals

Every text has a literal: quotes and backslashes are written with a backslash in front, control
characters by their letter or their number, and anything else as it is. A literal is one lexeme,
since no quote in it is without its backslash, and its content is the text.

* `encodeChar`, `encode`: a character and a text as they are written between the quotes;
* `Encodes`: the ways in which a character is written, `encodes_encodeChar`;
* `decode_encode`, `encode_mem_quoted`, `newline_not_mem_encode`: what is written is read back, ends
  at its quote and stays on its line;
* `lineTokens_literal`: a literal on a line of its own;
* `tokens_literal`: a literal as a source. -/
namespace HandlerGrammar
open Text Pattern Category
set_option autoImplicit false

/-! ## Writing -/

namespace Text

/-- A character as it is written in a literal, its number with the given digits. -/
def encodeChar (digits : List Char) (c : Char) : List Char :=
  match c with
  | '"' => ['\\', '"']
  | '\\' => ['\\', '\\']
  | '\n' => ['\\', 'n']
  | '\t' => ['\\', 't']
  | '\r' => ['\\', 'r']
  | '\x08' => ['\\', 'b']
  | '\x0c' => ['\\', 'f']
  | c =>
    if c.toNat < 0x20 then
      ['\\', 'u', '0', '0', digits.getD (c.toNat / 16) '0', digits.getD (c.toNat % 16) '0']
    else [c]

/-- A text as it is written in a literal, with small or with capital letters in its numbers. -/
def encode (capital : Bool) (cs : List Char) : List Char :=
  cs.flatMap (encodeChar (if capital then capitalDigits else smallDigits))

end Text

/-- The ways in which a character is written. -/
inductive Encodes (c : Char) : List Char → Prop where
  | plain (hquote : c ≠ '"') (hbackslash : c ≠ '\\') (hcontrol : 0x20 ≤ c.toNat) : Encodes c [c]
  | pair {d : Char} (hd : escaped d = c) (hu : d ≠ 'u') (hnewline : d ≠ '\n') : Encodes c ['\\', d]
  | number {a b : Char} (h : FourDigits '0' '0' a b c) : Encodes c ['\\', 'u', '0', '0', a, b]

theorem isHexDigit_getD {digits : List Char} (hdigits : digits = smallDigits ∨ digits = capitalDigits)
    {n : Nat} (hn : n < 16) : IsHexDigit (digits.getD n '0') n := by
  have hsmall : ∀ n < 16, smallDigits[n]? = some (smallDigits.getD n '0') := by decide
  have hcapital : ∀ n < 16, capitalDigits[n]? = some (capitalDigits.getD n '0') := by decide
  rcases hdigits with rfl | rfl
  · exact Or.inl (hsmall n hn)
  · exact Or.inr (hcapital n hn)

theorem encodes_encodeChar {digits : List Char}
    (hdigits : digits = smallDigits ∨ digits = capitalDigits) (c : Char) :
    Encodes c (encodeChar digits c) := by
  unfold encodeChar
  split
  case h_8 hquote hbackslash _ _ _ _ _ =>
    split
    · next hlow =>
      have hhigh := isHexDigit_getD hdigits (n := c.toNat / 16) (by omega)
      have hunit := isHexDigit_getD hdigits (n := c.toNat % 16) (by omega)
      exact .number ⟨0, 0, _, _, by decide, by decide, hhigh, hunit, by omega⟩
    · next hlow => exact .plain hquote hbackslash (Nat.le_of_not_lt hlow)
  all_goals exact .pair rfl (by decide) (by decide)

section
variable {c : Char} {w cs xs v : List Char}

theorem Encodes.decodes (h : Encodes c w) (hcs : Decodes FourOrSigned cs xs) :
    Decodes FourOrSigned (w ++ cs) (c :: xs) := by
  cases h with
  | plain _ hbackslash => exact hcs.char fun hc => absurd hc hbackslash
  | pair hd hu =>
    rw [← hd]
    exact hcs.pair fun hc => absurd hc hu
  | number hnumber => exact hcs.number (Or.inl hnumber)

theorem Text.IsHexDigit.plain {n : Nat} (h : IsHexDigit c n) : c ≠ '"' ∧ c ≠ '\\' ∧ 0x20 ≤ c.toNat := by
  have hsmall : ∀ c ∈ smallDigits, c ≠ '"' ∧ c ≠ '\\' ∧ 0x20 ≤ c.toNat := by
    simp [smallDigits]
  have hcapital : ∀ c ∈ capitalDigits, c ≠ '"' ∧ c ≠ '\\' ∧ 0x20 ≤ c.toNat := by
    simp [capitalDigits]
  rcases h with h | h
  · exact hsmall c (List.mem_of_getElem? h)
  · exact hcapital c (List.mem_of_getElem? h)

theorem cons_mem_quoted (hquote : c ≠ '"') (hbackslash : c ≠ '\\') (hv : v ∈ Category.quoted) :
    c :: v ∈ Category.quoted := by
  rw [quoted_eq]
  refine (Language.mem_add _ _ _).mpr (Or.inr ((Language.mem_add _ _ _).mpr (Or.inl ?_)))
  exact mem_oneOf_mul.mpr ⟨c, v, rfl, by simp [hquote, hbackslash], hv⟩

theorem escape_mem_quoted (hc : c ≠ '\n') (hv : v ∈ Category.quoted) :
    '\\' :: c :: v ∈ Category.quoted := by
  rw [quoted_eq]
  refine (Language.mem_add _ _ _).mpr (Or.inr ((Language.mem_add _ _ _).mpr (Or.inr ?_)))
  exact mem_oneOf_mul.mpr ⟨'\\', _, rfl, rfl, mem_oneOf_mul.mpr ⟨c, v, rfl, by simp [hc], hv⟩⟩

/-- No quote is written without a backslash. -/
theorem Encodes.mem_quoted (h : Encodes c w) (hv : v ∈ Category.quoted) :
    w ++ v ∈ Category.quoted := by
  cases h with
  | plain hquote hbackslash => exact cons_mem_quoted hquote hbackslash hv
  | pair _ _ hnewline => exact escape_mem_quoted hnewline hv
  | number hnumber =>
    obtain ⟨_, _, _, _, h₁, h₂, h₃, h₄, -⟩ := hnumber
    have hplain : ∀ {d : Char} {n : Nat} {v : List Char}, IsHexDigit d n → v ∈ Category.quoted →
        d :: v ∈ Category.quoted := fun hd hv => cons_mem_quoted hd.plain.1 hd.plain.2.1 hv
    exact escape_mem_quoted (by decide) (hplain h₁ (hplain h₂ (hplain h₃ (hplain h₄ hv))))

theorem Encodes.newline_not_mem (h : Encodes c w) : '\n' ∉ w := by
  have hplain : ∀ {d : Char}, 0x20 ≤ d.toNat → '\n' ≠ d := by
    rintro d hd rfl
    exact absurd hd (by decide)
  cases h with
  | plain _ _ hcontrol => simpa using hplain hcontrol
  | pair _ _ hnewline => simpa using hnewline.symm
  | number hnumber =>
    obtain ⟨_, _, _, _, -, -, h₃, h₄, -⟩ := hnumber
    simpa using ⟨hplain h₃.plain.2.2, hplain h₄.plain.2.2⟩

end

/-! ## Texts -/

section
variable (capital : Bool) (cs : List Char)

theorem encodes_encode (c : Char) :
    Encodes c (encodeChar (if capital then capitalDigits else smallDigits) c) :=
  encodes_encodeChar (by cases capital <;> simp) c

/-- What is written is read back. -/
theorem decode_encode : decode (encode capital cs) = cs := by
  rw [decode_eq_iff, encode]
  induction cs with
  | nil => exact .done
  | cons c cs ih => exact (encodes_encode capital c).decodes ih

theorem encode_mem_quoted : encode capital cs ++ ['"'] ∈ Category.quoted := by
  rw [encode]
  induction cs with
  | nil =>
    rw [quoted_eq]
    exact (Language.mem_add _ _ _).mpr (Or.inl rfl)
  | cons c cs ih =>
    rw [List.flatMap_cons, List.append_assoc]
    exact (encodes_encode capital c).mem_quoted ih

theorem newline_not_mem_encode : '\n' ∉ encode capital cs := by
  rw [encode, List.mem_flatMap]
  rintro ⟨c, -, hc⟩
  exact (encodes_encode capital c).newline_not_mem hc

/-! ## Literals -/

/-- The literal of a text. -/
def Text.literal : List Char := '"' :: (encode capital cs ++ ['"'])

theorem newline_not_mem_literal : '\n' ∉ Text.literal capital cs := by
  simpa [Text.literal] using newline_not_mem_encode capital cs

/-- A literal is one lexeme. -/
theorem cuts_literal : Cuts (Text.literal capital cs) [⟨.string, Text.literal capital cs⟩] [] := by
  have hmem : Text.literal capital cs ∈ Category.string.language :=
    mem_literal_mul.mpr ⟨_, encode_mem_quoted capital cs, rfl⟩
  have hclosed : ∀ fragment, ¬ Unclosed (Text.literal capital cs) fragment := by
    intro fragment hopen
    cases hopen with
    | string hnone => exact hnone _ hmem List.prefix_rfl
  have hfirst : ∀ c : Category, Text.literal capital cs ∈ c.language → string.ctorIdx ≤ c.ctorIdx := by
    intro c hc
    rw [eq_string hc rfl]
  have hmunches : Munches (Text.literal capital cs) ⟨.string, Text.literal capital cs⟩ :=
    ⟨List.cons_ne_nil _ _, List.prefix_rfl, hmem, fun _ _ _ hpre => hpre.length_le, hfirst⟩
  have hcuts : Cuts (Text.literal capital cs ++ []) [⟨.string, Text.literal capital cs⟩] [] :=
    .lexeme (l := ⟨.string, Text.literal capital cs⟩) (by rwa [List.append_nil])
      (by rwa [List.append_nil]) (.done [])
  rwa [List.append_nil] at hcuts

theorem lineTokens_literal (isIgnored : String → Bool) (line : Nat) :
    lineTokens isIgnored line (Text.literal capital cs) = .ok
      [⟨.string, line, String.ofList (Text.literal capital cs), .text (String.ofList cs)⟩] := by
  refine (lineTokens_ok_iff (newline_not_mem_literal capital cs)).mpr ⟨_, cuts_literal capital cs, ?_⟩
  have hcontent : decode (unquote (Text.literal capital cs)) = cs := by
    rw [Text.literal, unquote_quoted, decode_encode]
  simp [Lexeme.tokens, Lexeme.token?, hcontent, Except.map]

theorem sourceLines_literal :
    sourceLines (utf8 (Text.literal capital cs)) = [.text (Text.literal capital cs)] := by
  have hsplit : splitText (Text.literal capital cs) = [Text.literal capital cs] := by
    have h := splitText_append (List.cons_ne_nil _ _) (newline_not_mem_literal capital cs) []
    rw [List.append_nil] at h
    exact h.trans (congrArg (· :: []) (List.append_nil _))
  have hlast : ('"' :: encode capital cs ++ ['"']).getLast? = some '"' := List.getLast?_concat
  have hchomp : chomp (Text.literal capital cs) = Text.literal capital cs :=
    if_neg fun hreturn => absurd (hlast.symm.trans hreturn) (by decide)
  rw [sourceLines_utf8, hsplit, List.map_singleton, Function.comp_apply, hchomp]

end

open TokenStream in
/-- Every text can be written as a literal, and is read back: whatever words are reserved, the literal
is one token with that text as its word, a reserved word if the text is reserved. -/
theorem tokens_literal (v : Vocabulary) (reserved : WordSet) (capital : Bool) (cs : List Char) :
    ∃ t s', (ofSource v reserved (utf8 (Text.literal capital cs))).tokens = .ok [t] s' ∧
      t.text = String.ofList (Text.literal capital cs) ∧ t.word = String.ofList cs ∧
      t.kind = if v.isReserved (String.ofList cs) = true ∨ reserved.contains (String.ofList cs) = true
        then .reserved else .string := by
  let plain : Token :=
    ⟨.string, 1, String.ofList (Text.literal capital cs), .text (String.ofList cs)⟩
  have hreadings : readings v.isIgnored 0 (sourceLines (utf8 (Text.literal capital cs))) =
      [.ok [plain]] := by
    rw [sourceLines_literal, readings, lineTokens_literal]
    rfl
  have hclean : (ofSource v reserved (utf8 (Text.literal capital cs))).faults = [] :=
    congrArg scanErrors hreadings
  have hstream := classified_ofSource v reserved (utf8 (Text.literal capital cs))
  obtain ⟨s', hs'⟩ := (tokens_eq_ok_iff hstream).mpr ⟨hclean, rfl⟩
  rw [upcoming_ofSource, hreadings] at hs'
  refine ⟨plain.reserve (ofSource v reserved []).isReserved, s', hs', ?_⟩
  have hword : plain.word = String.ofList cs := rfl
  have hreserved : (ofSource v reserved []).isReserved plain.word = true ↔
      v.isReserved (String.ofList cs) = true ∨ reserved.contains (String.ofList cs) = true :=
    Bool.or_eq_true_iff
  cases hcase : (ofSource v reserved []).isReserved plain.word with
  | true =>
    rw [Token.reserve_of_isReserved (Or.inl rfl) hcase, if_pos (hreserved.mp hcase)]
    exact ⟨rfl, rfl, rfl⟩
  | false =>
    rw [Token.reserve_of_not_isReserved hcase, if_neg (by simp [← hreserved, hcase])]
    exact ⟨rfl, rfl, rfl⟩

end HandlerGrammar
