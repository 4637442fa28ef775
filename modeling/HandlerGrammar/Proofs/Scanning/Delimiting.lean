import HandlerGrammar.Proofs.Scanning.Cutting

/-! # Lexemes before a blank

Whatever followed a lexeme when it was taken off a line, it is taken off again where a blank or nothing
follows it, unless it is a comment. Only comments and strings have blanks in them, and a string ends
where it is closed.

* `Over`: the characters that the words of a language are spelled with;
* `not_blank_of_mem_tail`, `eq_slash`, `eq_return`, `eq_nil_of_mem_string`: what words of the
  categories look like;
* `Munches.delimited`, `Munches.not_unclosed`: a lexeme before a blank. -/
namespace HandlerGrammar
open Computability Pattern Category
set_option autoImplicit false

/-! ## Alphabets -/

/-- All words of the language are spelled with characters of a kind. -/
def Over (p : Char → Bool) (L : Language Char) : Prop := ∀ w ∈ L, ∀ c ∈ w, p c = true

section
variable {p q : Char → Bool} {K L : Language Char} {t : List Char}

theorem over_oneOf (h : ∀ c, q c = true → p c = true) : Over p (oneOf q) := by
  rintro w ⟨c, hc, rfl⟩ d hd
  rw [List.mem_singleton.mp hd]
  exact h c hc

theorem over_literal (h : ∀ c ∈ t, p c = true) : Over p (literal t) := by
  rintro w rfl
  exact h

theorem over_one : Over p 1 := by
  intro w hw c hc
  rw [(Language.mem_one w).mp hw] at hc
  cases hc

theorem Over.add (hK : Over p K) (hL : Over p L) : Over p (K + L) := by
  intro w hw
  exact ((Language.mem_add K L w).mp hw).elim (hK w) (hL w)

theorem Over.mul (hK : Over p K) (hL : Over p L) : Over p (K * L) := by
  intro w hw c hc
  obtain ⟨u, hu, v, hv, rfl⟩ := Language.mem_mul.mp hw
  exact (List.mem_append.mp hc).elim (hK u hu c) (hL v hv c)

theorem Over.kstar (hL : Over p L) : Over p L∗ := by
  intro w hw c hc
  obtain ⟨ws, rfl, hws⟩ := Language.mem_kstar.mp hw
  obtain ⟨u, hu, hc⟩ := List.mem_flatten.mp hc
  exact hL u (hws u hu) c hc

theorem over_manyOf (h : ∀ c, q c = true → p c = true) : Over p (manyOf q) := (over_oneOf h).kstar

theorem over_someOf (h : ∀ c, q c = true → p c = true) : Over p (someOf q) :=
  (over_oneOf h).mul (over_manyOf h)

theorem Over.opt (hL : Over p L) : Over p (Pattern.opt L) := over_one.add hL

end

/-! ## Words of the categories -/

/-- Letters, digits and what else numbers and words are spelled with. -/
def isSpelling (c : Char) : Bool := c.isAlphanum || c == '_' || c == '-' || c == '+' || c == '.'

section
variable {c : Category} {w : List Char}

theorem over_digits : Over isSpelling digits :=
  over_someOf fun c hc => by simp [isSpelling, Char.isAlphanum, hc]

theorem over_exponent : Over isSpelling exponent := by
  refine (over_oneOf fun c hc => ?_).mul (Over.mul (Over.opt (over_oneOf fun c hc => ?_)) over_digits)
  · rcases (by simpa using hc : c = 'e' ∨ c = 'E') with rfl | rfl <;> rfl
  · rcases (by simpa using hc : c = '+' ∨ c = '-') with rfl | rfl <;> rfl

/-- Numbers and words have neither blanks nor line breaks in them. -/
theorem over_language (hc : c = .float ∨ c = .integer ∨ c = .bool ∨ c = .word) :
    Over isSpelling c.language := by
  have hminus : Over isSpelling (Pattern.opt (oneOf (· == '-'))) :=
    Over.opt (over_oneOf fun c hc => by rw [eq_of_beq hc]; rfl)
  rcases hc with rfl | rfl | rfl | rfl
  · have hdecimals := over_digits.mul over_exponent.opt
    exact (hminus.mul (over_digits.mul ((over_literal (by simp [isSpelling])).mul hdecimals))).add
      (hminus.mul (over_digits.mul over_exponent))
  · exact hminus.mul over_digits
  · exact (over_literal (by simp [isSpelling])).add (over_literal (by simp [isSpelling]))
  · refine (over_oneOf fun c hc => ?_).mul (over_manyOf fun c hc => ?_)
    · rcases Bool.or_eq_true_iff.mp hc with hc | hc <;> simp [isSpelling, Char.isAlphanum, hc]
    · rcases Bool.or_eq_true_iff.mp hc with hc | hc <;> simp [isSpelling, hc]

theorem begins_of_mem {a : Char} (hw : w ∈ c.language) (ha : w.head? = some a) :
    c.begins a = true := by
  obtain ⟨b, hb, hbegins⟩ := startsIn_language c w hw
  obtain rfl := Option.some.inj (ha.symm.trans hb)
  exact hbegins

theorem mem_symbol (hw : w ∈ symbol.language) : w ∈ operators ∨ ∃ c, w = [c] := by
  rcases (Language.mem_add _ _ w).mp hw with hw | ⟨c, -, rfl⟩
  · exact Or.inl hw
  · exact Or.inr ⟨c, rfl⟩

theorem not_blank_of_mem_tail (hcomment : c ≠ .comment) (hstring : c ≠ .string)
    (hw : w ∈ c.language) : ∀ d ∈ w.tail, d ≠ ' ' ∧ d ≠ '\t' := by
  intro d hd
  by_cases hsymbol : c = .symbol
  · subst hsymbol
    have hoperators : ∀ w ∈ operators, ∀ d ∈ w.tail, d ≠ ' ' ∧ d ≠ '\t' := by
      simp [operators]
    rcases mem_symbol hw with hop | ⟨a, rfl⟩
    · exact hoperators w hop d hd
    · cases hd
  · have hspelling : isSpelling d = true := by
      refine over_language ?_ w hw d (List.mem_of_mem_tail hd)
      cases c <;> simp_all
    constructor
    · rintro rfl
      exact absurd hspelling (by decide)
    · rintro rfl
      exact absurd hspelling (by decide)

/-- Only comments begin with a slash and go on. -/
theorem eq_slash (hcomment : c ≠ .comment) (hw : w ∈ c.language) (hslash : w.head? = some '/') :
    w = ['/'] := by
  have hbegins := begins_of_mem hw hslash
  have hsymbol : c = .symbol := by
    cases c <;> first | rfl | exact absurd rfl hcomment | exact absurd hbegins (by decide)
  subst hsymbol
  have hoperators : ∀ w ∈ operators, w.head? ≠ some '/' := by decide
  rcases mem_symbol hw with hop | ⟨a, rfl⟩
  · exact absurd hslash (hoperators w hop)
  · exact congrArg ([·]) (Option.some.inj hslash)

theorem eq_string (hw : w ∈ c.language) (hquote : w.head? = some '"') : c = .string := by
  have hbegins := begins_of_mem hw hquote
  cases c <;> first | rfl | exact absurd hbegins (by decide)

theorem mem_comment (hw : w ∈ comment.language) :
    ∃ d v, w = '/' :: d :: v ∧ (d = '*' ∨ d = '/') := by
  rcases (Language.mem_add _ _ w).mp hw with hw | hw
  · obtain ⟨v, -, rfl⟩ := mem_literal_mul.mp hw
    exact ⟨'*', v, rfl, Or.inl rfl⟩
  · obtain ⟨v, -, rfl⟩ := mem_literal_mul.mp hw
    exact ⟨'/', v, rfl, Or.inr rfl⟩

/-- A carriage return ends no word but one that is nothing else. -/
theorem eq_return (hcomment : c ≠ .comment) (hw : w ∈ c.language) (hlast : w.getLast? = some '\r') :
    c = .symbol ∧ w = ['\r'] := by
  by_cases hsymbol : c = .symbol
  · subst hsymbol
    have hoperators : ∀ w ∈ operators, w.getLast? ≠ some '\r' := by decide
    rcases mem_symbol hw with hop | ⟨a, rfl⟩
    · exact absurd hlast (hoperators w hop)
    · exact ⟨rfl, congrArg ([·]) (Option.some.inj hlast)⟩
  · by_cases hstring : c = .string
    · subst hstring
      obtain ⟨v, hv, rfl⟩ := mem_literal_mul.mp hw
      obtain ⟨u, -, _, rfl, rfl⟩ := Language.mem_mul.mp hv
      rw [← List.append_assoc, List.getLast?_concat] at hlast
      cases hlast
    · have hspelling : isSpelling '\r' = true := by
        refine over_language ?_ w hw _ (List.mem_of_getLast? hlast)
        cases c <;> simp_all
      exact absurd hspelling (by decide)

/-- A string goes as far as the quote that closes it. -/
theorem closingQuote_append {cs : List Char} {n : Nat} (h : closingQuote cs = some n)
    (rest : List Char) : closingQuote (cs ++ rest) = some n := by
  fun_induction closingQuote cs generalizing n with
  | case1 => cases h
  | case2 cs => exact h
  | case3 => cases h
  | case4 c cs ih =>
    obtain ⟨m, hm, rfl⟩ := Option.map_eq_some_iff.mp h
    exact congrArg (Option.map (· + 2)) (ih hm)
  | case5 c cs hquote hlast hescape ih =>
    obtain ⟨m, hm, rfl⟩ := Option.map_eq_some_iff.mp h
    rw [List.cons_append, closingQuote_of_ne hquote (ne_backslash hlast hescape), ih hm]
    rfl

theorem closingQuote_of_mem (hw : w ∈ quoted) (hline : '\n' ∉ w) :
    closingQuote w = some w.length := by
  have h := longest_closingQuote hline
  cases hclosing : closingQuote w with
  | none =>
    rw [hclosing] at h
    exact absurd List.prefix_rfl (h w hw)
  | some n =>
    rw [hclosing] at h
    obtain ⟨v, -, hpre, rfl⟩ := h.1
    exact congrArg some (le_antisymm hpre.length_le (h.2 w hw List.prefix_rfl))

/-- No string goes on as a longer string. -/
theorem eq_nil_of_mem_string {u : List Char} (hw : w ∈ string.language)
    (hmore : w ++ u ∈ string.language) (hline : '\n' ∉ w ++ u) : u = [] := by
  obtain ⟨v, hv, rfl⟩ := mem_literal_mul.mp hw
  obtain ⟨v', hv', hsame⟩ := mem_literal_mul.mp hmore
  obtain rfl : v ++ u = v' := by simpa using hsame
  have hline : '\n' ∉ v ++ u := by simpa using hline
  have hshort := closingQuote_append (closingQuote_of_mem hv fun h => hline (List.mem_append_left _ h)) u
  rw [closingQuote_of_mem hv' hline, List.length_append] at hshort
  exact List.length_eq_zero_iff.mp (by simpa using hshort)

end

/-! ## Lexemes before a blank -/

/-- A blank comes next, or nothing. -/
def Delimits (rest : List Char) : Prop := ∀ c ∈ rest.head?, c = ' ' ∨ c = '\t'

section
variable {cs rest : List Char} {l : Lexeme}

/-- A lexeme is taken off wherever a blank or nothing follows it. -/
theorem Munches.delimited (h : Munches cs l) (hcomment : l.category ≠ .comment)
    (hrest : Delimits rest) (hline : '\n' ∉ l.text ++ rest) : Munches (l.text ++ rest) l := by
  refine ⟨h.ne_nil, List.prefix_append _ _, h.mem_language, fun c w hw hpre => ?_, h.first⟩
  by_contra hlonger
  -- a longer word goes on with the blank
  obtain ⟨u, rfl⟩ := List.prefix_of_prefix_length_le (List.prefix_append l.text rest) hpre
    (Nat.le_of_not_le hlonger)
  have hu : u <+: rest := (List.prefix_append_right_inj l.text).mp hpre
  obtain ⟨a, t, htext⟩ := List.exists_cons_of_ne_nil h.ne_nil
  have hne : u ≠ [] := by
    rintro rfl
    exact hlonger (by rw [List.append_nil])
  obtain ⟨b, v, rfl⟩ := List.exists_cons_of_ne_nil hne
  have hblank : b = ' ' ∨ b = '\t' := by
    obtain ⟨r, rfl⟩ := hu
    exact hrest b rfl
  have hmem := h.mem_language
  rw [htext] at hw hmem
  by_cases hslash : c = .comment
  · subst hslash
    obtain ⟨d, v', hsame, hd⟩ := mem_comment hw
    obtain ⟨rfl, hbehind⟩ := List.cons.inj hsame
    obtain ⟨-, rfl⟩ := List.cons.inj (eq_slash hcomment hmem rfl)
    obtain ⟨rfl, -⟩ := List.cons.inj hbehind
    rcases hblank with rfl | rfl <;> exact absurd hd (by decide)
  · by_cases hquote : c = .string
    · subst hquote
      obtain ⟨v', -, hsame⟩ := mem_literal_mul.mp hw
      obtain ⟨rfl, -⟩ := List.cons.inj hsame
      rw [eq_string hmem rfl] at hmem
      exact hne (eq_nil_of_mem_string hmem hw fun hnl => hline (hpre.subset (htext ▸ hnl)))
    · have hnot := not_blank_of_mem_tail hslash hquote hw b (by simp)
      rcases hblank with rfl | rfl
      · exact hnot.1 rfl
      · exact hnot.2 rfl

theorem Munches.not_unclosed (h : Munches cs l) (hcomment : l.category ≠ .comment)
    (hrest : Delimits rest) (fragment : List Char) : ¬ Unclosed (l.text ++ rest) fragment := by
  obtain ⟨a, t, htext⟩ := List.exists_cons_of_ne_nil h.ne_nil
  have hmem := h.mem_language
  intro hopen
  rw [htext] at hmem hopen
  rw [List.cons_append] at hopen
  generalize hall : t ++ rest = ds at hopen
  cases hopen with
  | string hnone =>
    rw [eq_string hmem rfl] at hmem
    exact hnone _ hmem ⟨rest, by rw [← hall, List.cons_append]⟩
  | comment =>
    obtain ⟨-, rfl⟩ := List.cons.inj (eq_slash hcomment hmem rfl)
    rw [List.nil_append] at hall
    rcases hrest '*' (by rw [hall]; rfl) with hblank | hblank <;> exact absurd hblank (by decide)

/-- A tab is a lexeme of its own, whatever follows it. -/
theorem munches_tab (cs : List Char) : Munches ('\t' :: cs) ⟨.symbol, ['\t']⟩ := by
  have hcategory : ∀ {c : Category} {w : List Char},
      w ∈ c.language → w.head? = some '\t' → c = .symbol := by
    intro c w hw hhead
    have hbegins := begins_of_mem hw hhead
    cases c <;> first | rfl | exact absurd hbegins (by decide)
  refine ⟨List.cons_ne_nil _ _, ⟨cs, rfl⟩, ?_, fun c w hw hpre => ?_, fun c hc => ?_⟩
  · exact (Language.mem_add _ _ _).mpr (Or.inr ⟨'\t', by decide, rfl⟩)
  · cases w with
    | nil => exact Nat.zero_le _
    | cons a w =>
      obtain rfl := (List.cons_prefix_cons.mp hpre).1
      obtain rfl := hcategory hw rfl
      have hoperators : ∀ w ∈ operators, w.head? ≠ some '\t' := by decide
      rcases mem_symbol hw with hop | ⟨b, hsame⟩
      · exact absurd rfl (hoperators _ hop)
      · rw [hsame]
        exact le_refl _
  · rw [hcategory hc rfl]

theorem not_unclosed_tab (cs fragment : List Char) : ¬ Unclosed ('\t' :: cs) fragment := by
  intro h
  cases h

end
end HandlerGrammar
