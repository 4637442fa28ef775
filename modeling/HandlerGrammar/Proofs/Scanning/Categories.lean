import HandlerGrammar.Lexeme.Basic
import HandlerGrammar.Proofs.Scanning.Longest
import Mathlib.Data.List.TakeWhile

/-! # The languages of the categories

Each category of lexemes is a language, written out here from characters. The lengths that cutting
goes by are those of the longest words of these languages.

* `Category.language`: the lexemes of a category;
* `longest_language`: the length of a category is that of its longest lexeme at the start of a text,
  or zero if it has none there;
* `longest_closingQuote`, `longest_closingStar`: what closes a string or a comment, if anything does. -/
namespace HandlerGrammar
open Computability Pattern
set_option autoImplicit false

namespace Category

/-! ## The languages -/

def digits : Language Char := someOf Char.isDigit

/-- `e` or `E`, an optional sign and digits. -/
def exponent : Language Char :=
  oneOf (fun c => c == 'e' || c == 'E') * (opt (oneOf fun c => c == '+' || c == '-') * digits)

/-- What follows the double quote of a string: characters, a backslash with the character behind it,
and the closing quote. -/
def quoted : Language Char :=
  (oneOf (fun c => c != '"' && c != '\\') + oneOf (· == '\\') * oneOf (· != '\n'))∗ * literal ['"']

/-- What may follow stars inside a block comment. -/
def starred : Language Char :=
  (oneOf (fun c => c != '/' && c != '*') * (manyOf (· != '*') * someOf (· == '*')))∗ * literal ['/']

/-- What follows the opening of a block comment. -/
def commented : Language Char := manyOf (· != '*') * (someOf (· == '*') * starred)

/-- The lexemes of a category. -/
def language : Category → Language Char
  | comment => literal ['/', '*'] * commented + literal ['/', '/'] * manyOf (· != '\n')
  | float =>
    opt (oneOf (· == '-')) * (digits * (literal ['.'] * (digits * opt exponent))) +
      opt (oneOf (· == '-')) * (digits * exponent)
  | integer => opt (oneOf (· == '-')) * digits
  | bool => literal ['t', 'r', 'u', 'e'] + literal ['f', 'a', 'l', 's', 'e']
  | string => literal ['"'] * quoted
  | word => oneOf (fun c => c.isAlpha || c == '_') * manyOf (fun c => c.isAlphanum || c == '_')
  | symbol =>
    anyOf [['=', '='], ['!', '='], ['<', '='], ['>', '='], ['&', '&'], ['|', '|'], ['-', '>']] +
      oneOf (fun c => !(c.isAlphanum || c == '_' || c == ' ' || c == '"'))

end Category

open Category

/-! ## First characters -/

/-- What the lexemes of a category begin with. -/
def Category.begins : Category → Char → Bool
  | comment => (· == '/')
  | float | integer => fun c => c.isDigit || c == '-'
  | bool => fun c => c == 't' || c == 'f'
  | string => (· == '"')
  | word => isWordStart
  | symbol => isSymbol

theorem isSymbol_eq : isSymbol = fun c => !(c.isAlphanum || c == '_' || c == ' ' || c == '"') := by
  funext c
  simp [isSymbol, isWordPart, bne, Bool.and_assoc]

theorem startsIn_language (c : Category) : StartsIn c.begins c.language := by
  have hneg : ∀ {L : Language Char}, StartsIn (fun c => c.isDigit || c == '-') L →
      StartsIn (fun c => c.isDigit || c == '-') (opt (oneOf (· == '-')) * L) := fun hL =>
    StartsIn.opt_mul (startsIn_oneOf.mono fun c hc => by simp [eq_of_beq hc]) hL
  have hdigits : ∀ {L : Language Char}, StartsIn (fun c => c.isDigit || c == '-') (digits * L) :=
    startsIn_someOf_mul.mono fun c hc => by simp [hc]
  cases c with
  | comment => exact startsIn_literal_mul.add startsIn_literal_mul
  | float => exact (hneg hdigits).add (hneg hdigits)
  | integer =>
    have h := hneg (hdigits (L := 1))
    rwa [mul_one] at h
  | bool => exact (startsIn_literal rfl).add (startsIn_literal rfl)
  | string => exact startsIn_literal_mul
  | word => exact startsIn_oneOf_mul
  | symbol => exact (startsIn_anyOf (by decide)).add (isSymbol_eq ▸ startsIn_oneOf)

/-! ## Lengths -/

/-- A length that is zero where there is no match. -/
def nonzero (n : Nat) : Option Nat := if n = 0 then none else some n

@[simp] theorem nonzero_zero : nonzero 0 = none := rfl

theorem nonzero_of_ne {n : Nat} (h : n ≠ 0) : nonzero n = some n := if_neg h

@[simp] theorem getD_nonzero (n : Nat) : (nonzero n).getD 0 = n := by
  unfold nonzero
  split
  · exact Eq.symm ‹n = 0›
  · rfl

/-- Behind something that has to be there. -/
theorem map_nonzero (n k : Nat) : (nonzero n).map (· + k) = nonzero (if n = 0 then 0 else n + k) := by
  by_cases hn : n = 0
  · rw [if_pos hn, hn]
    rfl
  · rw [if_neg hn, nonzero_of_ne hn, nonzero_of_ne (by omega)]
    rfl

section
variable {L M : Language Char} {cs : List Char}

/-- Of two languages the one with the longer match counts. -/
theorem Longest.add_nonzero {m n : Nat} (hL : Longest L cs (nonzero m)) (hM : Longest M cs (nonzero n)) :
    Longest (L + M) cs (nonzero (max m n)) := by
  by_cases hm : m = 0
  · rw [hm] at hL ⊢
    rw [Nat.zero_max]
    exact hL.none_add hM
  · by_cases hn : n = 0
    · rw [hn] at hM ⊢
      rw [Nat.max_zero]
      exact hL.add_none hM
    · rw [nonzero_of_ne hm] at hL
      rw [nonzero_of_ne hn] at hM
      rw [nonzero_of_ne (by omega)]
      rcases Nat.le_total n m with h | h
      · rw [Nat.max_eq_left h]
        exact hL.add fun w hw hpre => ⟨m, rfl, (hM.2 w hw hpre).trans h⟩
      · rw [Nat.max_eq_right h, add_comm]
        exact hM.add fun w hw hpre => ⟨n, rfl, (hL.2 w hw hpre).trans h⟩

/-! ## Numbers -/

theorem drop_digitsLength (cs : List Char) : cs.drop (digitsLength cs) = cs.dropWhile Char.isDigit := by
  induction cs with
  | nil => rfl
  | cons c cs ih =>
    by_cases hc : c.isDigit = true
    · simpa [digitsLength, hc] using ih
    · simp [digitsLength, hc]

theorem longest_digits (cs : List Char) : Longest digits cs (nonzero (digitsLength cs)) := longest_someOf

theorem startsIn_digits : StartsIn Char.isDigit digits := startsIn_oneOf_mul

theorem startsIn_digits_mul : StartsIn Char.isDigit (digits * L) := startsIn_someOf_mul

/-- Digits and what follows them. -/
theorem Longest.digits_mul {r : Option Nat} (hL : Avoids Char.isDigit L)
    (h : Longest L (cs.drop (digitsLength cs)) r) :
    Longest (digits * L) cs (if digitsLength cs = 0 then none else r.map (· + digitsLength cs)) := by
  rw [drop_digitsLength] at h
  exact h.someOf_mul hL

/-- After an optional minus sign. -/
theorem longest_negatable {length : List Char → Nat} (hL : StartsIn Char.isDigit L)
    (h : ∀ cs, Longest L cs (nonzero (length cs))) (cs : List Char) :
    Longest (opt (oneOf (· == '-')) * L) cs (nonzero (negatable length cs)) := by
  by_cases hcs : ∃ ds, cs = '-' :: ds
  · obtain ⟨ds, rfl⟩ := hcs
    have hneg := (h ds).opt_mul_cons hL (p := (· == '-')) (c := '-')
      (fun c hc => by rw [eq_of_beq hc]; rfl) rfl
    rw [map_nonzero] at hneg
    exact hneg
  · have hsame : negatable length cs = length cs := by
      unfold negatable
      split
      · exact absurd ⟨_, rfl⟩ hcs
      · rfl
    rw [hsame]
    refine (h cs).opt_mul_of_not fun c hc => ?_
    obtain ⟨ds, rfl⟩ := List.head?_eq_some_iff.mp hc
    exact beq_false_of_ne fun hminus => hcs ⟨ds, by rw [hminus]⟩

theorem longest_integer (cs : List Char) : Longest integer.language cs (nonzero (integerLength cs)) :=
  longest_negatable startsIn_digits longest_digits cs

theorem startsIn_exponent : StartsIn (fun c => c == 'e' || c == 'E') exponent := startsIn_oneOf_mul

theorem avoids_exponent : Avoids Char.isDigit exponent := by
  refine startsIn_exponent.avoids fun c hc => ?_
  rcases (by simpa using hc : c = 'e' ∨ c = 'E') with rfl | rfl <;> rfl

/-- The digits of an exponent with the sign that may stand in front of them. -/
theorem longest_signed {cs : List Char} {sign : Nat}
    (hsign : (if cs.head? = some '+' ∨ cs.head? = some '-' then 1 else 0) = sign) :
    Longest (opt (oneOf fun c => c == '+' || c == '-') * digits) cs
      ((nonzero (digitsLength (cs.drop sign))).map (· + sign)) := by
  subst hsign
  by_cases hcs : cs.head? = some '+' ∨ cs.head? = some '-'
  · obtain ⟨c, ds, rfl, hc⟩ : ∃ c ds, cs = c :: ds ∧ (c = '+' ∨ c = '-') := by
      cases cs with
      | nil => simp at hcs
      | cons c ds => exact ⟨c, ds, rfl, by simpa using hcs⟩
    rw [if_pos hcs]
    refine (longest_digits ds).opt_mul_cons startsIn_digits (fun c hc => ?_) (by simpa using hc)
    rcases (by simpa using hc : c = '+' ∨ c = '-') with rfl | rfl <;> rfl
  · simp only [if_neg hcs, List.drop_zero, Nat.add_zero, Option.map_id']
    refine (longest_digits cs).opt_mul_of_not fun c hc => ?_
    rw [Option.mem_def] at hc
    simpa [hc] using hcs

theorem longest_exponent (cs : List Char) : Longest exponent cs (nonzero (exponentLength cs)) := by
  cases cs with
  | nil => exact longest_oneOf_mul_of_not (by simp)
  | cons c cs =>
    by_cases hc : c = 'e' ∨ c = 'E'
    · generalize hsign : (if cs.head? = some '+' ∨ cs.head? = some '-' then 1 else 0) = sign
      have hmul := (longest_signed hsign).oneOf_mul (p := fun c => c == 'e' || c == 'E') (c := c)
        (by simpa using hc)
      simp only [exponentLength, if_pos hc, hsign]
      by_cases hds : digitsLength (cs.drop sign) = 0
      · rw [if_pos hds]
        rw [hds] at hmul
        exact hmul
      · rw [if_neg hds, nonzero_of_ne (by omega), Nat.add_right_comm, Nat.add_comm 1,
          Nat.add_right_comm]
        rw [nonzero_of_ne hds] at hmul
        exact hmul
    · simp only [exponentLength, if_neg hc]
      exact longest_oneOf_mul_of_not (by simpa using hc)

/-- What follows the leading digits of a float. -/
theorem longest_decimals (cs : List Char) :
    Longest (literal ['.'] * (digits * opt exponent) + exponent) cs
      (nonzero (fractionLength cs + exponentLength (cs.drop (fractionLength cs)))) := by
  by_cases hcs : ['.'] <+: cs
  · obtain ⟨ds, rfl⟩ := hcs
    rw [List.cons_append, List.nil_append]
    have hexp : Longest exponent ('.' :: ds) none := startsIn_exponent.longest (by simp)
    refine Longest.add_none ?_ hexp
    have hopt := (longest_exponent (ds.drop (digitsLength ds))).opt
    rw [getD_nonzero] at hopt
    have havoids : Avoids Char.isDigit (opt exponent) := avoids_one.add avoids_exponent
    have hmul := (hopt.digits_mul havoids).literal_mul (t := ['.'])
    by_cases hds : digitsLength ds = 0
    · simpa [fractionLength, hds, exponentLength] using hmul
    · have hfraction : fractionLength ('.' :: ds) = digitsLength ds + 1 := by
        simp [fractionLength, hds, Nat.add_comm]
      rw [hfraction, List.drop_succ_cons, nonzero_of_ne (by omega), Nat.add_right_comm,
        Nat.add_comm (digitsLength ds)]
      rw [if_neg hds] at hmul
      exact hmul
  · have hfraction : fractionLength cs = 0 := by
      unfold fractionLength
      split
      · exact absurd ⟨_, rfl⟩ hcs
      · rfl
    rw [hfraction, Nat.zero_add, List.drop_zero]
    exact (longest_literal_mul_of_not hcs).none_add (longest_exponent cs)

theorem avoids_decimals :
    Avoids Char.isDigit (literal ['.'] * (digits * opt exponent) + exponent) := by
  refine (startsIn_literal_mul.avoids fun c hc => ?_).add avoids_exponent
  rw [eq_of_beq hc]
  rfl

theorem longest_float (cs : List Char) : Longest float.language cs (nonzero (floatLength cs)) := by
  rw [language, ← mul_add, ← mul_add]
  refine longest_negatable startsIn_digits_mul (fun cs => ?_) cs
  have hmul := (longest_decimals (cs.drop (digitsLength cs))).digits_mul avoids_decimals
  rw [List.drop_drop] at hmul
  simp only [unsignedFloatLength]
  generalize hrest : fractionLength (cs.drop (digitsLength cs)) + exponentLength
    (cs.drop (digitsLength cs + fractionLength (cs.drop (digitsLength cs)))) = rest at hmul ⊢
  by_cases hds : digitsLength cs = 0
  · simpa [hds] using hmul
  · by_cases hzero : rest = 0
    · simpa [hds, hzero] using hmul
    · rw [if_neg (by simp [hds, hzero]), nonzero_of_ne (by omega)]
      rw [if_neg hds, nonzero_of_ne hzero] at hmul
      rw [Nat.add_assoc, hrest, Nat.add_comm]
      exact hmul

/-! ## Words and symbols -/

theorem longest_literalLength {t : List Char} (ht : t ≠ []) (cs : List Char) :
    Longest (literal t) cs (nonzero (literalLength t cs)) := by
  unfold literalLength
  by_cases hcs : t.isPrefixOf cs = true
  · obtain ⟨r, rfl⟩ := List.isPrefixOf_iff_prefix.mp hcs
    rw [if_pos hcs, nonzero_of_ne fun hnil => ht (List.length_eq_zero_iff.mp hnil)]
    exact longest_literal
  · rw [if_neg hcs]
    exact longest_literal_of_not fun hpre => hcs (List.isPrefixOf_iff_prefix.mpr hpre)

theorem longest_bool (cs : List Char) : Longest bool.language cs (nonzero (boolLength cs)) :=
  (longest_literalLength (by decide) cs).add_nonzero (longest_literalLength (by decide) cs)

theorem longest_word (cs : List Char) : Longest word.language cs (nonzero (wordLength cs)) := by
  cases cs with
  | nil => exact longest_oneOf_mul_of_not (by simp)
  | cons c cs =>
    by_cases hc : isWordStart c = true
    · rw [wordLength, if_pos hc, Nat.add_comm, nonzero_of_ne (Nat.succ_ne_zero _)]
      exact longest_manyOf.oneOf_mul hc
    · rw [wordLength, if_neg hc]
      exact longest_oneOf_mul_of_not (by simpa [isWordStart] using hc)

theorem longest_oneOf (p : Char → Bool) (cs : List Char) :
    Longest (oneOf p) cs (nonzero (if cs.head?.any p then 1 else 0)) := by
  rw [← mul_one (oneOf p)]
  cases cs with
  | nil => exact longest_oneOf_mul_of_not (by simp)
  | cons c cs =>
    by_cases hc : p c = true
    · simpa [hc, nonzero] using longest_one.oneOf_mul hc
    · have hnone : Longest (oneOf p * 1) (c :: cs) none := longest_oneOf_mul_of_not (by simpa using hc)
      simpa [hc] using hnone

theorem longest_anyOf {ts : List (List Char)} {n : Nat} (hn : n ≠ 0) (hts : ∀ t ∈ ts, t.length = n)
    (cs : List Char) :
    Longest (anyOf ts) cs (nonzero (if ts.any (·.isPrefixOf cs) then n else 0)) := by
  by_cases hcs : ts.any (·.isPrefixOf cs) = true
  · rw [if_pos hcs, nonzero_of_ne hn]
    obtain ⟨t, ht, hpre⟩ := List.any_eq_true.mp hcs
    exact ⟨⟨t, ht, List.isPrefixOf_iff_prefix.mp hpre, hts t ht⟩, fun w hw _ => (hts w hw).le⟩
  · rw [if_neg hcs]
    exact fun w hw hpre =>
      hcs (List.any_eq_true.mpr ⟨w, hw, List.isPrefixOf_iff_prefix.mpr hpre⟩)

theorem longest_symbol (cs : List Char) : Longest symbol.language cs (nonzero (symbolLength cs)) := by
  have hops : Longest (anyOf operators) cs _ := longest_anyOf two_ne_zero (by decide) cs
  have hone := longest_oneOf isSymbol cs
  have hlength : symbolLength cs = max (if operators.any (·.isPrefixOf cs) then 2 else 0)
      (if cs.head?.any isSymbol then 1 else 0) := by
    cases cs with
    | nil => rfl
    | cons c cs =>
      by_cases hop : operators.any (·.isPrefixOf (c :: cs)) = true <;>
        by_cases hc : isSymbol c = true <;> simp [symbolLength, hop, hc]
  rw [hlength, language, ← isSymbol_eq]
  exact hops.add_nonzero hone

/-! ## Strings -/

theorem quoted_eq : quoted = literal ['"'] + (oneOf (fun c => c != '"' && c != '\\') * quoted +
    oneOf (· == '\\') * (oneOf (· != '\n') * quoted)) := by
  calc quoted = literal ['"'] + (oneOf (fun c => c != '"' && c != '\\') +
        oneOf (· == '\\') * oneOf (· != '\n')) * quoted := kstar_mul _ _
    _ = _ := by rw [add_mul, mul_assoc]

/-- What is neither a quote nor a backslash with something behind it or nothing is no backslash. -/
theorem ne_backslash {c : Char} {cs : List Char} (hlast : c = '\\' → cs = [] → False)
    (hescape : ∀ d ds, c = '\\' → cs = d :: ds → False) : c ≠ '\\' := by
  intro hc
  cases cs with
  | nil => exact hlast hc rfl
  | cons d ds => exact hescape d ds hc rfl

theorem closingQuote_of_ne {c : Char} (hquote : c ≠ '"') (hbackslash : c ≠ '\\') (cs : List Char) :
    closingQuote (c :: cs) = (closingQuote cs).map (· + 1) := by
  rw [closingQuote]
  · exact hquote
  · exact fun h _ => hbackslash h
  · exact fun _ _ h _ => hbackslash h

theorem longest_closingQuote {cs : List Char} (hcs : '\n' ∉ cs) :
    Longest quoted cs (closingQuote cs) := by
  rw [quoted_eq]
  fun_induction closingQuote cs with
  | case1 =>
    exact (longest_literal_of_not (by simp)).none_add
      ((longest_oneOf_mul_of_not (by simp)).none_add (longest_oneOf_mul_of_not (by simp)))
  | case2 cs =>
    exact (longest_literal (t := ['"'])).add_none
      ((longest_oneOf_mul_of_not (by simp)).none_add (longest_oneOf_mul_of_not (by simp)))
  | case3 =>
    have hnil : Longest (oneOf (· != '\n') * quoted) [] none := longest_oneOf_mul_of_not (by simp)
    exact (longest_literal_of_not (by simp)).none_add
      ((longest_oneOf_mul_of_not (by simp)).none_add (hnil.oneOf_mul (by simp)))
  | case4 c cs ih =>
    rw [← quoted_eq] at ih
    obtain ⟨-, hc, hcs⟩ : '\n' ≠ '\\' ∧ '\n' ≠ c ∧ '\n' ∉ cs := by simpa using hcs
    have hmul := ((ih hcs).oneOf_mul (p := (· != '\n')) (c := c) (by simpa using hc.symm)).oneOf_mul
      (p := (· == '\\')) (c := '\\') rfl
    rw [Option.map_map] at hmul
    exact (longest_literal_of_not (by simp)).none_add
      ((longest_oneOf_mul_of_not (by simp)).none_add hmul)
  | case5 c cs hquote hlast hescape ih =>
    rw [← quoted_eq] at ih
    have hbackslash := ne_backslash hlast hescape
    have hmul := (ih fun h => hcs (List.mem_cons_of_mem c h)).oneOf_mul
      (p := fun c => c != '"' && c != '\\') (c := c) (by simpa using ⟨hquote, hbackslash⟩)
    exact (longest_literal_of_not (by simpa using Ne.symm hquote)).none_add
      (hmul.add_none (longest_oneOf_mul_of_not (by simpa using hbackslash)))

theorem longest_string {cs : List Char} (hcs : '\n' ∉ cs) :
    Longest string.language cs (nonzero (stringLength cs)) := by
  rw [language]
  by_cases hquote : ['"'] <+: cs
  · obtain ⟨ds, rfl⟩ := hquote
    have hmul := (longest_closingQuote fun h => hcs (List.mem_cons_of_mem _ h)).literal_mul (t := ['"'])
    rw [List.cons_append, List.nil_append] at hmul ⊢
    rw [stringLength]
    cases hclosing : closingQuote ds <;> simpa [hclosing, nonzero] using hmul
  · have hlength : stringLength cs = 0 := by
      unfold stringLength
      split
      · exact absurd ⟨_, rfl⟩ hquote
      · rfl
    rw [hlength]
    exact longest_literal_mul_of_not hquote

/-! ## Comments -/

/-- Behind a star of a block comment. -/
def starring : Language Char := manyOf (· == '*') * starred

theorem commented_eq : commented = oneOf (· == '*') * starring + oneOf (· != '*') * commented := by
  calc commented = someOf (· == '*') * starred + oneOf (· != '*') * commented := manyOf_mul _ _
    _ = _ := by rw [someOf_mul, starring]

theorem starring_eq : starring = oneOf (· == '*') * starring +
    (literal ['/'] + oneOf (fun c => c != '/' && c != '*') * commented) := by
  calc starring = starred + oneOf (· == '*') * starring := manyOf_mul _ _
    _ = oneOf (· == '*') * starring + starred := add_comm _ _
    _ = _ := by
      congr 1
      calc starred = literal ['/'] + oneOf (fun c => c != '/' && c != '*') *
            (manyOf (· != '*') * someOf (· == '*')) * starred := kstar_mul _ _
        _ = _ := by rw [commented, mul_assoc, mul_assoc]

/-- A slash behind a star closes a comment, anything else is passed over. -/
def closingSlash : List Char → Option Nat
  | '/' :: _ => some 1
  | cs => closingStar cs

theorem closingStar_star (cs : List Char) :
    closingStar ('*' :: cs) = (closingSlash cs).map (· + 1) := by
  by_cases hcs : ∃ ds, cs = '/' :: ds
  · obtain ⟨ds, rfl⟩ := hcs
    rfl
  · have hslash : ∀ ds, cs = '/' :: ds → False := fun ds h => hcs ⟨ds, h⟩
    rw [closingStar, closingSlash]
    · exact hslash
    · exact fun ds _ => hslash ds

theorem closingStar_of_ne {c : Char} (hc : c ≠ '*') (cs : List Char) :
    closingStar (c :: cs) = (closingStar cs).map (· + 1) := by
  rw [closingStar]
  exact fun _ h => absurd h hc

/-- Behind the opening and behind a star, together. -/
theorem longest_closingStar (cs : List Char) :
    Longest commented cs (closingStar cs) ∧ Longest starring cs (closingSlash cs) := by
  induction cs with
  | nil =>
    have hnone : ∀ {p : Char → Bool} {L : Language Char}, Longest (oneOf p * L) [] none :=
      longest_oneOf_mul_of_not (by simp)
    constructor
    · rw [commented_eq]
      exact hnone.none_add hnone
    · rw [starring_eq]
      exact hnone.none_add ((longest_literal_of_not (by simp)).none_add hnone)
  | cons c cs ih =>
    by_cases hstar : c = '*'
    · subst hstar
      have hmul := ih.2.oneOf_mul (p := (· == '*')) (c := '*') rfl
      rw [show closingSlash ('*' :: cs) = closingStar ('*' :: cs) from rfl, closingStar_star]
      constructor
      · rw [commented_eq]
        exact hmul.add_none (longest_oneOf_mul_of_not (by simp))
      · rw [starring_eq]
        exact hmul.add_none
          ((longest_literal_of_not (by simp)).none_add (longest_oneOf_mul_of_not (by simp)))
    · have hskip : ∀ {L}, Longest (oneOf (· == '*') * L) (c :: cs) none :=
        longest_oneOf_mul_of_not (by simpa using hstar)
      rw [closingStar_of_ne hstar]
      constructor
      · rw [commented_eq]
        exact hskip.none_add (ih.1.oneOf_mul (by simpa using hstar))
      · rw [starring_eq]
        refine hskip.none_add ?_
        by_cases hslash : c = '/'
        · subst hslash
          exact (longest_literal (t := ['/'])).add_none (longest_oneOf_mul_of_not (by simp))
        · have hpass : closingSlash (c :: cs) = (closingStar cs).map (· + 1) := by
            rw [closingSlash, closingStar_of_ne hstar]
            exact fun _ h => hslash (List.cons.inj h).1
          rw [hpass]
          exact (longest_literal_of_not (by simpa using Ne.symm hslash)).none_add
            (ih.1.oneOf_mul (by simpa using ⟨hslash, hstar⟩))

theorem longest_comment {cs : List Char} (hcs : '\n' ∉ cs) :
    Longest comment.language cs (nonzero (commentLength cs)) := by
  rw [language]
  by_cases hblock : ['/', '*'] <+: cs
  · obtain ⟨ds, rfl⟩ := hblock
    have hmul := (longest_closingStar ds).1.literal_mul (t := ['/', '*'])
    refine Longest.add_none ?_ (longest_literal_mul_of_not (by simp))
    change Longest _ _ (nonzero (((closingStar ds).map (· + 2)).getD 0))
    cases hclosing : closingStar ds <;> simpa [hclosing, nonzero] using hmul
  · refine Longest.none_add (longest_literal_mul_of_not hblock) ?_
    by_cases hline : ['/', '/'] <+: cs
    · obtain ⟨ds, rfl⟩ := hline
      have hall : ds.takeWhile (· != '\n') = ds := by
        refine List.takeWhile_eq_self_iff.mpr fun c hc => bne_iff_ne.mpr fun hnl => hcs ?_
        exact List.mem_append_right _ (hnl ▸ hc)
      have hwhole : Longest (manyOf (· != '\n')) ds _ := longest_manyOf
      rw [hall] at hwhole
      exact hwhole.literal_mul (t := ['/', '/'])
    · have hlength : commentLength cs = 0 := by
        unfold commentLength
        split
        · exact absurd ⟨_, rfl⟩ hline
        · exact absurd ⟨_, rfl⟩ hblock
        · rfl
      rw [hlength]
      exact longest_literal_mul_of_not hline

/-! ## All categories -/

/-- The length of a category is that of its longest lexeme at the start of a text. -/
theorem longest_language (c : Category) {cs : List Char} (hcs : '\n' ∉ cs) :
    Longest c.language cs (nonzero (c.longest cs)) := by
  cases c with
  | comment => exact longest_comment hcs
  | float => exact longest_float cs
  | integer => exact longest_integer cs
  | bool => exact longest_bool cs
  | string => exact longest_string hcs
  | word => exact longest_word cs
  | symbol => exact longest_symbol cs

end
end HandlerGrammar
