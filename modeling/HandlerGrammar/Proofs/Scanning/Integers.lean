import HandlerGrammar.Proofs.Scanning.Delimiting
import HandlerGrammar.Proofs.Scanning.Rejection
import Mathlib.Data.Nat.Digits.Defs
import Mathlib.Data.Set.List

/-! # Whole numbers

A whole number is written as one or more digits, with a minus sign in front or none. It is read exactly,
and what becomes of it hangs on its value alone: however many zeros it begins with, it is narrow if 32
bits hold it, wide if 64 bits do, and otherwise the line is rejected for it.

* `Decimal.written`, `Decimal.denoted`: digits as they are written, and the number they denote;
* `Decimal.integer_written`: reading digits from the left gives this number, `Decimal.denoted_zeros`;
* `mem_integer_iff`: the lexemes of whole numbers are those that are so written;
* `Promoted`: what a whole number is read as, `promoted_token?`;
* `cuts_written`: a whole number is a line of one lexeme;
* `integers_promoted`: whole numbers on any line. -/
namespace HandlerGrammar
open Computability Pattern Category
set_option autoImplicit false

/-! ## Digits and values -/

namespace Decimal

/-- Digits as they are written, the first one first, behind a minus sign if `negative`. -/
def written (negative : Bool) (digits : List (Fin 10)) : List Char :=
  (if negative then ['-'] else []) ++ digits.map fun d => d.val.digitChar

/-- The number that digits denote by their places. -/
def denoted (negative : Bool) (digits : List (Fin 10)) : Int :=
  let magnitude : Nat := Nat.ofDigits 10 (digits.reverse.map Fin.val)
  if negative then -(magnitude : Int) else magnitude

theorem digitValue_digitChar (d : Fin 10) : digitValue d.val.digitChar = d := by
  revert d
  decide

theorem isDigit_digitChar (d : Fin 10) : d.val.digitChar.isDigit = true := by
  revert d
  decide

theorem exists_digitChar {c : Char} (hc : c.isDigit = true) : ∃ d : Fin 10, c = d.val.digitChar := by
  have hrange : 48 ≤ c.toNat ∧ c.toNat < 58 := by
    simp only [Char.isDigit, Bool.and_eq_true, decide_eq_true_eq, UInt32.le_iff_toNat_le] at hc
    have hlow : '0'.val.toNat = 48 := rfl
    have hhigh : '9'.val.toNat = 57 := rfl
    show 48 ≤ c.val.toNat ∧ c.val.toNat < 58
    omega
  have hall : ∀ d : Fin 10, Char.ofNat (d.val + 48) = d.val.digitChar := by decide
  refine ⟨⟨c.toNat - 48, by omega⟩, ?_⟩
  rw [← hall, Nat.sub_add_cancel hrange.1, Char.ofNat_toNat]

/-- Reading digits from the left gives each its place. -/
theorem ofDigits_map (digits : List (Fin 10)) :
    ofDigits (digits.map fun d => d.val.digitChar) =
      Nat.ofDigits 10 (digits.reverse.map Fin.val) := by
  induction digits using List.reverseRecOn with
  | nil => rfl
  | append_singleton digits d ih =>
    have hstep : ofDigits ((digits ++ [d]).map fun d => d.val.digitChar) =
        10 * ofDigits (digits.map fun d => d.val.digitChar) + digitValue d.val.digitChar := by
      simp [ofDigits]
    rw [hstep, ih, digitValue_digitChar, List.reverse_append, List.reverse_singleton,
      List.singleton_append, List.map_cons, Nat.ofDigits_cons]
    omega

/-- A whole number is read exactly. -/
theorem integer_written (negative : Bool) (digits : List (Fin 10)) :
    integer (written negative digits) = denoted negative digits := by
  cases negative with
  | true => simp only [written, denoted, if_true, List.singleton_append, integer, ofDigits_map]
  | false =>
    have hsign : ∀ d : Fin 10, d.val.digitChar ≠ '-' ∧ d.val.digitChar ≠ '+' := by decide
    have hplain : integer (digits.map fun d => d.val.digitChar) =
        ofDigits (digits.map fun d => d.val.digitChar) := by
      cases digits with
      | nil => rfl
      | cons d digits =>
        rw [List.map_cons, integer]
        · exact fun ds h => (hsign d).1 (List.cons.inj h).1
        · exact fun ds h => (hsign d).2 (List.cons.inj h).1
    simp only [written, denoted, Bool.false_eq_true, if_false, List.nil_append, hplain, ofDigits_map]

/-- Zeros in front make a number longer and nothing else. -/
theorem denoted_zeros (negative : Bool) (count : Nat) (digits : List (Fin 10)) :
    denoted negative (List.replicate count 0 ++ digits) = denoted negative digits := by
  have hzeros : Nat.ofDigits 10 ((List.replicate count (0 : Fin 10) ++ digits).reverse.map Fin.val) =
      Nat.ofDigits 10 (digits.reverse.map Fin.val) := by
    rw [List.reverse_append, List.reverse_replicate, List.map_append, List.map_replicate]
    exact Nat.ofDigits_append_replicate_zero _
  simp only [denoted, hzeros]

end Decimal

open Decimal

/-! ## Lexemes of whole numbers -/

section
variable {w : List Char} {negative : Bool} {digits : List (Fin 10)}

theorem mem_digits_iff : w ∈ Category.digits ↔
    ∃ ds : List (Fin 10), ds ≠ [] ∧ w = ds.map fun d => d.val.digitChar := by
  constructor
  · intro hw
    have hall : ∀ c ∈ w, c ∈ Set.range fun d : Fin 10 => d.val.digitChar := by
      intro c hc
      obtain ⟨d, hd⟩ := exists_digitChar (over_someOf (fun _ h => h) w hw c hc)
      exact ⟨d, hd.symm⟩
    obtain ⟨ds, rfl⟩ : w ∈ Set.range (List.map fun d : Fin 10 => d.val.digitChar) := by
      rw [Set.range_list_map]
      exact hall
    refine ⟨ds, ?_, rfl⟩
    rintro rfl
    obtain ⟨c, v, hnil, -⟩ := mem_oneOf_mul.mp hw
    cases hnil
  · rintro ⟨ds, hne, rfl⟩
    obtain ⟨d, ds, rfl⟩ := List.exists_cons_of_ne_nil hne
    have hmany : ds.map (fun d => d.val.digitChar) ∈ manyOf Char.isDigit := by
      refine ⟨(ds.map fun d => d.val.digitChar).map fun c => [c], ?_, ?_⟩
      · exact (List.flatMap_singleton' _).symm
      · intro u hu
        obtain ⟨c, hc, rfl⟩ := List.mem_map.mp hu
        obtain ⟨d, -, rfl⟩ := List.mem_map.mp hc
        exact ⟨_, isDigit_digitChar d, rfl⟩
    exact mem_oneOf_mul.mpr ⟨_, _, rfl, isDigit_digitChar d, hmany⟩

/-- Whole numbers are written as digits, one at least, with a minus sign or none. -/
theorem mem_integer_iff : w ∈ Category.integer.language ↔
    ∃ negative digits, digits ≠ [] ∧ w = written negative digits := by
  rw [Category.language, opt_mul, Language.mem_add, mem_oneOf_mul]
  constructor
  · rintro (hw | ⟨c, v, rfl, hc, hv⟩)
    · obtain ⟨ds, hne, rfl⟩ := mem_digits_iff.mp hw
      exact ⟨false, ds, hne, rfl⟩
    · obtain ⟨ds, hne, rfl⟩ := mem_digits_iff.mp hv
      exact ⟨true, ds, hne, by rw [eq_of_beq hc]; rfl⟩
  · rintro ⟨negative, ds, hne, rfl⟩
    have hdigits := mem_digits_iff.mpr ⟨ds, hne, rfl⟩
    cases negative with
    | false => exact Or.inl hdigits
    | true => exact Or.inr ⟨'-', _, rfl, rfl, hdigits⟩

theorem eq_of_mem_written {c : Char} (hc : c ∈ written negative digits) :
    c = '-' ∨ c.isDigit = true := by
  rcases List.mem_append.mp hc with hc | hc
  · cases negative with
    | false => cases hc
    | true => exact Or.inl (List.mem_singleton.mp hc)
  · obtain ⟨d, -, rfl⟩ := List.mem_map.mp hc
    exact Or.inr (isDigit_digitChar d)

/-- A number with a fraction or an exponent shows it. -/
theorem exists_point_of_mem_float (hw : w ∈ Category.float.language) :
    ∃ c ∈ w, c = '.' ∨ c = 'e' ∨ c = 'E' := by
  rcases (Language.mem_add _ _ w).mp hw with hw | hw
  · obtain ⟨sign, -, u, hu, rfl⟩ := Language.mem_mul.mp hw
    obtain ⟨whole, -, v, hv, rfl⟩ := Language.mem_mul.mp hu
    obtain ⟨more, -, rfl⟩ := mem_literal_mul.mp hv
    exact ⟨'.', by simp, Or.inl rfl⟩
  · obtain ⟨sign, -, u, hu, rfl⟩ := Language.mem_mul.mp hw
    obtain ⟨whole, -, v, hv, rfl⟩ := Language.mem_mul.mp hu
    obtain ⟨c, more, rfl, hc, -⟩ := mem_oneOf_mul.mp hv
    exact ⟨c, by simp, Or.inr (by simpa using hc)⟩

/-- A whole number is a lexeme of no other category before its own. -/
theorem munches_written (hne : digits ≠ []) :
    Munches (written negative digits) ⟨.integer, written negative digits⟩ := by
  have hmem : written negative digits ∈ Category.integer.language :=
    mem_integer_iff.mpr ⟨negative, digits, hne, rfl⟩
  refine ⟨?_, List.prefix_rfl, hmem, fun _ _ _ hpre => hpre.length_le, fun c hc => ?_⟩
  · show written negative digits ≠ []
    simp [written, hne]
  · cases c with
    | comment =>
      obtain ⟨d, v, hsame, -⟩ := mem_comment hc
      have hslash : '/' ∈ written negative digits := by
        rw [show written negative digits = '/' :: d :: v from hsame]
        exact List.mem_cons_self
      exact absurd (eq_of_mem_written hslash) (by decide)
    | float =>
      obtain ⟨a, ha, hpoint⟩ := exists_point_of_mem_float hc
      have hplain := eq_of_mem_written ha
      rcases hpoint with rfl | rfl | rfl <;> exact absurd hplain (by decide)
    | integer | bool | string | word | symbol => show 2 ≤ _; decide

theorem cuts_written (hne : digits ≠ []) :
    Cuts (written negative digits) [⟨.integer, written negative digits⟩] [] := by
  have hmunches : Munches (written negative digits) ⟨.integer, written negative digits⟩ :=
    munches_written hne
  have hend : Delimits [] := fun c hc => by cases hc
  have hclosed := hmunches.not_unclosed (by simp) hend
  have hcuts : Cuts (written negative digits ++ []) [⟨.integer, written negative digits⟩] [] :=
    .lexeme (l := ⟨.integer, written negative digits⟩) hclosed (by rwa [List.append_nil]) (.done [])
  rwa [List.append_nil] at hcuts

end

/-! ## What becomes of a whole number -/

/-- What a whole number is read as: a narrow number, a wide one, or the error that it is out of
range. -/
inductive Promoted (line : Nat) (text : String) (n : Int) : Except LexError Token → Prop where
  | narrow (hn : -2147483648 ≤ n ∧ n < 2147483648) :
      Promoted line text n (.ok ⟨.integer, line, text, .integer n⟩)
  | wide (hn : n < -2147483648 ∨ 2147483648 ≤ n)
      (hwide : -9223372036854775808 ≤ n ∧ n < 9223372036854775808) :
      Promoted line text n (.ok ⟨.long, line, text, .long n⟩)
  | outOfRange (hn : n < -9223372036854775808 ∨ 9223372036854775808 ≤ n) :
      Promoted line text n (.error (.outOfRange line text))

section
variable {isIgnored : String → Bool} {line : Nat} {cs rest : List Char} {before : List Lexeme}
  {l : Lexeme} {t : Token} {e : LexError}

theorem promoted_token? (isIgnored : String → Bool) (line : Nat) (hl : l.category = .integer) :
    ∃ o, Promoted line (String.ofList l.text) (Decimal.integer l.text) o ∧
      l.token? isIgnored line = o.map some := by
  obtain ⟨category, text⟩ := l
  obtain rfl : category = .integer := hl
  simp only [Lexeme.token?, wholeNumber?]
  generalize Decimal.integer text = n
  by_cases hnarrow : -2147483648 ≤ n ∧ n ≤ 2147483647
  · rw [if_pos hnarrow]
    exact ⟨_, .narrow (by omega), rfl⟩
  · by_cases hwide : -9223372036854775808 ≤ n ∧ n ≤ 9223372036854775807
    · rw [if_neg hnarrow, if_pos hwide]
      exact ⟨_, .wide (by omega) (by omega), rfl⟩
    · rw [if_neg hnarrow, if_neg hwide]
      exact ⟨_, .outOfRange (by omega), rfl⟩

/-- Numbers keep their kind, whatever words are reserved. -/
theorem Promoted.reserve_eq {text : String} {n : Int} (h : Promoted line text n (.ok t))
    (isReserved : String → Bool) : t.reserve isReserved = t := by
  cases h <;> rfl

/-- The token of a lexeme on a line that scans, behind those of the lexemes before it. -/
theorem lineTokens_split {ts : List Token} (hcs : '\n' ∉ cs) (hwalk : Cuts cs (before ++ [l]) rest)
    (hl : l.token? isIgnored line = .ok (some t)) (h : lineTokens isIgnored line cs = .ok ts) :
    ∃ us vs, ts = us ++ t :: vs ∧ List.Forall₂ (fun l t => l.token? isIgnored line = .ok (some t))
      (Lexeme.kept isIgnored before) us := by
  obtain ⟨all, hall, htokens⟩ := (lineTokens_ok_iff hcs).mp h
  obtain ⟨more, rfl⟩ : ∃ more, all = before ++ [l] ++ more := by
    rcases hwalk.comparable hall with ⟨more, -, heq⟩ | ⟨more, hmore, heq⟩
    · exact ⟨more, heq⟩
    · exact ⟨[], by rw [heq, hmore.of_nil.1, List.append_nil, List.append_nil]⟩
  have hkept : l.isDropped isIgnored = false := by
    cases hdropped : l.isDropped isIgnored with
    | false => rfl
    | true =>
      rw [Lexeme.token?_eq_none_iff.mpr hdropped] at hl
      cases hl
  have hpairs := Lexeme.tokens_ok_iff.mp htokens
  rw [List.append_assoc, List.singleton_append, Lexeme.kept_append, Lexeme.kept_cons hkept] at hpairs
  have hus := (List.forall₂_take_append _ _ _ hpairs.flip).flip
  have hws := (List.forall₂_drop_append _ _ _ hpairs.flip).flip
  obtain ⟨u, vs, hu, -, heq⟩ := List.forall₂_cons_left_iff.mp hws
  obtain rfl := Option.some.inj (Except.ok.inj (hl.symm.trans hu))
  exact ⟨_, vs, by rw [← heq, List.take_append_drop], hus⟩

/-- A line is rejected for the first thing on it that is. -/
theorem Rejected.lineTokens_eq (hrejected : Rejected line rest e) (hcs : '\n' ∉ cs)
    (hwalk : Cuts cs before rest) (hclean : ∀ m ∈ before, ∀ e, m.token? isIgnored line ≠ .error e) :
    lineTokens isIgnored line cs = .error e := by
  cases hread : lineTokens isIgnored line cs with
  | ok ts => exact absurd hread (lineTokens_ne_ok hcs hwalk hrejected ts)
  | error e' =>
    obtain ⟨before', rest', hwalk', hrejected', hclean'⟩ := rejected_of_lineTokens hcs hread
    have hsuffix := hrejected'.isSuffix hwalk' hwalk hclean
    have hsuffix' := hrejected.isSuffix hwalk hwalk' hclean'
    obtain rfl : rest = rest' := hsuffix'.eq_of_length_le hsuffix.length_le
    rw [hrejected.unique hrejected']

end

/-- Whole numbers fit if 64 bits hold them. -/
def Fits (l : Lexeme) : Prop :=
  ∀ negative digits, l.text = written negative digits →
    -9223372036854775808 ≤ denoted negative digits ∧ denoted negative digits < 9223372036854775808

section
variable {s : TokenStream} {line rest : List Char} {later : List Text.SourceLine}
  {before : List Lexeme} {l : Lexeme}

theorem Munches.exists_written {cs : List Char} (h : Munches cs l) (hl : l.category = .integer) :
    ∃ negative digits, digits ≠ [] ∧ l.text = written negative digits := by
  have hmem := h.mem_language
  rw [hl] at hmem
  exact mem_integer_iff.mp hmem

/-- Nothing else that is taken off a line is rejected. -/
theorem token?_ne_error_of_fits (isIgnored : String → Bool) (n : Nat) (hwalk : Cuts line before rest)
    (hfits : ∀ m ∈ before, Fits m) : ∀ m ∈ before, ∀ e, m.token? isIgnored n ≠ .error e := by
  intro m hm e herror
  obtain ⟨hinteger, hout, -⟩ := Lexeme.token?_eq_error_iff.mp herror
  obtain ⟨r, -, hmunches⟩ := hwalk.munches m hm
  obtain ⟨negative, digits, -, htext⟩ := hmunches.exists_written hinteger
  have hin := hfits m hm negative digits htext
  rw [htext, integer_written] at hout
  omega

variable (hunread : s.unread = .text line :: later) (hline : '\n' ∉ line)
include hunread hline

/-- A number that fits gives its token, alone on its line or among other lexemes. -/
theorem pull_of_number {t : Token} (hwalk : Cuts line (before ++ [l]) rest)
    (htoken : l.token? s.vocabulary.isIgnored (s.line + 1) = .ok (some t))
    (hsame : t.reserve s.isReserved = t) :
    (before = [] → rest = [] → s.pull = .ok ()
      { s with unread := later, line := s.line + 1, buffer := s.buffer ++ [t] }) ∧
    ∀ s', s.pull = .ok () s' → ∃ ts us, s'.buffer = s.buffer ++ ts ++ t :: us ∧
      List.Forall₂ (ReadAs s.isReserved (s.line + 1))
        (Lexeme.kept s.vocabulary.isIgnored before) ts := by
  constructor
  · rintro rfl rfl
    have hread : lineTokens s.vocabulary.isIgnored (s.line + 1) line = .ok [t] := by
      refine (lineTokens_ok_iff hline).mpr ⟨[l], hwalk, ?_⟩
      rw [Lexeme.tokens, htoken]
      rfl
    rw [pull_of_ok hunread hread, List.map_singleton, hsame]
  · intro s' hpull
    cases hread : lineTokens s.vocabulary.isIgnored (s.line + 1) line with
    | error e =>
      rw [pull_of_error hunread hread] at hpull
      cases hpull
    | ok plain =>
      obtain ⟨us, vs, rfl, hus⟩ := lineTokens_split hline hwalk htoken hread
      rw [pull_of_ok hunread hread] at hpull
      cases hpull
      refine ⟨us.map (Token.reserve s.isReserved), vs.map (Token.reserve s.isReserved), ?_, ?_⟩
      · simp only [List.map_append, List.map_cons, hsame, List.append_assoc]
      · rw [List.forall₂_map_right_iff]
        exact hus.imp fun m u hu => readAs_of_token? hu s.isReserved

/-- A line is rejected for a number that does not fit, if those before it do. -/
theorem pull_of_rejected {e : LexError} (hwalk : Cuts line before rest)
    (hrejected : Rejected (s.line + 1) rest e) :
    ∃ e', s.pull = .error e' { s with unread := later, line := s.line + 1 } ∧
      ((∀ m ∈ before, Fits m) → e' = e) := by
  cases hread : lineTokens s.vocabulary.isIgnored (s.line + 1) line with
  | ok ts => exact absurd hread (lineTokens_ne_ok hline hwalk hrejected ts)
  | error e' =>
    refine ⟨e', pull_of_error hunread hread, fun hfits => ?_⟩
    have hclean := token?_ne_error_of_fits s.vocabulary.isIgnored (s.line + 1) hwalk hfits
    exact Except.error.inj (hread.symm.trans (hrejected.lineTokens_eq hline hwalk hclean))

end

/-- Digits, one or more, are one lexeme with a minus sign in front or none, and zeros in front do not
change what they denote. Wherever a walk over a line gets to a whole number, the number is such
digits, and what they denote decides alone what becomes of it. If it fits, its token is buffered
behind those of the lexemes before it as soon as the line scans, which a line does that holds nothing
else. If it does not fit, the line is rejected, and for this number unless one before it does not fit
either. -/
theorem integers_promoted :
    (∀ negative digits, digits ≠ [] →
      Cuts (written negative digits) [⟨.integer, written negative digits⟩] []) ∧
    (∀ negative zeros digits,
      denoted negative (List.replicate zeros 0 ++ digits) = denoted negative digits) ∧
    ∀ {s : TokenStream} {line : List Char} {later : List Text.SourceLine} {before : List Lexeme}
      {l : Lexeme} {rest : List Char}, s.unread = .text line :: later → '\n' ∉ line →
      Cuts line (before ++ [l]) rest → l.category = .integer →
      ∃ negative digits o, digits ≠ [] ∧ l.text = written negative digits ∧
        Promoted (s.line + 1) (String.ofList l.text) (denoted negative digits) o ∧
        (∀ t, o = .ok t →
          (before = [] → rest = [] → s.pull = .ok ()
            { s with unread := later, line := s.line + 1, buffer := s.buffer ++ [t] }) ∧
          ∀ s', s.pull = .ok () s' → ∃ ts us, s'.buffer = s.buffer ++ ts ++ t :: us ∧
            List.Forall₂ (ReadAs s.isReserved (s.line + 1))
              (Lexeme.kept s.vocabulary.isIgnored before) ts) ∧
        ∀ e, o = .error e → ∃ e',
          s.pull = .error e' { s with unread := later, line := s.line + 1 } ∧
          ((∀ m ∈ before, Fits m) → e' = e) := by
  refine ⟨fun negative digits => cuts_written, denoted_zeros, ?_⟩
  intro s line later before l rest hunread hline hwalk hinteger
  obtain ⟨mid, hbefore, hlast⟩ := hwalk.split
  obtain ⟨between, hspaces, -, hmunches, -⟩ := hlast.uncons
  obtain ⟨negative, digits, hne, htext⟩ := hmunches.exists_written hinteger
  obtain ⟨o, hpromoted, htoken⟩ :=
    promoted_token? s.vocabulary.isIgnored (s.line + 1) hinteger
  have hvalue : Decimal.integer l.text = denoted negative digits := by rw [htext, integer_written]
  rw [hvalue] at hpromoted
  refine ⟨negative, digits, o, hne, htext, hpromoted, ?_, ?_⟩
  · rintro t rfl
    exact pull_of_number hunread hline hwalk htoken (hpromoted.reserve_eq s.isReserved)
  · rintro e rfl
    have hout := Lexeme.token?_eq_error_iff.mp htoken
    have hrejected : Rejected (s.line + 1) (l.text ++ between) e := by
      rw [hout.2.2]
      exact .outOfRange hmunches hinteger hout.2.1
    have hplace := hbefore.append hspaces
    rw [List.append_nil] at hplace
    exact pull_of_rejected hunread hline hplace hrejected

/-- A number longer than any that 64 bits hold, which 32 bits hold without its zeros, and one that is
too small by one. -/
theorem integers_promoted_sample :
    let narrow : Lexeme := ⟨.integer, written true
      [0, 0, 0, 0, 0, 0, 0, 0, 0, 0, 2, 1, 4, 7, 4, 8, 3, 6, 4, 8]⟩
    let small : Lexeme := ⟨.integer, written true
      [9, 2, 2, 3, 3, 7, 2, 0, 3, 6, 8, 5, 4, 7, 7, 5, 8, 0, 9]⟩
    let line := narrow.text ++ ' ' :: small.text
    let s : TokenStream := ⟨.standard, .empty, [], [.text line], 0⟩
    s.unread = [.text line] ∧ '\n' ∉ line ∧ Cuts line ([narrow] ++ [small]) [] ∧
      small.category = .integer ∧ Fits narrow ∧
      s.pull = .error (.outOfRange 1 (String.ofList small.text))
        { s with unread := [], line := 1 } := by
  intro narrow small line s
  have hline : '\n' ∉ line := by decide
  have hwalk : Cuts line ([narrow] ++ [small]) [] := (cut_complete_iff hline).mp (by decide +kernel)
  have hfits : Fits narrow := by
    intro negative digits htext
    rw [← integer_written, ← htext]
    decide
  have hunread : s.unread = [.text line] := rfl
  have hsmall : small.category = .integer := rfl
  refine ⟨hunread, hline, hwalk, hsmall, hfits, ?_⟩
  obtain ⟨negative, digits, o, -, htext, hpromoted, -, hrejected⟩ :=
    integers_promoted.2.2 hunread hline hwalk hsmall
  have hvalue : denoted negative digits = -9223372036854775809 := by
    rw [← integer_written, ← htext]
    rfl
  rw [hvalue] at hpromoted
  cases hpromoted with
  | narrow hn => omega
  | wide _ hn => omega
  | outOfRange =>
    obtain ⟨e', hpull, hfirst⟩ := hrejected _ rfl
    rw [hpull, hfirst fun m hm => by rw [List.mem_singleton.mp hm]; exact hfits]

end HandlerGrammar
