import HandlerGrammar.Proofs.Scanning.Categories

/-! # Cutting a line into lexemes

A line is walked from left to right: spaces are passed over, and anything else is taken off as the
longest lexeme of any category, unless a string or a comment begins there that is not closed.

* `Munches`: the longest lexeme at the start of a text, `munches_munch`, `Munches.eq`;
* `Unclosed`: a string or a comment that is not closed, `fault_eq_some_iff`;
* `Cuts`: what is left of a text behind some lexemes, with its step and run lemmas;
* `exists_cuts_cut`, `cut_complete_iff`: cutting is the walk to the end of the line, or to what is not
  closed. -/
namespace HandlerGrammar
open Computability Pattern Category
set_option autoImplicit false

/-! ## The longest lexeme -/

/-- The longest lexeme at the start of a text: no category has a longer one, and of those that have
it the category is the first. -/
structure Munches (cs : List Char) (l : Lexeme) : Prop where
  ne_nil : l.text ≠ []
  isPrefix : l.text <+: cs
  mem_language : l.text ∈ l.category.language
  length_le : ∀ (c : Category), ∀ w ∈ c.language, w <+: cs → w.length ≤ l.text.length
  first : ∀ c : Category, l.text ∈ c.language → l.category.ctorIdx ≤ c.ctorIdx

/-- A lexeme begins as its category does. -/
theorem Munches.begins {cs : List Char} {l : Lexeme} (h : Munches cs l) :
    ∃ c ∈ cs.head?, l.category.begins c = true := by
  obtain ⟨c, hc, hbegins⟩ := startsIn_language l.category l.text h.mem_language
  obtain ⟨rest, rfl⟩ := h.isPrefix
  exact ⟨c, List.mem_head?_append_of_mem_head? hc, hbegins⟩

theorem not_munches_space {cs : List Char} {l : Lexeme} : ¬ Munches (' ' :: cs) l := by
  intro h
  obtain ⟨c, ⟨⟩, hbegins⟩ := h.begins
  cases hcategory : l.category <;> rw [hcategory] at hbegins <;> exact absurd hbegins (by decide)

theorem ctorIdx_injective {c d : Category} (h : c.ctorIdx = d.ctorIdx) : c = d := by
  cases c <;> cases d <;> first | rfl | exact absurd h (by decide)

theorem Munches.eq {cs : List Char} {l l' : Lexeme} (h : Munches cs l) (h' : Munches cs l') :
    l = l' := by
  have hle := h.length_le l'.category l'.text h'.mem_language h'.isPrefix
  have hge := h'.length_le l.category l.text h.mem_language h.isPrefix
  have hpre := List.prefix_of_prefix_length_le h.isPrefix h'.isPrefix hge
  have htext : l.text = l'.text := hpre.eq_of_length_le hle
  have hfirst := h.first l'.category (htext ▸ h'.mem_language)
  have hfirst' := h'.first l.category (htext ▸ h.mem_language)
  have hcategory : l.category = l'.category := ctorIdx_injective (le_antisymm hfirst hfirst')
  cases l
  cases l'
  simp_all

/-- The best match among some categories: no match is longer, and of those as long it is the first. -/
structure Best (cs : List Char) (seen : List Category) (best : Category × Nat) : Prop where
  longest_le : ∀ c ∈ seen, c.longest cs ≤ best.2
  attained : best.2 ≠ 0 → best.1 ∈ seen ∧ best.1.longest cs = best.2
  first : best.2 ≠ 0 → ∀ c ∈ seen, c.longest cs = best.2 → best.1.ctorIdx ≤ c.ctorIdx

theorem Best.next {cs : List Char} {seen : List Category} {best : Category × Nat} {c : Category}
    (h : Best cs seen best) (hc : ∀ d ∈ seen, d.ctorIdx < c.ctorIdx) :
    Best cs (seen ++ [c]) (if best.2 < c.longest cs then (c, c.longest cs) else best) := by
  by_cases hlt : best.2 < c.longest cs
  · rw [if_pos hlt]
    refine ⟨fun d hd => ?_, fun _ => ⟨by simp, rfl⟩, fun _ d hd hsame => ?_⟩
    · rcases List.mem_append.mp hd with hd | hd
      · exact (h.longest_le d hd).trans hlt.le
      · rw [List.mem_singleton.mp hd]
    · rcases List.mem_append.mp hd with hd | hd
      · exact absurd hsame ((h.longest_le d hd).trans_lt hlt).ne
      · rw [List.mem_singleton.mp hd]
  · rw [if_neg hlt]
    refine ⟨fun d hd => ?_, fun hne => ?_, fun hne d hd hsame => ?_⟩
    · rcases List.mem_append.mp hd with hd | hd
      · exact h.longest_le d hd
      · rw [List.mem_singleton.mp hd]
        exact Nat.le_of_not_lt hlt
    · exact ⟨List.mem_append_left _ (h.attained hne).1, (h.attained hne).2⟩
    · rcases List.mem_append.mp hd with hd | hd
      · exact h.first hne d hd hsame
      · rw [List.mem_singleton.mp hd]
        exact (hc _ (h.attained hne).1).le

theorem best_foldl {cs : List Char} (more seen : List Category) {best : Category × Nat}
    (horder : (seen ++ more).Pairwise fun c d => c.ctorIdx < d.ctorIdx) (h : Best cs seen best) :
    Best cs (seen ++ more)
      (more.foldl (fun best c => if best.2 < c.longest cs then (c, c.longest cs) else best) best) := by
  induction more generalizing seen best with
  | nil => rwa [List.append_nil]
  | cons c more ih =>
    have hsplit : seen ++ c :: more = (seen ++ [c]) ++ more := by simp
    have hc : ∀ d ∈ seen, d.ctorIdx < c.ctorIdx := fun d hd =>
      (List.pairwise_append.mp horder).2.2 d hd c List.mem_cons_self
    rw [hsplit] at horder ⊢
    exact ih (seen ++ [c]) horder (h.next hc)

theorem best_munch (cs : List Char) : Best cs Category.all (munch cs) :=
  best_foldl Category.all [] (by decide) ⟨by simp, fun h => absurd rfl h, fun h => absurd rfl h⟩

theorem longest_le_munch (c : Category) (cs : List Char) : c.longest cs ≤ (munch cs).2 :=
  (best_munch cs).longest_le c (by cases c <;> decide)

section
variable {cs : List Char}

theorem take_longest_mem {c : Category} (hcs : '\n' ∉ cs) (hne : c.longest cs ≠ 0) :
    cs.take (c.longest cs) ∈ c.language ∧ (cs.take (c.longest cs)).length = c.longest cs := by
  have h := longest_language c hcs
  rw [nonzero_of_ne hne] at h
  obtain ⟨w, hw, hpre, hlength⟩ := h.1
  have htake : cs.take (c.longest cs) = w := by rw [← hlength, ← List.prefix_iff_eq_take.mp hpre]
  rw [htake]
  exact ⟨hw, hlength⟩

theorem length_le_longest {c : Category} {w : List Char} (hcs : '\n' ∉ cs) (hw : w ∈ c.language)
    (hpre : w <+: cs) : w.length ≤ c.longest cs := by
  have h := longest_language c hcs
  by_cases hzero : c.longest cs = 0
  · rw [hzero] at h
    exact absurd hpre (h w hw)
  · rw [nonzero_of_ne hzero] at h
    exact h.2 w hw hpre

/-- A match that is not empty is the longest lexeme. -/
theorem munches_munch (hcs : '\n' ∉ cs) (hne : (munch cs).2 ≠ 0) :
    Munches cs ⟨(munch cs).1, cs.take (munch cs).2⟩ := by
  have hbest := best_munch cs
  obtain ⟨-, hattained⟩ := hbest.attained hne
  obtain ⟨hmem, hlength⟩ := take_longest_mem (c := (munch cs).1) hcs (hattained ▸ hne)
  rw [hattained] at hmem hlength
  refine ⟨fun hnil => ?_, List.take_prefix _ _, hmem, fun c w hw hpre => ?_, fun c hc => ?_⟩
  · rw [show cs.take (munch cs).2 = [] from hnil] at hlength
    exact hne hlength.symm
  · rw [hlength]
    exact (length_le_longest hcs hw hpre).trans (longest_le_munch c cs)
  · have hle := length_le_longest hcs hc (List.take_prefix _ _)
    rw [hlength] at hle
    exact hbest.first hne c (by cases c <;> decide) (le_antisymm (longest_le_munch c cs) hle)

/-! ## Strings and comments that are not closed -/

/-- A text that begins with a string or a comment that it does not close, with the part of it that
an error shows. -/
inductive Unclosed : List Char → List Char → Prop where
  | string {cs : List Char} (h : ∀ w ∈ Category.string.language, ¬ w <+: '"' :: cs) :
      Unclosed ('"' :: cs) ('"' :: unclosed cs)
  | comment {cs : List Char} (h : ¬ ['*', '/'] <:+: cs) : Unclosed ('/' :: '*' :: cs) ('/' :: '*' :: cs)

theorem closingStar_eq_none_iff (cs : List Char) : closingStar cs = none ↔ ¬ ['*', '/'] <:+: cs := by
  fun_induction closingStar cs with
  | case1 => simp
  | case2 cs =>
    have hcloses : ['*', '/'] <:+: '*' :: '/' :: cs := ⟨[], cs, rfl⟩
    simp [hcloses]
  | case3 c cs hnot ih =>
    have hpre : ¬ ['*', '/'] <+: c :: cs := by
      rintro ⟨ds, h⟩
      obtain ⟨rfl, rfl⟩ := List.cons.inj h
      exact hnot ds rfl rfl
    rw [Option.map_eq_none_iff, ih, List.infix_cons_iff, not_or, and_iff_right hpre]

theorem closingQuote_eq_none_iff (hcs : '\n' ∉ cs) :
    closingQuote cs = none ↔ ∀ w ∈ Category.string.language, ¬ w <+: '"' :: cs := by
  have hline : '\n' ∉ '"' :: cs := by simpa using hcs
  have h := longest_string hline
  constructor
  · intro hnone
    rw [stringLength, hnone] at h
    exact h
  · intro hnot
    cases hclosing : closingQuote cs with
    | none => rfl
    | some n =>
      rw [stringLength, hclosing] at h
      obtain ⟨w, hw, hpre, -⟩ := h.1
      exact absurd hpre (hnot w hw)

theorem fault_eq_some_iff {fragment : List Char} (hcs : '\n' ∉ cs) :
    fault? cs = some fragment ↔ Unclosed cs fragment := by
  constructor
  · intro h
    unfold fault? at h
    split at h
    · rename_i cs
      rw [Option.ite_none_right_eq_some, Option.isNone_iff_eq_none] at h
      obtain ⟨hnone, hfragment⟩ := h
      obtain rfl := Option.some.inj hfragment
      exact .string ((closingQuote_eq_none_iff fun hnl => hcs (List.mem_cons_of_mem _ hnl)).mp hnone)
    · rename_i cs
      rw [Option.ite_none_right_eq_some, Option.isNone_iff_eq_none] at h
      obtain ⟨hnone, hfragment⟩ := h
      obtain rfl := Option.some.inj hfragment
      exact .comment ((closingStar_eq_none_iff cs).mp hnone)
    · cases h
  · rintro (h | h)
    · rw [fault?, (closingQuote_eq_none_iff fun hnl => hcs (List.mem_cons_of_mem _ hnl)).mpr h]
      rfl
    · rw [fault?, (closingStar_eq_none_iff _).mpr h]
      rfl

/-- Wherever no space stands and nothing is left open, there is a lexeme. -/
theorem munch_ne_zero {c : Char} (hspace : c ≠ ' ') (hfault : fault? (c :: cs) = none) :
    (munch (c :: cs)).2 ≠ 0 := by
  suffices hsome : ∃ category : Category, 0 < category.longest (c :: cs) by
    obtain ⟨category, hpos⟩ := hsome
    exact (hpos.trans_le (longest_le_munch category (c :: cs))).ne'
  by_cases hword : isWordStart c = true
  · refine ⟨.word, ?_⟩
    rw [longest, wordLength, if_pos hword]
    omega
  · by_cases hdigit : c.isDigit = true
    · refine ⟨.integer, ?_⟩
      have hminus : c ≠ '-' := fun h => absurd hdigit (h ▸ by decide)
      have hsame : integerLength (c :: cs) = digitsLength (c :: cs) := by
        rw [integerLength, negatable]
        exact fun ds h => hminus (List.cons.inj h).1
      rw [longest, hsame]
      simp [digitsLength, hdigit]
    · by_cases hquote : c = '"'
      · subst hquote
        refine ⟨.string, ?_⟩
        cases hclosing : closingQuote cs with
        | none => simp [fault?, hclosing] at hfault
        | some n => simp [longest, stringLength, hclosing]
      · refine ⟨.symbol, ?_⟩
        have hsymbol : isSymbol c = true := by
          simp_all [isSymbol, isWordPart, isWordStart, Char.isAlphanum]
        rw [longest, symbolLength, if_pos hsymbol]
        split <;> decide

end

/-! ## The walk over a line -/

/-- A walk from left to right that takes lexemes off a text, and what it leaves of the text. It
does not go past what is not closed. -/
inductive Cuts : List Char → List Lexeme → List Char → Prop where
  | done (cs : List Char) : Cuts cs [] cs
  | space {cs rest : List Char} {ls : List Lexeme} (h : Cuts cs ls rest) : Cuts (' ' :: cs) ls rest
  | lexeme {l : Lexeme} {cs rest : List Char} {ls : List Lexeme}
      (hclosed : ∀ fragment, ¬ Unclosed (l.text ++ cs) fragment) (hl : Munches (l.text ++ cs) l)
      (h : Cuts cs ls rest) : Cuts (l.text ++ cs) (l :: ls) rest

section
variable {cs rest rest' : List Char} {ls ls' : List Lexeme} {l : Lexeme}

theorem Cuts.append (h : Cuts cs ls rest) (h' : Cuts rest ls' rest') : Cuts cs (ls ++ ls') rest' := by
  induction h with
  | done => exact h'
  | space _ ih => exact (ih h').space
  | lexeme hclosed hl _ ih => exact (ih h').lexeme hclosed hl

theorem Cuts.isSuffix (h : Cuts cs ls rest) : rest <:+ cs := by
  induction h with
  | done cs => exact List.suffix_rfl
  | space _ ih => exact ih.trans (List.suffix_cons _ _)
  | lexeme _ _ _ ih => exact ih.trans (List.suffix_append _ _)

/-- Every lexeme of a walk is the longest one at its place. -/
theorem Cuts.munches (h : Cuts cs ls rest) :
    ∀ l ∈ ls, ∃ r, l.text ++ r <:+ cs ∧ Munches (l.text ++ r) l := by
  induction h with
  | done => simp
  | space h ih =>
    intro l hl
    obtain ⟨r, hr, hmunches⟩ := ih l hl
    exact ⟨r, hr.trans (List.suffix_cons _ _), hmunches⟩
  | lexeme hclosed hl h ih =>
    intro m hm
    rcases List.mem_cons.mp hm with rfl | hm
    · exact ⟨_, List.suffix_rfl, hl⟩
    · obtain ⟨r, hr, hmunches⟩ := ih m hm
      exact ⟨r, hr.trans (List.suffix_append _ _), hmunches⟩

/-- A walk with a first lexeme passes over spaces, takes the lexeme off and goes on. -/
theorem Cuts.uncons (h : Cuts cs (l :: ls) rest) : ∃ between,
    Cuts cs [] (l.text ++ between) ∧ (∀ fragment, ¬ Unclosed (l.text ++ between) fragment) ∧
      Munches (l.text ++ between) l ∧ Cuts between ls rest := by
  generalize hall : l :: ls = all at h
  induction h with
  | done => cases hall
  | space _ ih =>
    obtain ⟨between, hspaces, hrest⟩ := ih hall
    exact ⟨between, hspaces.space, hrest⟩
  | lexeme hclosed hl h =>
    obtain ⟨rfl, rfl⟩ := List.cons.inj hall
    exact ⟨_, .done _, hclosed, hl, h⟩

/-- Nothing is taken off where nothing is left. -/
theorem Cuts.of_nil (h : Cuts [] ls rest) : ls = [] ∧ rest = [] := by
  generalize hnil : [] = cs at h
  cases h with
  | done => exact ⟨rfl, rfl⟩
  | space => cases hnil
  | lexeme _ hl => exact absurd (List.append_eq_nil_iff.mp hnil.symm).1 hl.ne_nil

/-- No walk goes past what is not closed. -/
theorem Unclosed.stuck {fragment : List Char} (hopen : Unclosed cs fragment) (h : Cuts cs ls rest) :
    ls = [] ∧ rest = cs := by
  cases h with
  | done => exact ⟨rfl, rfl⟩
  | space => cases hopen
  | lexeme hclosed => exact absurd hopen (hclosed fragment)

/-- Of two walks over the same text one goes on where the other stops. -/
theorem Cuts.comparable (h : Cuts cs ls rest) (h' : Cuts cs ls' rest') :
    (∃ more, Cuts rest more rest' ∧ ls' = ls ++ more) ∨
      ∃ more, Cuts rest' more rest ∧ ls = ls' ++ more := by
  induction h generalizing ls' with
  | done cs => exact Or.inl ⟨ls', h', rfl⟩
  | @space cs rest ls h ih =>
    generalize hcs : ' ' :: cs = ds at h'
    cases h' with
    | done => exact Or.inr ⟨ls, hcs ▸ h.space, rfl⟩
    | space h' =>
      obtain ⟨-, rfl⟩ := List.cons.inj hcs
      exact ih h'
    | lexeme _ hl => exact absurd (hcs ▸ hl) not_munches_space
  | @lexeme l cs rest ls hclosed hl h ih =>
    generalize hcs : l.text ++ cs = ds at h'
    cases h' with
    | done => exact Or.inr ⟨l :: ls, hcs ▸ h.lexeme hclosed hl, rfl⟩
    | space h' => exact absurd (hcs ▸ hl) not_munches_space
    | lexeme _ hl' h' =>
      obtain rfl := (hcs ▸ hl).eq hl'
      obtain rfl := List.append_cancel_left hcs
      rcases ih h' with ⟨more, hmore, rfl⟩ | ⟨more, hmore, rfl⟩
      · exact Or.inl ⟨more, hmore, rfl⟩
      · exact Or.inr ⟨more, hmore, rfl⟩

/-- The lexemes of a whole line are determined. -/
theorem Cuts.unique (h : Cuts cs ls []) (h' : Cuts cs ls' []) : ls = ls' := by
  rcases h.comparable h' with ⟨more, hmore, rfl⟩ | ⟨more, hmore, rfl⟩
  · rw [hmore.of_nil.1, List.append_nil]
  · rw [hmore.of_nil.1, List.append_nil]

/-! ## Cutting is the walk -/

theorem cutFrom_eq (skip : Nat) (cs : List Char) : cutFrom skip cs = cut (cs.drop skip) := by
  induction skip generalizing cs with
  | zero => rfl
  | succ skip ih =>
    cases cs with
    | nil => rfl
    | cons c cs => exact ih cs

theorem cut_fault {fragment : List Char} (h : fault? cs = some fragment) :
    cut cs = ([], some fragment) := by
  cases cs with
  | nil => cases h
  | cons c cs =>
    have hspace : c ≠ ' ' := by
      rintro rfl
      cases h
    rw [cut, cutFrom, if_neg hspace, h]

theorem cut_lexeme {c : Char} (hspace : c ≠ ' ') (hfault : fault? (c :: cs) = none) :
    cut (c :: cs) = (⟨(munch (c :: cs)).1, (c :: cs).take (munch (c :: cs)).2⟩ ::
        (cut ((c :: cs).drop (munch (c :: cs)).2)).1, (cut ((c :: cs).drop (munch (c :: cs)).2)).2) := by
  obtain ⟨n, hn⟩ := Nat.exists_eq_succ_of_ne_zero (munch_ne_zero hspace hfault)
  rw [cut, cutFrom, if_neg hspace, hfault]
  simp only [cutFrom_eq]
  rw [hn]
  rfl

/-- Cutting walks to the end of the text or to what is not closed. -/
theorem exists_cuts_cut (cs : List Char) (hcs : '\n' ∉ cs) : ∃ rest, Cuts cs (cut cs).1 rest ∧
    ((cut cs).2 = none ∧ rest = [] ∨
      ∃ fragment, (cut cs).2 = some fragment ∧ Unclosed rest fragment) := by
  match cs with
  | [] => exact ⟨[], .done [], Or.inl ⟨rfl, rfl⟩⟩
  | c :: cs =>
    by_cases hspace : c = ' '
    · subst hspace
      obtain ⟨rest, hwalk, hend⟩ := exists_cuts_cut cs fun h => hcs (List.mem_cons_of_mem _ h)
      exact ⟨rest, hwalk.space, hend⟩
    · cases hfault : fault? (c :: cs) with
      | some fragment =>
        rw [cut_fault hfault]
        exact ⟨c :: cs, .done _, Or.inr ⟨fragment, rfl, (fault_eq_some_iff hcs).mp hfault⟩⟩
      | none =>
        have hsplit := List.take_append_drop (munch (c :: cs)).2 (c :: cs)
        have hne := munch_ne_zero hspace hfault
        have hless : ((c :: cs).drop (munch (c :: cs)).2).length < (c :: cs).length := by
          rw [List.length_drop, List.length_cons]
          omega
        have hclosed : ∀ fragment, ¬ Unclosed (c :: cs) fragment := fun fragment hopen => by
          rw [(fault_eq_some_iff hcs).mpr hopen] at hfault
          cases hfault
        obtain ⟨rest, hwalk, hend⟩ := exists_cuts_cut ((c :: cs).drop (munch (c :: cs)).2)
          fun h => hcs (List.mem_of_mem_drop h)
        have hstep := hwalk.lexeme (l := ⟨(munch (c :: cs)).1, (c :: cs).take (munch (c :: cs)).2⟩)
          (by rwa [hsplit]) (by rw [hsplit]; exact munches_munch hcs hne)
        rw [hsplit] at hstep
        rw [cut_lexeme hspace hfault]
        exact ⟨rest, hstep, hend⟩
  termination_by cs.length

theorem cut_complete_iff (hcs : '\n' ∉ cs) : cut cs = (ls, none) ↔ Cuts cs ls [] := by
  obtain ⟨rest, hwalk, hend⟩ := exists_cuts_cut cs hcs
  constructor
  · intro h
    rw [h] at hwalk hend
    obtain ⟨-, rfl⟩ | ⟨_, hnone, -⟩ := hend
    · exact hwalk
    · cases hnone
  · intro h
    obtain ⟨hnone, rfl⟩ | ⟨fragment, -, hopen⟩ := hend
    · exact Prod.ext (hwalk.unique h) hnone
    · have hnil : rest = [] := by
        rcases hwalk.comparable h with ⟨more, hmore, -⟩ | ⟨more, hmore, -⟩
        · exact (hopen.stuck hmore).2.symm
        · exact hmore.of_nil.2
      rw [hnil] at hopen
      cases hopen

end
end HandlerGrammar
