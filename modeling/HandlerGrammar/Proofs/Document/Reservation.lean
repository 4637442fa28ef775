import HandlerGrammar.Proofs.Document.GenericJson
import HandlerGrammar.Proofs.Document.Generation
import HandlerGrammar.Proofs.Tree.Mapping

/-! # Reserved words in generic JSON

Which words are reserved decides the kinds of quoted strings and of words, and rules ask for kinds.
In generic JSON this makes no difference: a key may be of any of these kinds, a quoted string is a
string even if its content is reserved, a word that is no key is refused whether reserved or not,
and `null` is reserved by the grammar itself.

* `Token.reclassify`: a token under other reserved words, `Token.Reclassified`: how it differs;
* `Keeps`: what generic JSON asks of a token, `keeps_reclassify`: it is kept;
* `Forms.map`: so a reading of the tokens remains one, with the same nodes otherwise;
* `reserves_null`: the words that a generated grammar reserves;
* `reservation_irrelevant`: parsing under other reserved words. -/
namespace HandlerGrammar
open Derivation HandlerTree ParseTree
set_option autoImplicit false

/-! ## Tokens under other reserved words -/

namespace Token

/-- The token as the given words make it, whatever words were reserved before. -/
def reclassify (p : String → Bool) (t : Token) : Token := t.lexical.reserve p

/-- The tokens agree but for their kinds, of which one may be that of a reserved word where the
other is that of a string or an identifier. -/
structure Reclassified (t t' : Token) : Prop where
  line : t'.line = t.line
  text : t'.text = t.text
  word : t'.word = t.word
  value : t'.value = t.value
  kind : t'.kind = t.kind ∨ t.kind = .reserved ∧ (t'.kind = .string ∨ t'.kind = .identifier) ∨
    t'.kind = .reserved ∧ (t.kind = .string ∨ t.kind = .identifier)

variable {p : String → Bool} {t : Token}

theorem lexical_of_reserved (h : t.kind = .reserved) : ∃ kind,
    t.lexical = { t with kind } ∧ (kind = .string ∨ kind = .identifier) ∧
      ∀ content, t.value = .text content → kind = .string := by
  obtain ⟨kind, line, text, value⟩ := t
  obtain rfl : kind = .reserved := h
  cases value with
  | text content => exact ⟨.string, rfl, Or.inl rfl, fun _ _ => rfl⟩
  | _ => exact ⟨.identifier, rfl, Or.inr rfl, fun _ hvalue => by cases hvalue⟩

theorem reclassified_kind {kind : Kind} (h : kind = t.kind ∨
    t.kind = .reserved ∧ (kind = .string ∨ kind = .identifier) ∨
    kind = .reserved ∧ (t.kind = .string ∨ t.kind = .identifier)) :
    t.Reclassified { t with kind } := ⟨rfl, rfl, rfl, rfl, h⟩

theorem reclassified_reclassify (p : String → Bool) (t : Token) :
    t.Reclassified (t.reclassify p) := by
  unfold reclassify
  by_cases hk : t.kind = .reserved
  · obtain ⟨kind, hlexical, hkind, -⟩ := lexical_of_reserved hk
    rw [hlexical]
    rcases reserve_eq p { t with kind } with h | ⟨-, h⟩
    · rw [h]
      exact reclassified_kind (Or.inr (Or.inl ⟨hk, hkind⟩))
    · rw [h]
      exact reclassified_kind (Or.inl hk.symm)
  · rw [lexical_of_not_reserved hk]
    rcases reserve_eq p t with h | ⟨hword, h⟩
    · rw [h]
      exact reclassified_kind (Or.inl rfl)
    · rw [h]
      exact reclassified_kind (Or.inr (Or.inr ⟨rfl, hword⟩))

theorem reclassify_reserve {plain : Token} (h : plain.IsPlain) (p q : String → Bool) :
    (plain.reserve q).reclassify p = plain.reserve p := by
  rw [reclassify, lexical_reserve h]

theorem isWord_iff : t.isWord = true ↔
    t.kind = .string ∨ t.kind = .identifier ∨ t.kind = .reserved := by
  simp only [isWord, Bool.or_eq_true, beq_iff_eq, or_assoc]

theorem reclassify_of_not_isWord (h : ¬ t.isWord = true) : t.reclassify p = t := by
  obtain ⟨hs, hi, hr⟩ := not_or.mp (isWord_iff.not.mp h) |>.imp_right not_or.mp
  rw [reclassify, lexical_of_not_reserved hr, reserve_of_other hs hi]

theorem isWord_reclassify (p : String → Bool) (h : t.isWord = true) :
    (t.reclassify p).isWord = true := by
  have hkind := (reclassified_reclassify p t).kind
  rw [isWord_iff] at h ⊢
  rcases hkind with hkind | ⟨-, hkind | hkind⟩ | ⟨hkind, -⟩
  · rw [hkind]
    exact h
  · exact Or.inl hkind
  · exact Or.inr (Or.inl hkind)
  · exact Or.inr (Or.inr hkind)

/-- A reserved word stays one where its word is reserved again. -/
theorem kind_reclassify (hk : t.kind = .reserved) (hp : p t.word = true) :
    (t.reclassify p).kind = .reserved := by
  obtain ⟨kind, hlexical, hkind, -⟩ := lexical_of_reserved hk
  rw [reclassify, hlexical, reserve_of_isReserved (t := { t with kind }) hkind hp]

/-- What passes for a string has the content of one, and is a string while no word is reserved. -/
theorem lexical_of_string (hquoted : t.kind = .string → ∃ content, t.value = .text content)
    (h : TokenClass.string.accepts t = true) :
    (∃ content, t.value = .text content) ∧ t.lexical = { t with kind := .string } := by
  simp only [TokenClass.accepts, Bool.or_eq_true, beq_iff_eq, Bool.and_eq_true] at h
  rcases h with hk | ⟨hk, hvalue⟩
  · refine ⟨hquoted hk, ?_⟩
    rw [lexical_of_not_reserved (by simp [hk]), ← hk]
  · obtain ⟨kind, hlexical, -, hstring⟩ := lexical_of_reserved hk
    cases hv : t.value with
    | text content =>
      rw [hstring content hv, hv] at hlexical
      exact ⟨⟨content, rfl⟩, hlexical⟩
    | _ =>
      rw [hv] at hvalue
      cases hvalue

/-- A quoted string stays one, reserved or not. -/
theorem accepts_string_reclassify (p : String → Bool)
    (hquoted : t.kind = .string → ∃ content, t.value = .text content)
    (h : TokenClass.string.accepts t = true) :
    TokenClass.string.accepts (t.reclassify p) = true := by
  obtain ⟨⟨content, hv⟩, hlexical⟩ := lexical_of_string hquoted h
  rw [reclassify, hlexical]
  rcases reserve_eq p { t with kind := .string } with h | ⟨-, h⟩
  · rw [h]
    rfl
  · rw [h]
    simp [TokenClass.accepts, hv]

end Token

open Token

variable {C : Type}

/-! ## Readings under other reserved words -/

/-- A key is any quoted string or word. -/
theorem forms_key_iff {t : Token} :
    Forms (.key : Part C) [t] [.leaf none t] ↔ t.isWord = true := by
  rw [forms_leaf_iff (Or.inl rfl), isWord_iff]
  simp only [Part.alternatives, List.mem_cons, List.not_mem_nil, or_false, Part.token.injEq,
    or_and_right, exists_or, exists_eq_left, Terminal.accepts, TokenClass.accepts, Bool.or_eq_true,
    Bool.and_eq_true, beq_iff_eq]
  constructor
  · rintro ((h | h) | h | h)
    · exact Or.inl h
    · exact Or.inr (Or.inr h.1)
    · exact Or.inr (Or.inl h)
    · exact Or.inr (Or.inr h)
  · rintro (h | h | h)
    · exact Or.inl (Or.inl h)
    · exact Or.inr (Or.inl h)
    · exact Or.inr (Or.inr h)

/-- A scalar is a number, a quoted string, a truth value or `null`. -/
theorem forms_scalar_iff {t : Token} : Forms (.scalar : Part C) [t] [.leaf none t] ↔
    TokenClass.number.accepts t = true ∨ TokenClass.string.accepts t = true ∨
      TokenClass.bool.accepts t = true ∨ t.kind = .reserved ∧ t.word = "null" := by
  rw [forms_leaf_iff (Or.inr rfl)]
  simp only [Part.alternatives, List.mem_cons, List.not_mem_nil, or_false, Part.token.injEq,
    or_and_right, exists_or, exists_eq_left, Terminal.accepts, Bool.and_eq_true, beq_iff_eq]

/-- What generic JSON asks of a token holds of its replacement too. -/
structure Keeps (C : Type) (f : Token → Token) (t : Token) : Prop where
  line : (f t).line = t.line
  separator : ∀ text, (Terminal.separator text).accepts t = true →
    (Terminal.separator text).accepts (f t) = true
  key : Forms (.key : Part C) [t] [.leaf none t] → Forms (.key : Part C) [f t] [.leaf none (f t)]
  scalar : Forms (.scalar : Part C) [t] [.leaf none t] →
    Forms (.scalar : Part C) [f t] [.leaf none (f t)]

/-- Other reserved words make no difference, as long as `null` is one of them. -/
theorem keeps_reclassify {p : String → Bool} (hnull : p "null" = true) {t : Token}
    (hquoted : t.kind = .string → ∃ content, t.value = .text content) :
    Keeps C (reclassify p) t := by
  have hsame : ∀ {c : TokenClass}, (c = .number ∨ c = .bool) → c.accepts t = true →
      t.reclassify p = t := by
    intro c hc h
    refine reclassify_of_not_isWord fun hword => ?_
    rw [isWord_iff] at hword
    rcases hc with rfl | rfl
    all_goals rcases hword with hk | hk | hk <;> simp [TokenClass.accepts, hk, Kind.isNumber] at h
  refine ⟨(reclassified_reclassify p t).line, fun text h => ?_, fun h => ?_, fun h => ?_⟩
  · rw [reclassify_of_not_isWord fun hword => ?_]
    · exact h
    · simp only [Terminal.accepts, Bool.and_eq_true, beq_iff_eq] at h
      simp [isWord_iff, h.1] at hword
  · exact forms_key_iff.mpr (isWord_reclassify p (forms_key_iff.mp h))
  · rw [forms_scalar_iff] at h ⊢
    rcases h with h | h | h | ⟨hk, hword⟩
    · rw [hsame (Or.inl rfl) h]
      exact Or.inl h
    · exact Or.inr (Or.inl (accepts_string_reclassify p hquoted h))
    · rw [hsame (Or.inr rfl) h]
      exact Or.inr (Or.inr (Or.inl h))
    · refine Or.inr (Or.inr (Or.inr ⟨kind_reclassify hk (hword ▸ hnull), ?_⟩))
      rw [(reclassified_reclassify p t).word, hword]

theorem map_made (f : Token → Token) {p : Part C} (h : p.groups = []) (line : Nat)
    (ns : List ParseTree) :
    (p.made line ns).map (ParseTree.map f id) = p.made line (ns.map (ParseTree.map f id)) := by
  unfold Part.made Grammar.ruleNodes
  rw [h]
  split
  · exact congrArg (fun n => [n]) (map_labeled f id _ _ _)
  · rfl

/-- Tokens replaced by others that keep what is asked of them are read in the same way. -/
theorem Forms.map {f : Token → Token} {p : Part C} (hp : p.IsJson) {ts : List Token}
    {ns : List ParseTree} (h : Forms p ts ns) (hf : ∀ t ∈ ts, Keeps C f t) :
    Forms p (ts.map f) (ns.map (ParseTree.map f id)) := by
  induction h with
  | token _ _ => exact hp.elim
  | @choice p q ts ns hq h ih =>
    rcases hp.of_alternatives hq with hleaf | rfl
    · have hforms := Forms.choice hq h
      obtain ⟨t, rfl, rfl, -⟩ := hforms.leaf hleaf
      have hkeeps := hf t (List.mem_singleton_self t)
      rcases hleaf with rfl | rfl
      · exact hkeeps.key hforms
      · exact hkeeps.scalar hforms
    · exact .choice hq (ih (Part.isJson_alternative hq) hf)
  | property _ hc _ ihkey ihvalue =>
    obtain ⟨hk, hf⟩ := List.forall_mem_cons.mp hf
    obtain ⟨hkeeps, hf⟩ := List.forall_mem_cons.mp hf
    have hkey := ihkey trivial (List.forall_mem_singleton.mpr hk)
    rw [map_made f rfl, List.map_append, ← hk.line]
    exact .property hkey (hkeeps.separator _ hc) (ihvalue trivial hf)
  | keyed _ _ _ _ => exact hp.elim
  | @root t first ts ns hhead h ih =>
    have hmem : first ∈ ts := List.mem_of_mem_head? hhead
    rw [map_made f hp.groups, ← (hf first hmem).line]
    exact .root (by rw [List.head?_map, hhead]; rfl) (ih (Part.isJson_valueOf hp) hf)
  | braces hl _ hr ih =>
    obtain ⟨hopen, hf, hclose⟩ := forall_mem_enclosed.mp hf
    rw [map_made f hp.groups, ← hopen.line, List.map_cons, List.map_append]
    exact .braces (hopen.separator _ hl) (ih (Part.isJson_braces hp) hf)
      (hclose.separator _ hr)
  | brackets hl _ hr ih =>
    obtain ⟨hopen, hf, hclose⟩ := forall_mem_enclosed.mp hf
    rw [map_made f hp.groups, ← hopen.line, List.map_cons, List.map_append]
    exact .brackets (hopen.separator _ hl) (ih (Part.isJson_brackets hp) hf)
      (hclose.separator _ hr)
  | items _ _ ihfirst ihrest =>
    obtain ⟨hfirst, hrest⟩ := List.forall_mem_append.mp hf
    rw [List.map_append, List.map_append]
    exact .items (ihfirst hp.isJson hfirst) (ihrest hp hrest)
  | next hc _ ih =>
    obtain ⟨hcomma, hf⟩ := List.forall_mem_cons.mp hf
    exact .next (hcomma.separator _ hc) (ih hp.isJson hf)
  | last => exact .last
  | further _ _ ihnext ihrest =>
    obtain ⟨hnext, hrest⟩ := List.forall_mem_append.mp hf
    rw [List.map_append, List.map_append]
    exact .further (ihnext hp hnext) (ihrest hp hrest)
  | absent => exact .absent
  | present _ ih => exact .present (ih (Part.isJson_optional hp) hf)

/-! ## Generated grammars -/

section
variable {r : Registry C} {h : Handler C} {gg : GeneratedGrammar C}

/-- In the grammar of a root without children there are scalars, and so a test for `null`. -/
theorem reserves_null (hroots : r.roots = .ok [.node h []]) (hgg : r.generate = .ok gg) :
    gg.grammar.keywords.contains "null" = true := by
  obtain ⟨plan, hlaid, hentry, -⟩ := laidOut_of_generate hroots (List.cons_ne_nil _ _) hgg
  have hgeneric : (∃ id : RuleId, plan[id]? = some .generic) →
      ∃ id : RuleId, plan[id]? = some .scalar := by
    rintro ⟨id, hid⟩
    exact hlaid.exists_part hid (.tail _ (.tail _ (.head _)))
  obtain ⟨value, hvalue⟩ := hlaid.exists_part hentry (.head _)
  have hall : ∃ id : RuleId, plan[id]? = some .scalar := by
    unfold Part.valueOf at hvalue
    cases hmode : h.mode with
    | primary => exact ⟨value, by simpa [handler, hmode] using hvalue⟩
    | wrapper | object =>
      simp only [handler, hmode] at hvalue
      obtain ⟨items, hitems⟩ := hlaid.exists_part hvalue (.head _)
      obtain ⟨property, hproperty⟩ := hlaid.exists_part hitems (.head _)
      exact hgeneric (hlaid.exists_part hproperty (.tail _ (.head _)))
    | array =>
      simp only [handler, hmode] at hvalue
      obtain ⟨items, hitems⟩ := hlaid.exists_part hvalue (.head _)
      exact hgeneric (hlaid.exists_part hitems (.head _))
  obtain ⟨scalar, hscalar⟩ := hall
  obtain ⟨null, hnull⟩ : ∃ id : RuleId, plan[id]? = some (.token (.keyword "null")) :=
    hlaid.exists_part hscalar (.tail _ (.tail _ (.tail _ (.head _))))
  have hrule := hlaid.token_rule hnull
  obtain ⟨named, hnamed, hbody⟩ := Option.map_eq_some_iff.mp hrule
  obtain ⟨calls, entry, d, -, hbuild, -⟩ := grammar_transcript (grammar_of_generate hroots hgg)
  refine (Arena.keywords_of_build hbuild "null").mpr
    ⟨named, List.mem_of_getElem? hnamed, .keyword "null", ?_, List.mem_singleton_self _⟩
  rw [hbody]
  exact List.mem_singleton_self _

/-- The same tokens to come are given to a parse as the words reserved on its stream make them. -/
theorem input_reclassify {g : Grammar} {s s' : TokenStream} (hs : s.Classified)
    (hpending : s'.pending = s.pending) :
    (g.input s).map (reclassify (g.reserves s')) = g.input s' := by
  unfold Grammar.input
  rw [hpending, List.map_map]
  exact List.map_congr_left fun u hu =>
    reclassify_reserve (TokenStream.pending_isPlain hs u hu) (g.reserves s') (g.reserves s)

theorem input_keeps (hroots : r.roots = .ok [.node h []]) (hgg : r.generate = .ok gg)
    {s : TokenStream} (hs : s.Classified) (s' : TokenStream) :
    ∀ t ∈ gg.grammar.input s, Keeps C (reclassify (gg.grammar.reserves s')) t := by
  intro t ht
  obtain ⟨u, hu, rfl⟩ := List.mem_map.mp ht
  have hnull : gg.grammar.reserves s' "null" = true := by
    simp [Grammar.reserves, reserves_null hroots hgg]
  refine keeps_reclassify hnull fun hk => ?_
  have hsame : u.reserve (gg.grammar.reserves s) = u := reserve_of_kind_ne (by simp [hk])
  rw [hsame] at hk ⊢
  exact (TokenStream.pending_isPlain hs u hu).string_value hk

/-- What one stream has parsed, another one with the same tokens to come does too, whatever words
are reserved on it. -/
theorem parse_reclassified (hroots : r.roots = .ok [.node h []]) (hgg : r.generate = .ok gg)
    {s s' l : TokenStream} (hs : s.Classified) (hs' : s'.Classified)
    (hpending : s'.pending = s.pending) (hfaults : s'.faults = s.faults) {tree : ParseTree}
    (hparse : gg.grammar.parse s = .ok tree l) :
    ∃ tree' l', gg.grammar.parse s' = .ok tree' l' ∧ Related Token.Reclassified tree tree' := by
  obtain ⟨plan, hlaid, hentry, -⟩ := laidOut_of_generate hroots (List.cons_ne_nil _ _) hgg
  have hnone : s'.faults = [] := by
    rw [hfaults]
    exact Grammar.faults_of_outcome_ok hs (by rw [Grammar.outcome_of_parse_ok hparse])
  have hforms := (forms_of_parse hroots hgg hs hparse).map (Part.isJson_root h)
    (input_keeps hroots hgg hs s')
  rw [input_reclassify hs hpending] at hforms
  obtain ⟨tree', l', hparse'⟩ : ∃ tree' l', gg.grammar.parse s' = .ok tree' l' := by
    refine (hlaid.parse_iff hentry rfl hs' hnone).mpr ?_
    rw [Grammar.upcoming_prepared hs']
    exact hforms.phrase
  have hsame := hforms.unique (Part.isJson_root h) _ _ (forms_of_parse hroots hgg hs' hparse') rfl
  refine ⟨tree', l', hparse', ?_⟩
  rw [(List.cons.inj hsame).1]
  exact related_map (reclassified_reclassify (gg.grammar.reserves s')) tree

end

/-- The grammar of a root without children, whatever its mode, takes a source under all reserved
words or under none, be they reserved by the vocabulary or on the stream. The trees are the same but
for tokens that are reserved words in one, and strings or identifiers with the same text, word and
value in the other. -/
theorem reservation_irrelevant (r : Registry C) (h : Handler C)
    (hroots : r.roots = .ok [.node h []]) : ∃ gg, r.generate = .ok gg ∧
      ∀ (reserved reserved' ignored : WordSet) (words words' : List String) (bytes : List UInt8),
        let s := (TokenStream.ofBytes ⟨reserved, ignored⟩ bytes).reserveAll words
        let s' := (TokenStream.ofBytes ⟨reserved', ignored⟩ bytes).reserveAll words'
        ((∃ tree l, gg.grammar.parse s = .ok tree l) ↔
          ∃ tree' l', gg.grammar.parse s' = .ok tree' l') ∧
        ∀ tree tree' l l', gg.grammar.parse s = .ok tree l → gg.grammar.parse s' = .ok tree' l' →
          Related Token.Reclassified tree tree' := by
  obtain ⟨gg, -, hgg, -⟩ := generate_laidOut hroots (List.cons_ne_nil _ _)
  refine ⟨gg, hgg, ?_⟩
  intro reserved reserved' ignored words words' bytes s s'
  obtain ⟨hs, hpending, hfaults, -⟩ := TokenStream.reserveAll_spec
    (TokenStream.classified_ofLines ⟨reserved, ignored⟩ (Text.sourceLines bytes)) words
  obtain ⟨hs', hpending', hfaults', -⟩ := TokenStream.reserveAll_spec
    (TokenStream.classified_ofLines ⟨reserved', ignored⟩ (Text.sourceLines bytes)) words'
  have hsame : s'.pending = s.pending := hpending'.trans hpending.symm
  have hsamefaults : s'.faults = s.faults := hfaults'.trans hfaults.symm
  refine ⟨⟨?_, ?_⟩, ?_⟩
  · rintro ⟨tree, l, hparse⟩
    obtain ⟨tree', l', hparse', -⟩ := parse_reclassified hroots hgg hs hs' hsame hsamefaults hparse
    exact ⟨tree', l', hparse'⟩
  · rintro ⟨tree', l', hparse'⟩
    obtain ⟨tree, l, hparse, -⟩ :=
      parse_reclassified hroots hgg hs' hs hsame.symm hsamefaults.symm hparse'
    exact ⟨tree, l, hparse⟩
  · intro tree tree' l l' hparse hparse'
    obtain ⟨tree'', l'', hparse'', hrelated⟩ :=
      parse_reclassified hroots hgg hs hs' hsame hsamefaults hparse
    obtain ⟨rfl, -⟩ := EStateM.Result.ok.inj (hparse'.symm.trans hparse'')
    exact hrelated

open Registry in
theorem reservation_irrelevant_sample :
    listRegistry.roots = .ok [.node listHandler []] ∧ ∃ gg tree tree' l l',
    listRegistry.generate = .ok gg ∧
    gg.grammar.parse ((TokenStream.ofBytes .standard listSource).reserveAll []) = .ok tree l ∧
    gg.grammar.parse ((TokenStream.ofBytes .standard listSource).reserveAll ["a"]) = .ok tree' l' ∧
    Related Token.Reclassified tree tree' ∧ tree.tokens.map Token.kind = [.string] ∧
    tree'.tokens.map Token.kind = [.reserved] := by
  obtain ⟨gg, hgg, h⟩ := reservation_irrelevant listRegistry listHandler listRegistry_roots
  obtain ⟨l, hparse⟩ := leaf?_eq_some hgg
    ((TokenStream.ofBytes .standard listSource).reserveAll [])
    (some "list") ⟨.string, 1, "\"a\"", .text "a"⟩ (by decide +kernel)
  obtain ⟨l', hparse'⟩ := leaf?_eq_some hgg
    ((TokenStream.ofBytes .standard listSource).reserveAll ["a"])
    (some "list") ⟨.reserved, 1, "\"a\"", .text "a"⟩ (by decide +kernel)
  have hrelated := (h Vocabulary.standard.reserved Vocabulary.standard.reserved
    Vocabulary.standard.ignored [] ["a"] listSource).2 _ _ _ _ hparse hparse'
  exact ⟨listRegistry_roots, gg, _, _, l, l', hgg, hparse, hparse', hrelated, rfl, rfl⟩

end HandlerGrammar
