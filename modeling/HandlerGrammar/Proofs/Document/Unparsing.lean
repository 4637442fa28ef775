import HandlerGrammar.Proofs.Document.GenericJson
import HandlerGrammar.Proofs.Parsing.Session
import HandlerGrammar.Proofs.Tree.Mapping

/-! # Writing generic JSON back

The tree of a generic JSON text leaves out its braces, brackets, colons and commas, and the array
around a lone scalar. They can all be told from the labels: writing the tree back gives the tokens
that were parsed, but for the lines on which they stood.

* `Token.eraseLine`, `ParseTree.eraseLines`: tokens and trees without lines;
* `ParseTree.written`: the tokens of a generic value or property, `written_labeled`: a labelled leaf
  is written like a branch with that leaf in it;
* `ParseTree.writtenAs`: the tokens of a node whose label does not say how it is written;
* `Part.spell`: how a part is written, from what is written inside it;
* `Forms.written`: a reading of tokens is written back as these tokens;
* `tokens_determined`: trees that differ in lines only have been parsed from such tokens. -/
namespace HandlerGrammar
open HandlerTree ParseTree
set_option autoImplicit false

/-! ## Tokens without lines -/

namespace Token

def eraseLine (t : Token) : Token := { t with line := 0 }

/-- A separator without its line. -/
def mark (text : String) : Token := ⟨.separator, 0, text, .absent⟩

theorem eraseLine_of_accepts {text : String} {t : Token}
    (h : (Terminal.separator text).accepts t = true)
    (hbare : t.kind = .separator → t.value = .absent) : t.eraseLine = mark text := by
  simp only [Terminal.accepts, Bool.and_eq_true, beq_iff_eq] at h
  obtain ⟨hkind, htext⟩ := h
  simp only [eraseLine, mark, hkind, htext, hbare hkind]

end Token

open Token

/-- Items between delimiters, with commas between them. -/
def enclosed (opening closing : String) (items : List (List Token)) : List Token :=
  mark opening :: ([mark ","].intercalate items ++ [mark closing])

theorem intercalate_cons {α : Type} (x : α) (ys : List α) (zs : List (List α)) :
    [x].intercalate (ys :: zs) = ys ++ zs.flatMap (x :: ·) := by
  induction zs generalizing ys with
  | nil => simp
  | cons z zs ih => rw [List.intercalate_cons_cons, ih, List.flatMap_cons, List.append_assoc]; rfl

/-! ## Trees as tokens -/

namespace ParseTree

def eraseLines : ParseTree → ParseTree := map eraseLine fun _ => 0

/-- What a node with the label stands for, from what its children stand for. -/
def spelled (label : Option String) (parts : List (List Token)) : List Token :=
  if label = some objectLabel then enclosed "\x7b" "\x7d" parts
  else if label = some arrayLabel then enclosed "[" "]" parts
  else if label = some propertyLabel then [mark ":"].intercalate parts
  else parts.flatten

@[simp] theorem spelled_object (parts : List (List Token)) :
    spelled (some objectLabel) parts = enclosed "\x7b" "\x7d" parts := if_pos rfl

@[simp] theorem spelled_array (parts : List (List Token)) :
    spelled (some arrayLabel) parts = enclosed "[" "]" parts := by
  rw [spelled, if_neg (by decide), if_pos rfl]

@[simp] theorem spelled_property (parts : List (List Token)) :
    spelled (some propertyLabel) parts = [mark ":"].intercalate parts := by
  rw [spelled, if_neg (by decide), if_neg (by decide), if_pos rfl]

/-- The tokens of a generic value or property, without their lines. -/
def written : ParseTree → List Token :=
  fold (fun label t => spelled label [[t.eraseLine]]) fun label _ parts => spelled label parts

/-- The tokens of a node of which `spell` tells how it is written. -/
def writtenAs (spell : List (List Token) → List Token) : ParseTree → List Token
  | leaf _ t => spell [[t.eraseLine]]
  | branch _ _ children => spell (children.map written)

@[simp] theorem written_leaf (t : Token) : (leaf none t).written = [t.eraseLine] := rfl

theorem written_branch (label : Option String) (line : Nat) (children : List ParseTree) :
    (branch label line children).written = spelled label (children.map written) := by
  rw [written, fold, foldAll_eq_map]

theorem writtenAs_labeled (spell : List (List Token) → List Token) (label : String) (line : Nat)
    (nodes : List ParseTree) : (labeled label line nodes).writtenAs spell = spell (nodes.map written) := by
  unfold labeled
  split <;> rfl

/-- A labelled leaf is written like a branch with the leaf in it. -/
theorem written_labeled (label : String) (line : Nat) (nodes : List ParseTree) :
    (labeled label line nodes).written = spelled (some label) (nodes.map written) := by
  unfold labeled
  split
  · rfl
  · exact written_branch _ _ _

theorem written_eraseLines (tree : ParseTree) : tree.eraseLines.written = tree.written :=
  fold_map _ _ _ _ tree

theorem writtenAs_eraseLines (spell : List (List Token) → List Token) (tree : ParseTree) :
    tree.eraseLines.writtenAs spell = tree.writtenAs spell := by
  cases tree with
  | leaf label t => rfl
  | branch label line children =>
    rw [eraseLines, map_branch]
    change spell ((children.map eraseLines).map written) = _
    rw [List.map_map]
    exact congrArg spell (List.map_congr_left fun t _ => written_eraseLines t)

end ParseTree

/-! ## Parts as tokens -/

variable {C : Type}

namespace Part

/-- How a part is written, from what is written inside it. -/
def spell : Part C → List (List Token) → List Token
  | property => [mark ":"].intercalate
  | braces _ _ _ => enclosed "\x7b" "\x7d"
  | brackets _ _ => enclosed "[" "]"
  | items _ | optional _ => [mark ","].intercalate
  | next _ => fun parts => mark "," :: parts.flatten
  | rest _ => List.flatMap (mark "," :: ·)
  | _ => List.flatten

/-- How the nodes of a part are written. The label of a root is the name of its handler and does not
tell that. -/
def written (p : Part C) (ns : List ParseTree) : List Token :=
  match p with
  | root t => ns.flatMap (writtenAs (valueOf t).spell)
  | p => if p.label?.isSome then ns.flatMap ParseTree.written else p.spell (ns.map ParseTree.written)

theorem written_of_entry {p : Part C} (h : p.IsEntry) (ns : List ParseTree) :
    p.written ns = ns.flatMap ParseTree.written := by
  rcases h with rfl | rfl <;> rfl

theorem written_valueOf (t : HandlerTree C) (ns : List ParseTree) :
    (valueOf t).written ns = (valueOf t).spell (ns.map ParseTree.written) := by
  unfold valueOf
  cases t.handler.mode <;> rfl

end Part

theorem Forms.single_next {p : Part C} (hp : p.IsEntry) {ts : List Token} {ns : List ParseTree}
    (h : Forms (.next p) ts ns) : ∃ n, ns = [n] := by
  cases h with
  | choice hq _ => cases hq
  | next _ h => exact h.single hp

/-- Labels and delimiters agree: a part is written around what it holds, whether its nodes stand
under a label or not. -/
theorem written_made {p : Part C} (hp : p.IsJson) (hroot : ∀ t, p ≠ .root t) (line : Nat)
    (ns : List ParseTree) : p.written (p.made line ns) = p.spell (ns.map ParseTree.written) := by
  have hsingle : ∀ label : String, [labeled label line ns].flatMap ParseTree.written =
      spelled (some label) (ns.map ParseTree.written) := by
    intro label
    rw [List.flatMap_singleton, written_labeled]
  rw [Part.made, hp.groups]
  cases p with
  | property => exact (hsingle _).trans (spelled_property _)
  | braces label? groups q =>
    rcases hp.1 with rfl | rfl
    · rfl
    · exact (hsingle _).trans (spelled_object _)
  | brackets label? q =>
    rcases hp.1 with rfl | rfl
    · rfl
    · exact (hsingle _).trans (spelled_array _)
  | root t => exact absurd rfl (hroot t)
  | keyed t => exact hp.elim
  | _ => rfl

/-- The nodes of generic JSON are written as the tokens of which they were made. -/
theorem Forms.written {p : Part C} (hp : p.IsJson) {ts : List Token} {ns : List ParseTree}
    (h : Forms p ts ns) (hbare : ∀ t ∈ ts, t.kind = .separator → t.value = .absent) :
    ts.map eraseLine = p.written ns := by
  induction h with
  | token _ _ => exact hp.elim
  | @choice p q ts ns hq h ih =>
    rcases hp.of_alternatives hq with hleaf | rfl
    · obtain ⟨t, rfl, rfl, -⟩ := (Forms.choice hq h).leaf hleaf
      rcases hleaf with rfl | rfl <;> rfl
    · rw [ih (Part.isJson_alternative hq) hbare]
      simp only [Part.alternatives, List.mem_cons, List.not_mem_nil, or_false] at hq
      rcases hq with rfl | rfl | rfl <;> rfl
  | @property k c ts ns ms hkey hc hvalue ihkey ihvalue =>
    obtain ⟨-, hbare⟩ := List.forall_mem_cons.mp hbare
    obtain ⟨hcolon, hbare⟩ := List.forall_mem_cons.mp hbare
    obtain ⟨k', hk', rfl, -⟩ := hkey.leaf (Or.inl rfl)
    obtain rfl := (List.cons.inj hk').1
    obtain ⟨m, rfl⟩ := hvalue.single (Or.inr rfl)
    have hvalue : ts.map eraseLine = m.written :=
      (ihvalue trivial hbare).trans (List.flatMap_singleton _ _)
    rw [written_made hp (by simp), List.map_cons, List.map_cons,
      eraseLine_of_accepts hc hcolon, hvalue]
    simp [Part.spell, List.intercalate_cons_cons]
  | keyed _ _ _ _ => exact hp.elim
  | @root t first ts ns _ h ih =>
    rw [ih (Part.isJson_valueOf hp) hbare, Part.written_valueOf, Part.made_of_label rfl]
    exact ((List.flatMap_singleton _ _).trans (writtenAs_labeled _ _ _ _)).symm
  | braces hl _ hr ih =>
    obtain ⟨hopen, hbare, hclose⟩ := forall_mem_enclosed.mp hbare
    rw [written_made hp (by simp), List.map_cons, List.map_append,
      ih (Part.isJson_braces hp) hbare, eraseLine_of_accepts hl hopen, List.map_singleton,
      eraseLine_of_accepts hr hclose]
    rfl
  | brackets hl _ hr ih =>
    obtain ⟨hopen, hbare, hclose⟩ := forall_mem_enclosed.mp hbare
    rw [written_made hp (by simp), List.map_cons, List.map_append,
      ih (Part.isJson_brackets hp) hbare, eraseLine_of_accepts hl hopen, List.map_singleton,
      eraseLine_of_accepts hr hclose]
    rfl
  | items hfirst _ ihfirst ihrest =>
    obtain ⟨hfore, haft⟩ := List.forall_mem_append.mp hbare
    obtain ⟨n, rfl⟩ := hfirst.single hp
    rw [List.map_append, ihfirst hp.isJson hfore, ihrest hp haft, Part.written_of_entry hp]
    exact (congrArg (· ++ _) (List.flatMap_singleton _ _)).trans (intercalate_cons _ _ _).symm
  | next hc h ih =>
    obtain ⟨hcomma, hbare⟩ := List.forall_mem_cons.mp hbare
    rw [List.map_cons, eraseLine_of_accepts hc hcomma, ih hp.isJson hbare, Part.written_of_entry hp]
    rfl
  | last => rfl
  | further hnext _ ihnext ihrest =>
    obtain ⟨hfore, haft⟩ := List.forall_mem_append.mp hbare
    obtain ⟨n, rfl⟩ := hnext.single_next hp
    rw [List.map_append, ihnext hp hfore, ihrest hp haft]
    simp [Part.written, Part.label?, Part.spell]
  | absent => rfl
  | present _ ih =>
    rw [ih (Part.isJson_optional hp) hbare]
    obtain ⟨q, rfl, -⟩ := hp
    rfl

/-! ## Parses -/

section
variable {r : Registry C} {h : Handler C} {gg : GeneratedGrammar C}

/-- The input of a parse is what its tree is written as, with a root written as its mode asks. -/
theorem input_written (hroots : r.roots = .ok [.node h []]) (hgg : r.generate = .ok gg)
    {s l : TokenStream} (hs : s.Classified) {tree : ParseTree}
    (hparse : gg.grammar.parse s = .ok tree l) :
    (gg.grammar.input s).map eraseLine = tree.writtenAs (Part.valueOf (.node h [])).spell := by
  have hforms := forms_of_parse hroots hgg hs hparse
  rw [hforms.written (Part.isJson_root h)]
  · exact List.flatMap_singleton _ _
  · intro t ht
    obtain ⟨plain, hplain, rfl⟩ := List.mem_map.mp ht
    intro hk
    have hsame : plain.reserve (gg.grammar.reserves s) = plain := reserve_of_kind_ne (by simp [hk])
    rw [hsame] at hk ⊢
    exact (TokenStream.pending_isPlain hs plain hplain).separator_value hk

end

/-- With the grammar of a root without children, whatever its mode, sources with the same tree but
for lines have the same tokens but for lines. What has been asked of the streams before, reserving
words among it, makes no difference. -/
theorem tokens_determined (r : Registry C) (h : Handler C) (hroots : r.roots = .ok [.node h []]) :
    ∃ gg, r.generate = .ok gg ∧
      ∀ (v v' : Vocabulary) (bytes bytes' : List UInt8) (before before' : List Request)
        (tree tree' : ParseTree) (l l' : TokenStream),
        let s := (attend before (.ofBytes v bytes)).2
        let s' := (attend before' (.ofBytes v' bytes')).2
        gg.grammar.parse s = .ok tree l → gg.grammar.parse s' = .ok tree' l' →
          tree.eraseLines = tree'.eraseLines →
          (gg.grammar.input s).map eraseLine = (gg.grammar.input s').map eraseLine := by
  obtain ⟨gg, -, hgg, -⟩ := generate_laidOut hroots (List.cons_ne_nil _ _)
  refine ⟨gg, hgg, ?_⟩
  intro v v' bytes bytes' before before' tree tree' l l' s s' hparse hparse' hsame
  have hs : s.Classified := classified_attend v bytes before
  have hs' : s'.Classified := classified_attend v' bytes' before'
  calc (gg.grammar.input s).map eraseLine
      = tree.writtenAs (Part.valueOf (.node h [])).spell := input_written hroots hgg hs hparse
    _ = tree'.writtenAs (Part.valueOf (.node h [])).spell := by
        rw [← writtenAs_eraseLines, hsame, writtenAs_eraseLines]
    _ = (gg.grammar.input s').map eraseLine := (input_written hroots hgg hs' hparse').symm

/-- The text `["a"]` with a line break after the opening bracket. -/
def brokenListSource : List UInt8 := [91, 10, 34, 97, 34, 93]

open Registry in
theorem tokens_determined_sample :
    listRegistry.roots = .ok [.node listHandler []] ∧ ∃ gg tree tree' l l',
    let s := (attend [] (.ofBytes .standard listSource)).2
    let s' := (attend [] (.ofBytes .standard brokenListSource)).2
    listRegistry.generate = .ok gg ∧ gg.grammar.parse s = .ok tree l ∧
    gg.grammar.parse s' = .ok tree' l' ∧ tree.eraseLines = tree'.eraseLines ∧
    (gg.grammar.input s).map eraseLine = (gg.grammar.input s').map eraseLine ∧
    tree.label = some "list" ∧ (gg.grammar.input s).length = 3 := by
  obtain ⟨gg, hgg, h⟩ := tokens_determined listRegistry listHandler listRegistry_roots
  obtain ⟨l, hparse⟩ := leaf?_eq_some hgg (attend [] (.ofBytes .standard listSource)).2
    (some "list") ⟨.string, 1, "\"a\"", .text "a"⟩ (by decide +kernel)
  obtain ⟨l', hparse'⟩ := leaf?_eq_some hgg (attend [] (.ofBytes .standard brokenListSource)).2
    (some "list") ⟨.string, 2, "\"a\"", .text "a"⟩ (by decide +kernel)
  have hsame := h .standard .standard listSource brokenListSource [] [] _ _ l l' hparse hparse' rfl
  refine ⟨listRegistry_roots, gg, _, _, l, l', hgg, hparse, hparse', rfl, hsame, rfl, ?_⟩
  rw [Grammar.input, List.length_map]
  decide +kernel

end HandlerGrammar
