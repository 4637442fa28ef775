import HandlerGrammar.Proofs.Parsing.Conservation
import HandlerGrammar.Proofs.Parsing.LineOrder
import HandlerGrammar.Proofs.Transform.Folding

/-! # The lines on which nodes start

A labelled node of a parse tree is the node of a labelled rule, or one under which a rule regroups
others, and once made it stays in the tree. As a branch it starts with the first token of the rule.
But where a rule has a single leaf, that leaf takes the label, and it starts with its own token, which
may stand behind separators on a later line.

* `mem_postorderAll_ruleNodes`, `mem_postorderAll_gather`: labelled nodes stay;
* `Derivation.Regroups`, `mem_assemble`: where labelled nodes come from;
* `Derives.line_of_labeled`: the line of the node of a rule;
* `start_line`: nodes and failing handlers of a parse tree;
* `leaf_behind_separator`: a node that starts behind its rule. -/
namespace HandlerGrammar
open ParseTree Derivation
set_option autoImplicit false

namespace ParseTree

theorem mem_postorderAll {ts : List ParseTree} {u : ParseTree} :
    u ∈ postorderAll ts ↔ ∃ t ∈ ts, u ∈ t.postorder := by
  induction ts with
  | nil => simp [postorderAll]
  | cons t ts ih => simp [postorderAll, ih]

theorem mem_postorderAll_append {ts us : List ParseTree} {u : ParseTree} :
    u ∈ postorderAll (ts ++ us) ↔ u ∈ postorderAll ts ∨ u ∈ postorderAll us := by
  simp only [mem_postorderAll, List.mem_append, or_and_right, exists_or]

section
variable {n : ParseTree} (hn : n.label ≠ none) (line : Nat) (nodes : List ParseTree)
include hn

theorem mem_postorder_labeled (label : String) : n ∈ (labeled label line nodes).postorder ↔
    n = labeled label line nodes ∨ n ∈ postorderAll nodes := by
  unfold labeled
  split
  · next t =>
    have hleaf : n ≠ leaf none t := fun h => hn (congrArg ParseTree.label h)
    simp [postorder, postorderAll, hleaf]
  · simp [postorder, or_comm]

theorem mem_postorder_treeOf :
    n ∈ (Grammar.treeOf line nodes).postorder ↔ n ∈ postorderAll nodes := by
  unfold Grammar.treeOf
  split
  · simp [postorderAll]
  · have hroot : n ≠ branch none line nodes := fun h => hn (congrArg ParseTree.label h)
    simp [postorder, hroot]

/-- What is labelled in the nodes of a rule is the node that the rule makes, or was there before. -/
theorem mem_postorderAll_ruleNodes (body : Rule) :
    n ∈ postorderAll (Grammar.ruleNodes body line nodes) ↔
      body.label?.isSome ∧ Grammar.ruleNodes body line nodes = [n] ∨ n ∈ postorderAll nodes := by
  unfold Grammar.ruleNodes
  split
  · next label hlabel => simp [postorderAll, mem_postorder_labeled hn, hlabel, eq_comm]
  · next hlabel => simp [hlabel]

end

theorem mem_postorderAll_gather {n : ParseTree} (label : String) (members : List String)
    (line : Nat) (nodes : List ParseTree) : n ∈ postorderAll (gather label members line nodes) ↔
      n = group label members line nodes ∨ n ∈ postorderAll nodes := by
  have hgroup : n ∈ (group label members line nodes).postorder ↔
      n = group label members line nodes ∨
        n ∈ postorderAll (nodes.filter (isMember members)) := by
    change n ∈ postorderAll (nodes.filter (isMember members)) ++ [group label members line nodes] ↔ _
    simp [or_comm]
  simp only [mem_postorderAll, List.mem_filter] at hgroup ⊢
  constructor
  · rintro ⟨t, ht, hnt⟩
    rcases (mem_gather label members line nodes).mp ht with rfl | ⟨ht, -⟩
    · rcases hgroup.mp hnt with h | ⟨t, ⟨ht, -⟩, hnt⟩
      · exact Or.inl h
      · exact Or.inr ⟨t, ht, hnt⟩
    · exact Or.inr ⟨t, ht, hnt⟩
  · rintro (rfl | ⟨t, ht, hnt⟩)
    · exact ⟨_, (mem_gather label members line nodes).mpr (Or.inl rfl), hgroup.mpr (Or.inl rfl)⟩
    · cases hmember : isMember members t with
      | false => exact ⟨t, (mem_gather label members line nodes).mpr (Or.inr ⟨ht, hmember⟩), hnt⟩
      | true =>
        exact ⟨_, (mem_gather label members line nodes).mpr (Or.inl rfl),
          hgroup.mpr (Or.inr ⟨t, ⟨ht, hmember⟩, hnt⟩)⟩

end ParseTree

/-! ## Where labelled nodes come from -/

namespace Derivation

/-- The label of the rule that was matched. -/
def label? : Derivation → Option String
  | rule _ body _ _ => body.label?
  | _ => none

/-- The node is made by regrouping the nodes that the parts before have given to a rule that begins
on `line` and had some nodes already. -/
def RegroupsFrom (line : Nat) (nodes : List ParseTree) (parts : List Derivation) (n : ParseTree) :
    Prop :=
  ∃ before label members after, parts = before ++ gather label members :: after ∧
    n = group label members line (assemble line before nodes)

/-- The node is one under which the rule regroups others. -/
def Regroups : Derivation → ParseTree → Prop
  | rule _ _ line parts, n => RegroupsFrom line [] parts n
  | _, _ => False

/-- The node is the one of the rule, or one under which it regroups others. -/
def Makes (d : Derivation) (n : ParseTree) : Prop :=
  d.label?.isSome ∧ d.nodes = [n] ∨ d.Regroups n

theorem regroupsFrom_nil {line : Nat} {nodes : List ParseTree} {n : ParseTree} :
    ¬ RegroupsFrom line nodes [] n := by
  rintro ⟨before, label, members, after, h, -⟩
  cases before <;> cases h

theorem regroupsFrom_cons {line : Nat} {nodes : List ParseTree} {d : Derivation}
    {ds : List Derivation} {n : ParseTree} : RegroupsFrom line nodes (d :: ds) n ↔
      (∃ label members, d = gather label members ∧ n = group label members line nodes) ∨
        RegroupsFrom line (extend line d nodes) ds n := by
  constructor
  · rintro ⟨before, label, members, after, h, rfl⟩
    cases before with
    | nil =>
      obtain ⟨rfl, rfl⟩ := List.cons.inj h
      exact Or.inl ⟨label, members, rfl, rfl⟩
    | cons d' before =>
      obtain ⟨rfl, rfl⟩ := List.cons.inj h
      exact Or.inr ⟨before, label, members, after, rfl, rfl⟩
  · rintro (⟨label, members, rfl, rfl⟩ | ⟨before, label, members, after, rfl, rfl⟩)
    · exact ⟨[], label, members, ds, rfl, rfl⟩
    · exact ⟨d :: before, label, members, after, rfl, rfl⟩

mutual
/-- A part leaves the labelled nodes there are and adds those that it makes. -/
theorem mem_extend {n : ParseTree} (hn : n.label ≠ none) (line : Nat) (d : Derivation)
    (nodes : List ParseTree) : n ∈ postorderAll (extend line d nodes) ↔
      n ∈ postorderAll nodes ∨ (∃ i ∈ d.instances, i.Makes n) ∨
        ∃ label members, d = gather label members ∧ n = group label members line nodes := by
  match d with
  | token x t =>
    have hleaf : n ∉ postorderAll (if x.isKept then [leaf none t] else []) := by
      intro hmem
      obtain ⟨u, hu, hmem⟩ := mem_postorderAll.mp hmem
      split at hu
      · obtain rfl := List.mem_singleton.mp hu
        exact hn (congrArg ParseTree.label (List.mem_singleton.mp hmem))
      · cases hu
    simp [extend, instances, mem_postorderAll_append, hleaf]
  | gather label members =>
    simp only [extend, mem_postorderAll_gather, instances]
    simp [or_comm]
  | rule id body start parts =>
    have hparts := mem_assemble hn start parts []
    have hself : (rule id body start parts).Makes n ↔
        body.label?.isSome ∧ Grammar.ruleNodes body start (assemble start parts []) = [n] ∨
          RegroupsFrom start [] parts n := Iff.rfl
    simp only [extend, mem_postorderAll_append, mem_postorderAll_ruleNodes hn, hparts, instances,
      List.exists_mem_cons_iff, hself]
    simp [postorderAll, or_comm, or_assoc, or_left_comm]

theorem mem_assemble {n : ParseTree} (hn : n.label ≠ none) (line : Nat) (ds : List Derivation)
    (nodes : List ParseTree) : n ∈ postorderAll (assemble line ds nodes) ↔
      n ∈ postorderAll nodes ∨ (∃ i ∈ instancesOf ds, i.Makes n) ∨ RegroupsFrom line nodes ds n := by
  match ds with
  | [] => simp [assemble, instancesOf, regroupsFrom_nil]
  | d :: ds =>
    have hd := mem_extend hn line d nodes
    have hds := mem_assemble hn line ds (extend line d nodes)
    rw [assemble, hds, hd, regroupsFrom_cons]
    simp only [instancesOf, List.mem_append, or_and_right, exists_or]
    simp only [or_assoc, or_left_comm]
end

/-- The nodes of a parse tree that carry labels are those that the rules matched make. -/
theorem mem_postorder_tree {n : ParseTree} (hn : n.label ≠ none) {line : Nat} {id : RuleId}
    {body : Rule} {start : Nat} {parts : List Derivation} :
    let d := rule id body start parts
    n ∈ (Grammar.treeOf line d.nodes).postorder ↔ ∃ i ∈ d.instances, i.Makes n := by
  intro d
  have hnodes : d.nodes = extend line d [] := (List.nil_append _).symm
  rw [mem_postorder_treeOf hn, hnodes, mem_extend hn]
  simp [postorderAll, d]

theorem label?_of_nodes {i : Derivation} {n : ParseTree} (hlabel : i.label?.isSome)
    (hnodes : i.nodes = [n]) : i.label? = n.label := by
  match i with
  | token _ _ | gather _ _ => cases hlabel
  | rule id body line parts =>
    obtain ⟨label, hbody⟩ := Option.isSome_iff_exists.mp hlabel
    change body.label? = some label at hbody
    simp only [Derivation.nodes, Grammar.ruleNodes, hbody, List.cons.injEq, and_true] at hnodes
    rw [← hnodes, label_labeled]
    exact hbody

end Derivation

/-! ## The line of a node -/

/-- The node of a labelled rule starts on the line of the first token, unless it is a leaf behind a
separator. -/
theorem Derives.line_of_labeled {g : Grammar} {toks : Nat → Token} {steps : List Step}
    {parts : List Derivation} {a b : Nat} (h : Derives g toks steps parts a b) (label : String)
    {t : Token} (ht : (tokensOf parts).head? = some t) :
    let n := labeled label (toks a).line (Derivation.assemble (toks a).line parts [])
    n.line = t.line ∨
      t.kind = .separator ∧ ∃ t', n = leaf (some label) t' ∧ keptOf parts = [t'] := by
  intro n
  obtain ⟨rest, htokens⟩ : ∃ rest, tokensOf parts = t :: rest := by
    cases hparts : tokensOf parts with
    | nil => rw [hparts] at ht; cases ht
    | cons u rest =>
      rw [hparts] at ht
      exact ⟨rest, by rw [Option.some.inj ht]⟩
  have hfirst : toks a = t := by
    have hreads := h.reads.1
    rw [htokens] at hreads
    exact hreads.1
  have hperm := h.tokens_assemble (toks a).line []
  -- only the node of a lone leaf carries another line than that on which the rule begins
  unfold n labeled
  split
  · next t' hlone =>
    rw [hlone] at hperm
    have hkept : keptOf parts = [t'] := (List.singleton_perm.mp hperm).symm
    by_cases hsep : t.kind = .separator
    · exact Or.inr ⟨hsep, t', rfl, hkept⟩
    · left
      rw [h.keptOf_eq, htokens, List.filter_cons_of_pos (by simpa using hsep)] at hkept
      rw [(List.cons.inj hkept).1]
      rfl
  · left
    rw [← hfirst]
    rfl

/-- Whatever has been asked of a stream before, in the tree of a parse that succeeds each labelled
rule that took tokens has its node. It starts no earlier than the first of these tokens, and on
its line unless that is a separator and the node is a leaf, that of the only token taken that is no
separator. A handler that fails is put down to the line of such a node, or of one under which a rule
regroups others. -/
theorem start_line (g : Grammar) (v : Vocabulary) (bytes : List UInt8) (before : List Request)
    {tree : ParseTree} {s' : TokenStream}
    (h : g.parse (attend before (.ofBytes v bytes)).2 = .ok tree s') :
    let s := (attend before (.ofBytes v bytes)).2
    let taken := s.pending.map (Token.reserve fun w => s.isReserved w || g.keywords.contains w)
    let shown := fun k => taken[k]?.getD (.eof (max s.lastLine 1))
    ∃ d, Derives g shown [.rule g.entry] [d] 0 taken.length ∧ d.tokens = taken ∧
      tree = Grammar.treeOf (shown 0).line d.nodes ∧
      (∀ i ∈ d.instances, ∀ label t, i.label? = some label → i.tokens.head? = some t →
        ∃ n path, i.nodes = [n] ∧ Occurs [tree] path n ∧ n.label = some label ∧ t.line ≤ n.line ∧
          (n.line = t.line ∨
            t.kind = .separator ∧ ∃ t', n = leaf (some label) t' ∧ i.kept = [t'])) ∧
      ∀ (C : Type) (table : HandlerTable C) c e c', table.transform tree c = .error e c' →
        ∃ n path, Occurs [tree] path n ∧ n.label = some e.name ∧ n.line = e.line ∧
          ((∃ i ∈ d.instances, i.label? = some e.name ∧ i.nodes = [n]) ∨
            ∃ i ∈ d.instances, i.Regroups n) := by
  intro s taken shown
  obtain ⟨-, d, hd, htokens, rfl⟩ := Grammar.parse_taken (classified_attend v bytes before) h
  have hascend : LinesAscend d.tokens := by
    rw [htokens]
    exact (linesAscend_attend v bytes before).reserve _
  have htree : ∀ {n : ParseTree}, n.label ≠ none →
      ((∃ path, Occurs [Grammar.treeOf (shown 0).line d.nodes] path n) ↔
        ∃ i ∈ d.instances, i.Makes n) := by
    intro n hn
    rw [← mem_postorder]
    cases hd with
    | rule _ _ hnil => exact mem_postorder_tree hn
  refine ⟨d, hd, htokens, rfl, ?_, ?_⟩
  · intro i hi label t hlabel ht
    obtain ⟨id, body, parts, a, b, rfl, -, hparts⟩ :=
      hd.of_instance i (List.mem_append_left _ hi)
    have hbody : body.label? = some label := hlabel
    have hnodes : (rule id body (shown a).line parts).nodes =
        [labeled label (shown a).line (assemble (shown a).line parts [])] := by
      simp [Derivation.nodes, Grammar.ruleNodes, hbody]
    have hn := label_labeled label (shown a).line (assemble (shown a).line parts [])
    obtain ⟨path, hoccurs⟩ := (htree (by rw [hn]; simp)).mpr
      ⟨_, hi, Or.inl ⟨by rw [hlabel]; rfl, hnodes⟩⟩
    have hline := hparts.line_of_labeled label ht
    refine ⟨_, path, hnodes, hoccurs, hn, ?_, hline⟩
    rcases hline with hline | ⟨-, t', hleaf, hkept⟩
    · exact Nat.le_of_eq hline.symm
    · have hmem : t' ∈ tokensOf parts := by
        have hmem : t' ∈ keptOf parts := by
          rw [hkept]
          exact List.mem_singleton_self t'
        rw [hparts.keptOf_eq] at hmem
        exact (List.mem_filter.mp hmem).1
      rw [hleaf]
      exact (hascend.sublist (isInfix_tokens hi).sublist).head_le ht t' hmem
  · intro C table c e c' herror
    rw [table.transform_eq_foldlM, Visit.foldlM_eq_error] at herror
    obtain ⟨earlier, v, later, reached, hvisits, -, -, hname, hline⟩ := herror
    have hv : v ∈ table.visits (Grammar.treeOf (shown 0).line d.nodes) := by
      rw [hvisits]
      exact List.mem_append_right _ (List.mem_cons_self ..)
    obtain ⟨hoccurs, hlabel, -⟩ := table.mem_visits.mp hv
    rw [← hname] at hlabel
    have hn : v.node.label ≠ none := by
      rw [hlabel]
      exact Option.some_ne_none _
    obtain ⟨i, hi, hmakes⟩ := (htree hn).mp hoccurs
    obtain ⟨path, hpath⟩ := hoccurs
    refine ⟨v.node, path, hpath, hlabel, hline.symm, hmakes.imp ?_ fun h => ⟨i, hi, h⟩⟩
    rintro ⟨hsome, hnodes⟩
    exact ⟨i, hi, (label?_of_nodes hsome hnodes).trans hlabel, hnodes⟩

/-! ## A leaf behind a separator -/

/-- A number in parentheses. -/
def groupGrammar : Grammar where
  rules := [⟨"group", .labeled "group" [.separator "(", .token .number, .separator ")"]⟩]
  entry := 0
  keywords := WordSet.ofList []

/-- The arena calls that build it. -/
def groupArena : Arena :=
  (Arena.empty.add (.labeled "group" [.separator "(", .token .number, .separator ")"])).2

/-- The opening parenthesis on the first line, `1)` on the second. -/
def groupSource : List UInt8 := [40, 10, 49, 41]

/-- A handler that refuses all groups. -/
def refusingTable : HandlerTable Unit := .ofList [("group", fun _ => throw "refused")]

theorem groupGrammar_parse : ∃ s', groupGrammar.parse (attend [] (.ofBytes .standard groupSource)).2 =
    .ok (leaf (some "group") ⟨.integer, 2, "1", .integer 1⟩) s' := by
  obtain ⟨tree, hparse⟩ := groupGrammar.parse_of_isOk
    (s := (attend [] (.ofBytes .standard groupSource)).2) (by decide +kernel)
  have hleaf : (groupGrammar.outcome (attend [] (.ofBytes .standard groupSource)).2).1.map
      (fun t => (t.label, t.token?)) =
        .ok (some "group", some ⟨.integer, 2, "1", .integer 1⟩) := by decide +kernel
  rw [Grammar.outcome_of_parse_ok hparse] at hleaf
  cases tree with
  | leaf label t =>
    obtain ⟨rfl, ht⟩ := Prod.mk.inj (Except.ok.inj hleaf)
    obtain rfl := Option.some.inj ht
    exact ⟨_, hparse⟩
  | branch label line children => cases (Prod.mk.inj (Except.ok.inj hleaf)).2

/-- The refused group is put down to the second line, on which a node with its label starts. -/
theorem start_line_sample : ∃ tree s',
    groupGrammar.parse (attend [] (.ofBytes .standard groupSource)).2 = .ok tree s' ∧
    refusingTable.transform tree () = .error ⟨"group", 2, "refused"⟩ () ∧
    ∃ n path, Occurs [tree] path n ∧ n.label = some "group" ∧ n.line = 2 := by
  obtain ⟨s', hparse⟩ := groupGrammar_parse
  obtain ⟨d, -, -, -, -, hfails⟩ := start_line groupGrammar .standard groupSource [] hparse
  have herror : refusingTable.transform (leaf (some "group") ⟨.integer, 2, "1", .integer 1⟩) () =
      .error ⟨"group", 2, "refused"⟩ () := rfl
  obtain ⟨n, path, hn, hlabel, hline, -⟩ := hfails Unit refusingTable () _ () herror
  exact ⟨_, s', hparse, herror, n, path, hn, hlabel, hline⟩

/-- The rule takes a parenthesis on the first line, but its node starts on the second, and to that a
failing handler is put down. -/
theorem leaf_behind_separator : groupArena.build 0 = .ok groupGrammar ∧
    ∃ (tree : ParseTree) (s' : TokenStream) (d : Derivation) (toks : Nat → Token),
      groupGrammar.parse (.ofBytes .standard groupSource) = .ok tree s' ∧
      Derives groupGrammar toks [.rule groupGrammar.entry] [d] 0 3 ∧
      d.tokens = [⟨.separator, 1, "(", .absent⟩, ⟨.integer, 2, "1", .integer 1⟩,
        ⟨.separator, 2, ")", .absent⟩] ∧
      d.label? = some "group" ∧ d.nodes = [tree] ∧ tree.label = some "group" ∧ tree.line = 2 ∧
      refusingTable.transform tree () = .error ⟨"group", 2, "refused"⟩ () := by
  obtain ⟨s', hparse⟩ := groupGrammar_parse
  have htaken : (TokenStream.ofBytes .standard groupSource).pending.map (Token.reserve fun w =>
      (TokenStream.ofBytes .standard groupSource).isReserved w || groupGrammar.keywords.contains w) =
        [⟨.separator, 1, "(", .absent⟩, ⟨.integer, 2, "1", .integer 1⟩,
          ⟨.separator, 2, ")", .absent⟩] := by decide +kernel
  obtain ⟨-, d, hd, htokens, htree⟩ := Grammar.parse_taken
    (s := .ofBytes .standard groupSource) (TokenStream.classified_ofLines _ _) hparse
  rw [htaken] at htokens hd
  refine ⟨by decide +kernel, _, s', d, _, hparse, hd, htokens, ?_⟩
  cases hd with
  | rule hid _ _ =>
    obtain rfl := Option.some.inj hid
    exact ⟨rfl, congrArg (fun t => [t]) htree.symm, rfl, rfl, rfl⟩

end HandlerGrammar
