import HandlerGrammar.Proofs.Transform.StartLine

/-! # The normal form of parse trees

A rule without a label leaves its nodes to the rule around it, a lone leaf takes the label of its
rule, and regrouping makes branches of labelled nodes only. So all branches below the root have
labels, and none of them holds nothing but an unlabelled leaf. A labelled rule makes a leaf exactly
if it keeps one token and no other label is given inside it. A group is a label of that kind, even an
empty one.

* `ParseTree.Proper`, `ParseTree.Normal`: what the nodes of a rule satisfy;
* `Derivation.normal_assemble`, `Derivation.normal_nodes`: they do, part by part;
* `ParseTree.Normal.eq_leaves`: normal nodes without labels are leaves;
* `Derives.nodes_eq_leaf_iff`: the rules that make leaves;
* `tree_normal_form`: trees and the leaves that handlers see;
* `group_beside_leaf`: a rule that keeps one token and makes no leaf. -/
namespace HandlerGrammar
open ParseTree Derivation
set_option autoImplicit false

/-! ## Normal nodes -/

namespace ParseTree

/-- A node that is no branch without a label, nor one around nothing but an unlabelled leaf. -/
def Proper : ParseTree → Prop
  | leaf _ _ => True
  | branch label _ children => label ≠ none ∧ ∀ t, children ≠ [leaf none t]

/-- Nodes that are proper down to the leaves. -/
def Normal (nodes : List ParseTree) : Prop := ∀ n ∈ postorderAll nodes, n.Proper

theorem normal_nil : Normal [] := fun _ hmem => absurd hmem List.not_mem_nil

theorem normal_append {nodes nodes' : List ParseTree} :
    Normal (nodes ++ nodes') ↔ Normal nodes ∧ Normal nodes' := by
  simp only [Normal, mem_postorderAll_append, or_imp, forall_and]

theorem normal_leaf (label : Option String) (t : Token) : Normal [leaf label t] := by
  intro n hn
  rw [List.mem_singleton.mp hn]
  trivial

theorem normal_branch {label : String} {line : Nat} {children : List ParseTree} :
    Normal [branch (some label) line children] ↔
      Normal children ∧ ∀ t, children ≠ [leaf none t] := by
  have hmem : ∀ n, n ∈ postorderAll [branch (some label) line children] ↔
      n ∈ postorderAll children ∨ n = branch (some label) line children := by
    intro n
    simp [postorderAll, postorder]
  simp only [Normal, hmem, or_imp, forall_and, forall_eq, Proper, and_congr_right_iff]
  exact fun _ => and_iff_right (Option.some_ne_none label)

theorem Normal.labeled {nodes : List ParseTree} (h : Normal nodes) (label : String) (line : Nat) :
    Normal [labeled label line nodes] := by
  unfold ParseTree.labeled
  split
  · exact normal_leaf _ _
  · next hlone => exact normal_branch.mpr ⟨h, fun t heq => hlone t heq⟩

/-- The moved nodes have labels, so a group is no branch around an unlabelled leaf. -/
theorem Normal.gather {nodes : List ParseTree} (h : Normal nodes) (label : String)
    (members : List String) (line : Nat) : Normal (gather label members line nodes) := by
  intro n hn
  rcases (mem_postorderAll_gather label members line nodes).mp hn with rfl | hn
  · refine ⟨Option.some_ne_none label, fun t heq => ?_⟩
    have hmem : leaf none t ∈ nodes.filter (isMember members) := by
      rw [heq]
      exact List.mem_singleton_self _
    obtain ⟨l, -, hl⟩ := isMember_iff.mp (List.mem_filter.mp hmem).2
    cases hl
  · exact h n hn

theorem Normal.ruleNodes {nodes : List ParseTree} (h : Normal nodes) (body : Rule) (line : Nat) :
    Normal (Grammar.ruleNodes body line nodes) := by
  unfold Grammar.ruleNodes
  split
  · next label _ => exact h.labeled label line
  · exact h

/-- Without labels there are no branches. -/
theorem Normal.eq_leaves {nodes : List ParseTree} (h : Normal nodes)
    (hlabels : nodes.flatMap labels = []) : nodes = (nodes.flatMap tokens).map (leaf none) := by
  induction nodes with
  | nil => rfl
  | cons n nodes ih =>
    obtain ⟨hn, hnodes⟩ := normal_append.mp (show Normal ([n] ++ nodes) from h)
    obtain ⟨hnone, hlabels⟩ := List.append_eq_nil_iff.mp (List.flatMap_cons ▸ hlabels)
    have hrest := ih hnodes hlabels
    cases n with
    | leaf label t =>
      rw [labels_leaf, Option.toList_eq_nil_iff] at hnone
      subst hnone
      rw [List.flatMap_cons, tokens_leaf, List.singleton_append, List.map_cons, ← hrest]
    | branch label line children =>
      rw [labels_branch, List.append_eq_nil_iff, Option.toList_eq_nil_iff] at hnone
      have hproper : (branch label line children).Proper :=
        hn _ (postorderAll_of_mem (List.mem_singleton_self _))
      exact absurd hnone.2 hproper.1

/-! ### Under the root -/

section
variable {nodes : List ParseTree} {line : Nat}

/-- What is below the root of a tree has been matched. -/
theorem mem_of_children_treeOf {path : List String} {n : ParseTree}
    (h : Occurs (Grammar.treeOf line nodes).children path n) : n ∈ postorderAll nodes := by
  unfold Grammar.treeOf at h
  split at h
  · obtain ⟨path', hn⟩ := h.of_children
    exact hn.mem_postorderAll
  · exact h.mem_postorderAll

theorem Normal.treeOf_ne (h : Normal nodes) (line' : Nat) (child : ParseTree) :
    Grammar.treeOf line nodes ≠ branch none line' [child] := by
  intro heq
  unfold Grammar.treeOf at heq
  split at heq
  · next t =>
    have hproper := h t (postorderAll_of_mem (List.mem_singleton_self t))
    rw [heq] at hproper
    exact hproper.1 rfl
  · next hmany => exact hmany child (ParseTree.branch.inj heq).2.2

theorem Normal.not_occurs_treeOf (h : Normal nodes) (path : List String) (label : Option String)
    (line' : Nat) (t : Token) :
    ¬ Occurs [Grammar.treeOf line nodes] path (branch label line' [leaf none t]) := by
  intro hoccurs
  unfold Grammar.treeOf at hoccurs
  split at hoccurs
  · exact (h _ hoccurs.mem_postorderAll).2 t rfl
  · next hmany =>
    have hmem := mem_postorder.mpr ⟨path, hoccurs⟩
    rcases List.mem_append.mp hmem with hmem | hmem
    · exact (h _ hmem).2 t rfl
    · exact hmany _ (ParseTree.branch.inj (List.mem_singleton.mp hmem)).2.2.symm

end

end ParseTree

/-! ## The nodes of derivations -/

namespace Derivation

mutual
theorem normal_extend (line : Nat) (d : Derivation) {nodes : List ParseTree} (h : Normal nodes) :
    Normal (extend line d nodes) := by
  match d with
  | token x t =>
    refine normal_append.mpr ⟨h, ?_⟩
    split
    · exact normal_leaf none t
    · exact normal_nil
  | rule id body start parts =>
    exact normal_append.mpr ⟨h, (normal_assemble start parts normal_nil).ruleNodes body start⟩
  | gather label members => exact h.gather label members line

theorem normal_assemble (line : Nat) (ds : List Derivation) {nodes : List ParseTree}
    (h : Normal nodes) : Normal (assemble line ds nodes) := by
  match ds with
  | [] => exact h
  | d :: ds => exact normal_assemble line ds (normal_extend line d h)
end

theorem normal_nodes (d : Derivation) : Normal d.nodes := by
  cases d with
  | rule id body line parts =>
    exact (normal_assemble line parts normal_nil).ruleNodes body line
  | token _ _ | gather _ _ => exact normal_nil

/-- The labels among the nodes that a rule collects are those of its groups and of the rules inside. -/
theorem labels_assemble (line : Nat) (parts : List Derivation) :
    ((assemble line parts []).flatMap labels).Perm
      ((parts.filterMap group?).map Prod.fst ++ (instancesOf parts).flatMap own) := by
  rw [List.perm_iff_count]
  intro x
  have h := countLabel_assemble x line parts []
  rw [countLabel_nil, Nat.zero_add] at h
  rw [List.count_append]
  exact h

end Derivation

/-! ## Rules that make leaves -/

section
variable {g : Grammar} {toks : Nat → Token} {steps : List Step} {parts : List Derivation} {a b : Nat}

/-- A lone leaf is all that a rule collects exactly if it keeps one token and gets no labels. -/
theorem Derives.assemble_eq_leaf_iff (h : Derives g toks steps parts a b) (line : Nat) {t : Token} :
    Derivation.assemble line parts [] = [leaf none t] ↔ keptOf parts = [t] ∧
      (parts.filterMap Derivation.group?).map Prod.fst ++ (instancesOf parts).flatMap own = [] := by
  have htokens : ((Derivation.assemble line parts []).flatMap ParseTree.tokens).Perm (keptOf parts) :=
    h.tokens_assemble line []
  have hlabels := labels_assemble line parts
  constructor
  · intro hlone
    rw [hlone] at htokens hlabels
    exact ⟨(List.singleton_perm.mp htokens).symm, List.nil_perm.mp hlabels⟩
  · rintro ⟨hkept, hnone⟩
    rw [hkept] at htokens
    rw [hnone] at hlabels
    have hleaves := (normal_assemble line parts normal_nil).eq_leaves (List.perm_nil.mp hlabels)
    rw [List.perm_singleton.mp htokens] at hleaves
    exact hleaves

theorem labeled_eq_leaf_iff {label : String} {line : Nat} {nodes : List ParseTree} {t : Token} :
    labeled label line nodes = leaf (some label) t ↔ nodes = [leaf none t] := by
  unfold labeled
  split
  · simp
  · next hlone => exact iff_of_false ParseTree.noConfusion (hlone t)

/-- A labelled rule makes a leaf exactly if it keeps one token and no label but its own is given. -/
theorem Derives.nodes_eq_leaf_iff (h : Derives g toks steps parts a b) (id : RuleId) {body : Rule}
    (line : Nat) {label : String} (hlabel : body.label? = some label) (t : Token) :
    let i := Derivation.rule id body line parts
    i.nodes = [leaf (some label) t] ↔ i.kept = [t] ∧ i.instances.flatMap own = [label] := by
  intro i
  have hnodes : i.nodes = [labeled label line (Derivation.assemble line parts [])] := by
    simp only [i, Derivation.nodes, Grammar.ruleNodes, hlabel]
  have hown : i.instances.flatMap own = label ::
      ((parts.filterMap Derivation.group?).map Prod.fst ++ (instancesOf parts).flatMap own) := by
    simp only [i, instances, List.flatMap_cons, own, hlabel, Option.toList_some, List.cons_append,
      List.nil_append]
  have hkept : i.kept = keptOf parts := rfl
  calc i.nodes = [leaf (some label) t]
      ↔ Derivation.assemble line parts [] = [leaf none t] := by
        rw [hnodes, List.singleton_inj, labeled_eq_leaf_iff]
    _ ↔ i.kept = [t] ∧ i.instances.flatMap own = [label] := by
        rw [h.assemble_eq_leaf_iff, hkept, hown, List.cons.injEq, and_iff_right rfl]

end

/-! ## Parse trees -/

/-- Whatever has been asked of a stream before, in the tree of a parse that succeeds all branches
below the root have labels, a root without one does not have a single child, and no branch holds
nothing but an unlabelled leaf. So a labelled rule that kept one token, matched through any rules
without labels that do not regroup, has a leaf with its label in the tree, wherever it is moved, and
a handler for the label is run on that leaf. If it regroups, or another label is given inside, it has
no leaf. -/
theorem tree_normal_form (g : Grammar) (v : Vocabulary) (bytes : List UInt8) (before : List Request)
    {tree : ParseTree} {s' : TokenStream}
    (h : g.parse (attend before (.ofBytes v bytes)).2 = .ok tree s') :
    let s := (attend before (.ofBytes v bytes)).2
    let taken := s.pending.map (Token.reserve fun w => s.isReserved w || g.keywords.contains w)
    let shown := fun k => taken[k]?.getD (.eof (max s.lastLine 1))
    (∀ path line children, ¬ Occurs tree.children path (branch none line children)) ∧
    (∀ line child, tree ≠ branch none line [child]) ∧
    (∀ path label line t, ¬ Occurs [tree] path (branch label line [leaf none t])) ∧
    ∃ d, Derives g shown [.rule g.entry] [d] 0 taken.length ∧ d.tokens = taken ∧
      tree = Grammar.treeOf (shown 0).line d.nodes ∧
      ∀ i ∈ d.instances, ∀ label t, i.label? = some label →
        (i.nodes = [leaf (some label) t] ↔ i.kept = [t] ∧ i.instances.flatMap own = [label]) ∧
        (i.kept = [t] → i.instances.flatMap own = [label] →
          (∃ path, Occurs [tree] path (leaf (some label) t)) ∧
          ∀ (C : Type) (table : HandlerTable C) action, table.action? label = some action →
            ⟨label, action, leaf (some label) t⟩ ∈ table.visits tree) := by
  intro s taken shown
  obtain ⟨-, d, hd, htokens, rfl⟩ := Grammar.parse_taken (classified_attend v bytes before) h
  have hnormal := d.normal_nodes
  refine ⟨fun path line children hoccurs => ?_, hnormal.treeOf_ne, hnormal.not_occurs_treeOf, d, hd,
    htokens, rfl, fun i hi label t hlabel => ?_⟩
  · exact (hnormal _ (mem_of_children_treeOf hoccurs)).1 rfl
  · obtain ⟨id, body, parts, a, b, rfl, -, hparts⟩ := hd.of_instance i (List.mem_append_left _ hi)
    have hiff := hparts.nodes_eq_leaf_iff id (shown a).line hlabel t
    refine ⟨hiff, fun hkept hown => ?_⟩
    have hnodes := hiff.mpr ⟨hkept, hown⟩
    have hsome : (leaf (some label) t).label ≠ none := Option.some_ne_none label
    have hmem : leaf (some label) t ∈ (Grammar.treeOf (shown 0).line d.nodes).postorder := by
      cases hd with
      | rule _ _ hnil =>
        refine (mem_postorder_tree hsome).mpr ⟨_, hi, Or.inl ⟨?_, hnodes⟩⟩
        rw [hlabel]
        rfl
    have hoccurs := mem_postorder.mp hmem
    exact ⟨hoccurs, fun C table action haction => table.mem_visits.mpr ⟨hoccurs, rfl, haction⟩⟩

/-- An amount is a number, taken through a choice by a rule without a label, which may regroup it. -/
def amountGrammar (regrouping : List Step) : Grammar where
  rules := [⟨"rule#0", .plain (.token .number :: regrouping)⟩, ⟨"amount", .labeled "amount" [.choice [0]]⟩]
  entry := 1
  keywords := WordSet.ofList []

/-- The arena calls that build it. -/
def amountArena (regrouping : List Step) : Arena :=
  ((Arena.empty.add (.plain (.token .number :: regrouping))).2.add
    (.labeled "amount" [.choice [0]])).2

/-- The token of the text `1`. -/
def amountToken : Token := ⟨.integer, 1, "1", .integer 1⟩

theorem amount_taken (regrouping : List Step) :
    (TokenStream.ofBytes .standard [49]).pending.map (Token.reserve fun w =>
      (TokenStream.ofBytes .standard [49]).isReserved w ||
        (amountGrammar regrouping).keywords.contains w) = [amountToken] := by
  have hkeywords : (amountGrammar regrouping).keywords = WordSet.ofList [] := rfl
  rw [hkeywords]
  decide +kernel

theorem amount_derived {regrouping : List Step} {toks : Nat → Token} {d : Derivation} {a b : Nat}
    (h : Derives (amountGrammar regrouping) toks [.rule 1] [d] a b) :
    ∃ parts, Derives (amountGrammar regrouping) toks regrouping parts (a + 1) b ∧
      d = rule 1 (.labeled "amount" [.choice [0]]) (toks a).line
        [rule 0 (.plain (.token .number :: regrouping)) (toks a).line
          (token (.token .number) (toks a) :: parts)] := by
  cases h with
  | rule hid hbody hnil =>
    obtain rfl := Option.some.inj hid
    cases hnil
    cases hbody with
    | choice hmem hbody =>
      obtain rfl := List.mem_singleton.mp hmem
      cases hbody with
      | rule hid' hbody' hnil' =>
        obtain rfl := Option.some.inj hid'
        cases hnil'
        cases hbody' with
        | token _ hrest => exact ⟨_, hrest, rfl⟩

/-- The number is a leaf, and a handler for amounts is run on it. -/
theorem tree_normal_form_sample : ∃ tree s',
    (amountGrammar []).parse (attend [] (.ofBytes .standard [49])).2 = .ok tree s' ∧
    (∀ line child, tree ≠ branch none line [child]) ∧
    (∃ path, Occurs [tree] path (leaf (some "amount") amountToken)) ∧
    ∀ (C : Type) (table : HandlerTable C) action, table.action? "amount" = some action →
      ⟨"amount", action, leaf (some "amount") amountToken⟩ ∈ table.visits tree := by
  obtain ⟨tree, hparse⟩ := (amountGrammar []).parse_of_isOk
    (s := (attend [] (.ofBytes .standard [49])).2) (by decide +kernel)
  obtain ⟨-, hroot, -, d, hd, htokens, -, hleaves⟩ :=
    tree_normal_form (amountGrammar []) .standard [49] [] hparse
  obtain ⟨parts, hend, rfl⟩ := amount_derived hd
  cases hend
  have hkept := htokens.trans (amount_taken [])
  obtain ⟨-, hleaf⟩ := hleaves _ (List.mem_cons_self ..) "amount" amountToken rfl
  exact ⟨tree, _, hparse, hroot, hleaf hkept rfl⟩

/-! ## A group beside a leaf -/

/-- The labelled rule takes one token, which is kept, and no other labelled rule is matched inside.
But the group that is made stands beside the leaf, and no leaf has a label. -/
theorem group_beside_leaf :
    let g := amountGrammar [.gather "units" ["unit"]]
    (amountArena [.gather "units" ["unit"]]).build 1 = .ok g ∧
    ∃ (tree : ParseTree) (s' : TokenStream) (d : Derivation) (toks : Nat → Token),
      g.parse (.ofBytes .standard [49]) = .ok tree s' ∧ Derives g toks [.rule g.entry] [d] 0 1 ∧
      tree = Grammar.treeOf (toks 0).line d.nodes ∧ d.label? = some "amount" ∧
      d.tokens = [amountToken] ∧ d.kept = [amountToken] ∧
      (∀ i ∈ d.instances, i.label?.isSome → i = d) ∧
      ∀ path label t, ¬ Occurs [tree] path (leaf (some label) t) := by
  intro g
  obtain ⟨tree, hparse⟩ := g.parse_of_isOk (s := .ofBytes .standard [49]) (by decide +kernel)
  obtain ⟨-, d, hd, htokens, htree⟩ := Grammar.parse_taken
    (s := .ofBytes .standard [49]) (TokenStream.classified_ofLines _ _) hparse
  have htaken := amount_taken [.gather "units" ["unit"]]
  rw [htaken] at htokens hd
  obtain ⟨parts, hgather, rfl⟩ := amount_derived hd
  cases hgather with
  | gather hend =>
    cases hend
    refine ⟨by decide +kernel, tree, _, _, _, hparse, hd, htree, rfl, htokens, htokens,
      fun i hi hsome => ?_, fun path label t hoccurs => ?_⟩
    · rcases List.mem_cons.mp hi with rfl | hi
      · rfl
      · rw [List.mem_singleton.mp hi] at hsome
        cases hsome
    · have hmem := mem_postorder.mpr ⟨path, hoccurs⟩
      rw [htree] at hmem
      rcases List.mem_cons.mp hmem with heq | hmem
      · cases heq
      · rcases List.mem_cons.mp hmem with heq | hmem
        · cases heq
        · cases List.mem_singleton.mp hmem

end HandlerGrammar
