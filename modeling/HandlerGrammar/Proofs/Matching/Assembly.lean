import HandlerGrammar.Proofs.Matching.Derivation
import HandlerGrammar.Proofs.Tree.Gathering

/-! # The nodes of a derivation

A rule collects the nodes of what it matches, regroups them and puts them under its label. Where all
regrouping stands last in the rules, the nodes of an instance are those that it matched, gathered
group by group.

* `Derivation.matched`: the nodes that an instance matched;
* `Derives.assemble`: what is made of them;
* `Derives.referenced`, `Derives.tested`, `Derives.forall_instances`: what matches consist of;
* `Derivation.own`, `count_nodes`: each label in the nodes is given by one instance. -/
namespace HandlerGrammar
open ParseTree
set_option autoImplicit false

/-- The label and the members of a regrouping. -/
def Step.group? : Step → Option (String × List String)
  | gather label members => some (label, members)
  | _ => none

namespace Derivation

def group? : Derivation → Option (String × List String)
  | gather label members => some (label, members)
  | _ => none

/-- The nodes that a part adds to those of its rule. -/
def produced : Derivation → List ParseTree
  | token x t => if x.isKept then [.leaf none t] else []
  | rule id body line parts => (rule id body line parts).nodes
  | gather _ _ => []

/-- The nodes that an instance of a rule matched, in order, before it regroups them. -/
def matched : Derivation → List ParseTree
  | rule _ _ _ parts => parts.flatMap produced
  | _ => []

/-- The labels that an instance itself gives to nodes: its own, and those of its regroupings. -/
def own : Derivation → List String
  | rule _ body _ parts => body.label?.toList ++ (parts.filterMap group?).map Prod.fst
  | _ => []

end Derivation

open Derivation

section
variable {g : Grammar} {toks : Nat → Token} {steps : List Step} {ds : List Derivation} {a b : Nat}

theorem Derives.groups (h : Derives g toks steps ds a b) :
    ds.filterMap Derivation.group? = steps.filterMap Step.group? := by
  induction h with
  | nil a => rfl
  | token _ _ ih => exact ih
  | rule _ _ _ _ ih => exact ih
  | skip _ ih | take _ ih | done _ ih | again _ ih | choice _ _ ih | dispatch _ _ ih => exact ih
  | gather _ ih => simp only [List.filterMap_cons, Derivation.group?, Step.group?, ih]

/-! ## Regrouping last -/

/-- Behind a regrouping stand only others. -/
def GathersLast (steps : List Step) : Prop :=
  steps.Pairwise fun s s' => s.group?.isSome = true → s'.group?.isSome = true

theorem Derives.produced_nil (h : Derives g toks steps ds a b)
    (hall : ∀ s ∈ steps, s.group?.isSome = true) : ds.flatMap produced = [] := by
  induction h with
  | nil a => rfl
  | gather _ ih => exact ih fun s hs => hall s (List.mem_cons_of_mem _ hs)
  | _ => cases hall _ (List.mem_cons_self ..)

/-- What a rule makes of the nodes that it has and those that it matches. -/
theorem Derives.assemble (h : Derives g toks steps ds a b) (hlast : GathersLast steps) (line : Nat)
    (nodes : List ParseTree) : assemble line ds nodes =
      gatherAll line (steps.filterMap Step.group?) (nodes ++ ds.flatMap produced) := by
  have hswap : ∀ {s s' : Step} {steps : List Step}, s'.group? = none →
      GathersLast (s :: steps) → GathersLast (s' :: steps) := by
    intro s s' steps hs' hsteps
    refine List.pairwise_cons.mpr ⟨fun _ _ hsome => ?_, (List.pairwise_cons.mp hsteps).2⟩
    rw [hs'] at hsome
    cases hsome
  induction h generalizing nodes with
  | nil a => simp [Derivation.assemble, gatherAll]
  | token _ _ ih =>
    rw [Derivation.assemble, ih (List.pairwise_cons.mp hlast).2]
    simp only [extend, List.flatMap_cons, produced, List.append_assoc]
    rfl
  | rule _ _ _ _ ih =>
    rw [Derivation.assemble, ih (List.pairwise_cons.mp hlast).2]
    simp only [extend, List.flatMap_cons, produced, Derivation.nodes, List.append_assoc]
    rfl
  | skip _ ih | done _ ih => exact ih (List.pairwise_cons.mp hlast).2 nodes
  | take _ ih => exact ih (hswap rfl hlast) nodes
  | choice _ _ ih | dispatch _ _ ih => exact ih (hswap rfl hlast) nodes
  | again _ ih =>
    refine ih (List.pairwise_cons.mpr ⟨fun _ _ hsome => ?_, hlast⟩) nodes
    cases hsome
  | @gather label members steps ds a b h ih =>
    obtain ⟨hfirst, hrest⟩ := List.pairwise_cons.mp hlast
    have hnil := h.produced_nil fun s hs => hfirst s hs rfl
    have hgather := ih hrest (ParseTree.gather label members line nodes)
    rw [hnil, List.append_nil] at hgather
    have hproduced : (Derivation.gather label members :: ds).flatMap produced = [] := hnil
    rw [hproduced, List.append_nil]
    exact hgather

/-! ## Instances -/

theorem Derives.referenced (h : Derives g toks steps ds a b) :
    ∀ id body line parts, .rule id body line parts ∈ ds → id ∈ steps.flatMap Step.references := by
  induction h with
  | nil a => exact fun _ _ _ _ hmem => nomatch hmem
  | token _ _ ih | gather _ ih =>
    intro id body line parts hmem
    rcases List.mem_cons.mp hmem with heq | hmem
    · cases heq
    · exact ih id body line parts hmem
  | rule _ _ _ _ ih =>
    intro id body line parts hmem
    rcases List.mem_cons.mp hmem with heq | hmem
    · cases heq
      exact List.mem_cons_self ..
    · exact List.mem_cons_of_mem _ (ih id body line parts hmem)
  | skip _ ih | done _ ih =>
    intro id body line parts hmem
    exact List.mem_cons_of_mem _ (ih id body line parts hmem)
  | take _ ih => exact ih
  | again _ ih =>
    intro id body line parts hmem
    rcases List.mem_cons.mp (ih id body line parts hmem) with rfl | hid
    · exact List.mem_cons_self ..
    · exact hid
  | choice hid _ ih | dispatch hid _ ih =>
    intro id body line parts hmem
    rcases List.mem_cons.mp (ih id body line parts hmem) with rfl | hid'
    · exact List.mem_append_left _ hid
    · exact List.mem_append_right _ hid'

theorem Derives.tested (h : Derives g toks steps ds a b) :
    ∀ x t, .token x t ∈ ds → .terminal x ∈ steps := by
  induction h with
  | nil a => exact fun _ _ hmem => nomatch hmem
  | token _ _ ih =>
    intro x t hmem
    rcases List.mem_cons.mp hmem with heq | hmem
    · cases heq
      exact List.mem_cons_self ..
    · exact List.mem_cons_of_mem _ (ih x t hmem)
  | rule _ _ _ _ ih | gather _ ih =>
    intro x t hmem
    rcases List.mem_cons.mp hmem with heq | hmem
    · cases heq
    · exact List.mem_cons_of_mem _ (ih x t hmem)
  | skip _ ih | done _ ih => exact fun x t hmem => List.mem_cons_of_mem _ (ih x t hmem)
  | take _ ih | choice _ _ ih | dispatch _ _ ih =>
    intro x t hmem
    rcases List.mem_cons.mp (ih x t hmem) with heq | hmem
    · cases heq
    · exact List.mem_cons_of_mem _ hmem
  | again _ ih =>
    intro x t hmem
    rcases List.mem_cons.mp (ih x t hmem) with heq | hmem
    · cases heq
    · exact hmem

theorem Derivation.mem_instancesOf {d : Derivation} (h : d ∈ instancesOf ds) :
    ∃ d' ∈ ds, d ∈ d'.instances := by
  induction ds with
  | nil => cases h
  | cons d' ds ih =>
    rcases List.mem_append.mp h with h | h
    · exact ⟨d', List.mem_cons_self .., h⟩
    · obtain ⟨d'', hmem, hd⟩ := ih h
      exact ⟨d'', List.mem_cons_of_mem _ hmem, hd⟩

theorem Derivation.instances_subset {d : Derivation} (h : d ∈ ds) :
    d.instances ⊆ instancesOf ds := by
  induction ds with
  | nil => cases h
  | cons d' ds ih =>
    rcases List.mem_cons.mp h with rfl | h
    · exact List.subset_append_left _ _
    · exact List.subset_append_of_subset_right _ (ih h)

mutual
theorem Derivation.instances_trans {d i : Derivation} (h : i ∈ d.instances) :
    i.instances ⊆ d.instances := by
  match d with
  | .token _ _ | .gather _ _ => cases h
  | .rule id body line parts =>
    rcases List.mem_cons.mp h with rfl | h
    · exact List.Subset.refl _
    · exact List.subset_cons_of_subset _ (Derivation.instancesOf_trans h)

theorem Derivation.instancesOf_trans {ds : List Derivation} {i : Derivation}
    (h : i ∈ instancesOf ds) : i.instances ⊆ instancesOf ds := by
  match ds with
  | [] => cases h
  | d :: ds =>
    rcases List.mem_append.mp h with h | h
    · exact List.subset_append_of_subset_left _ (Derivation.instances_trans h)
    · exact List.subset_append_of_subset_right _ (Derivation.instancesOf_trans h)
end

/-- What passes from a rule to the rules that it refers to holds of all instances. -/
theorem Derives.forall_instances {K : RuleId → Prop}
    (hpass : ∀ id body, K id → g.rule? id = some body →
      ∀ id' ∈ body.steps.flatMap Step.references, K id')
    (h : Derives g toks steps ds a b) (hK : ∀ id ∈ steps.flatMap Step.references, K id) :
    ∀ id body line parts, .rule id body line parts ∈ instancesOf ds → K id := by
  have hsplit : ∀ {ds : List Derivation} {id body line parts},
      (∀ id body line parts, .rule id body line parts ∈ ds → K id ∧
        (K id → ∀ id' body' line' parts', .rule id' body' line' parts' ∈ instancesOf parts → K id')) →
      .rule id body line parts ∈ instancesOf ds → K id := by
    intro ds id body line parts hds hmem
    obtain ⟨d, hd, hinstance⟩ := mem_instancesOf hmem
    cases d with
    | token _ _ | gather _ _ => cases hinstance
    | rule id' body' line' parts' =>
      obtain ⟨hself, hinside⟩ := hds id' body' line' parts' hd
      rcases List.mem_cons.mp hinstance with heq | hinstance
      · cases heq
        exact hself
      · exact hinside hself id body line parts hinstance
  have hinside := h.forall_rules
    (P := fun id _ _ parts => K id →
      ∀ id' body' line' parts', .rule id' body' line' parts' ∈ instancesOf parts → K id')
    fun id body parts a b hid hparts ih hself id' body' line' parts' hmem =>
      hsplit (fun id'' body'' line'' parts'' hmem =>
        ⟨hpass id body hself hid id'' (hparts.referenced _ _ _ _ hmem),
          ih id'' body'' line'' parts'' hmem⟩) hmem
  exact fun id body line parts hmem => hsplit (fun id' body' line' parts' hmem =>
    ⟨hK id' (h.referenced _ _ _ _ hmem), hinside id' body' line' parts' hmem⟩) hmem

end

/-! ## Counting labels -/

namespace Derivation

/-- How often the labels in the nodes say `x`. -/
def countLabel (x : String) (nodes : List ParseTree) : Nat := (nodes.flatMap labels).count x

@[simp] theorem countLabel_nil (x : String) : countLabel x [] = 0 := rfl

@[simp] theorem countLabel_append (x : String) (nodes nodes' : List ParseTree) :
    countLabel x (nodes ++ nodes') = countLabel x nodes + countLabel x nodes' := by
  simp [countLabel]

theorem countLabel_gather (x label : String) (members : List String) (line : Nat)
    (nodes : List ParseTree) : countLabel x (ParseTree.gather label members line nodes) =
      countLabel x nodes + [label].count x := by
  have h : ((ParseTree.gather label members line nodes).flatMap labels).Perm
      (label :: nodes.flatMap labels) := labels_gather
  rw [countLabel, h.count_eq x, List.count_cons, List.count_singleton]
  rfl

theorem countLabel_ruleNodes (x : String) (body : Rule) (line : Nat) (nodes : List ParseTree) :
    countLabel x (Grammar.ruleNodes body line nodes) =
      countLabel x nodes + body.label?.toList.count x := by
  unfold Grammar.ruleNodes
  split
  · next label hlabel => simp [countLabel, labels_labeled, hlabel]
  · next hlabel => simp [hlabel]

/-- How often instances give the label `x`. -/
def countOwn (x : String) (instances : List Derivation) : Nat := (instances.flatMap own).count x

mutual
theorem countLabel_extend (x : String) (line : Nat) (d : Derivation) (nodes : List ParseTree) :
    countLabel x (extend line d nodes) = countLabel x nodes +
      ((d.group?.toList.map Prod.fst).count x + countOwn x d.instances) := by
  match d with
  | token y t =>
    have hleaf : countLabel x (if y.isKept then [.leaf none t] else []) = 0 := by
      split <;> simp [countLabel]
    simp [extend, countLabel_append, hleaf, group?, instances, countOwn]
  | gather label members =>
    rw [extend, countLabel_gather]
    rfl
  | rule id body start parts =>
    have hparts := countLabel_assemble x start parts []
    simp only [extend, countLabel_append, countLabel_ruleNodes, hparts, countLabel_nil, instances,
      countOwn, List.flatMap_cons, own, group?, List.count_append]
    simp only [Option.toList_none, List.map_nil, List.count_nil]
    omega

theorem countLabel_assemble (x : String) (line : Nat) (ds : List Derivation)
    (nodes : List ParseTree) : countLabel x (assemble line ds nodes) = countLabel x nodes +
      (((ds.filterMap group?).map Prod.fst).count x + countOwn x (instancesOf ds)) := by
  match ds with
  | [] => simp [assemble, instancesOf, countOwn]
  | d :: ds =>
    have hd := countLabel_extend x line d nodes
    have hds := countLabel_assemble x line ds (extend line d nodes)
    have hgroups : (((d :: ds).filterMap group?).map Prod.fst).count x =
        (d.group?.toList.map Prod.fst).count x + ((ds.filterMap group?).map Prod.fst).count x := by
      cases hgroup : d.group? <;> simp [hgroup, List.count_cons, Nat.add_comm]
    have hown : countOwn x (instancesOf (d :: ds)) =
        countOwn x d.instances + countOwn x (instancesOf ds) := by
      simp [instancesOf, countOwn]
    rw [assemble, hds, hd, hgroups, hown]
    omega
end

/-- A label stands in the nodes of a derivation as often as its instances give it. -/
theorem count_nodes (x : String) (d : Derivation) :
    (d.nodes.flatMap labels).count x = countOwn x d.instances := by
  match d with
  | token _ _ | gather _ _ => rfl
  | rule id body line parts =>
    have h := countLabel_extend x line (rule id body line parts) []
    simpa [extend, group?, Derivation.nodes, countLabel] using h

end Derivation
end HandlerGrammar
