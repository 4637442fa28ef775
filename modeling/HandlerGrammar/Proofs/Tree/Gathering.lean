import HandlerGrammar.ParseTree
import Mathlib.Data.List.Perm.Basic
import Mathlib.Data.List.TakeWhile

/-! # Regrouping nodes

Gathering moves nodes as a whole: no node is lost, and those that are not moved keep their order.

* `Occurs`: a node at the end of a path through a list of trees, `Occurs.isInfix_tokens`: its tokens;
* `gather_eq`: the new branch stands among the nodes that stay;
* `filter_gather`, `labels_gather`, `tokens_gather`, `Occurs.gather`: what gathering keeps;
* `gatherAll`: several gatherings one after another. -/
namespace HandlerGrammar
namespace ParseTree
set_option autoImplicit false

/-! ## Nodes in a tree -/

/-- The node occurs among the trees or below them; the path holds the labels above it, the nearest
one first. -/
inductive Occurs (trees : List ParseTree) : List String → ParseTree → Prop
  | top {t : ParseTree} : t ∈ trees → Occurs trees [] t
  | child {path : List String} {t c : ParseTree} : Occurs trees path t → c ∈ t.children →
      Occurs trees (t.label.toList ++ path) c

@[simp] theorem label_labeled (label : String) (line : Nat) (nodes : List ParseTree) :
    (labeled label line nodes).label = some label := by
  unfold labeled
  split <;> rfl

/-- The children of a labelled node are those that were matched, except that a lone leaf becomes
the node itself. -/
theorem children_labeled (label : String) (line : Nat) (nodes : List ParseTree) :
    (labeled label line nodes).children ⊆ nodes := by
  unfold labeled
  split
  · exact List.nil_subset _
  · exact List.Subset.refl _

theorem foldAll_eq_map {α : Type} (onLeaf : Option String → Token → α)
    (onBranch : Option String → Nat → List α → α) (ts : List ParseTree) :
    foldAll onLeaf onBranch ts = ts.map (fold onLeaf onBranch) := by
  induction ts with
  | nil => rfl
  | cons t ts ih =>
    rw [foldAll, ih]
    rfl

@[simp] theorem labels_leaf (label : Option String) (t : Token) :
    (leaf label t).labels = label.toList := rfl

@[simp] theorem labels_branch (label : Option String) (line : Nat) (children : List ParseTree) :
    (branch label line children).labels = children.flatMap labels ++ label.toList := by
  rw [labels, fold, foldAll_eq_map]
  rfl

theorem labels_labeled (label : String) (line : Nat) (nodes : List ParseTree) :
    (labeled label line nodes).labels = nodes.flatMap labels ++ [label] := by
  unfold labeled
  split
  · simp
  · simp

@[simp] theorem tokens_leaf (label : Option String) (t : Token) : (leaf label t).tokens = [t] := rfl

@[simp] theorem tokens_branch (label : Option String) (line : Nat) (children : List ParseTree) :
    (branch label line children).tokens = children.flatMap tokens := by
  rw [tokens, fold, foldAll_eq_map]
  rfl

theorem tokens_labeled (label : String) (line : Nat) (nodes : List ParseTree) :
    (labeled label line nodes).tokens = nodes.flatMap tokens := by
  unfold labeled
  split
  · simp
  · simp

/-- The tokens of a node stand together among those of the trees. -/
theorem Occurs.isInfix_tokens {trees : List ParseTree} {path : List String} {t : ParseTree}
    (h : Occurs trees path t) : t.tokens <:+: trees.flatMap tokens := by
  have hmem : ∀ {ts : List ParseTree} {t : ParseTree}, t ∈ ts → t.tokens <:+: ts.flatMap tokens := by
    intro ts t ht
    obtain ⟨before, after, rfl⟩ := List.append_of_mem ht
    exact ⟨before.flatMap tokens, after.flatMap tokens, by simp⟩
  induction h with
  | top ht => exact hmem ht
  | @child path t c _ hc ih =>
    cases t with
    | leaf label t => cases hc
    | branch label line children =>
      rw [tokens_branch] at ih
      exact (hmem hc).trans ih

/-! ## One group -/

theorem isMember_iff {members : List String} {t : ParseTree} :
    isMember members t = true ↔ ∃ l ∈ members, t.label = some l := by
  cases h : t.label with
  | none => simp [isMember, h]
  | some l => simp [isMember, h]

theorem filter_filter_isMember {keep members : List String} (h : keep ⊆ members)
    (nodes : List ParseTree) :
    (nodes.filter (isMember members)).filter (isMember keep) = nodes.filter (isMember keep) := by
  rw [List.filter_filter]
  refine List.filter_congr fun t _ => ?_
  cases hkeep : isMember keep t with
  | false => rfl
  | true =>
    obtain ⟨l, hl, ht⟩ := isMember_iff.mp hkeep
    exact isMember_iff.mpr ⟨l, h hl, ht⟩

section
variable (label : String) (members : List String) (line : Nat) (nodes : List ParseTree)

/-- The branch that holds what is moved. -/
def group : ParseTree :=
  let moved := nodes.filter (isMember members)
  branch (some label) ((moved.head?.map ParseTree.line).getD line) moved

/-- The new branch stands somewhere among the nodes that stay, which keep their order. -/
theorem gather_eq : ∃ before after,
    gather label members line nodes = before ++ group label members line nodes :: after ∧
      before ++ after = nodes.filter (!isMember members ·) := by
  refine ⟨_, _, rfl, ?_⟩
  have hbefore : (nodes.takeWhile (!isMember members ·)).filter (!isMember members ·) =
      nodes.takeWhile (!isMember members ·) :=
    List.filter_eq_self.mpr fun t ht =>
      List.mem_takeWhile_imp (p := fun t => !isMember members t) ht
  calc nodes.takeWhile (!isMember members ·) ++
        (nodes.dropWhile (!isMember members ·)).filter (!isMember members ·)
      = (nodes.takeWhile (!isMember members ·) ++ nodes.dropWhile (!isMember members ·)).filter
          (!isMember members ·) := by rw [List.filter_append, hbefore]
    _ = nodes.filter (!isMember members ·) := by rw [List.takeWhile_append_dropWhile]

theorem mem_gather {t : ParseTree} : t ∈ gather label members line nodes ↔
    t = group label members line nodes ∨ t ∈ nodes ∧ isMember members t = false := by
  obtain ⟨before, after, heq, hstay⟩ := gather_eq label members line nodes
  have hmem : t ∈ before ∨ t ∈ after ↔ t ∈ nodes ∧ isMember members t = false := by
    rw [← List.mem_append, hstay]
    simp
  rw [heq, List.mem_append, List.mem_cons, or_left_comm, hmem]

end

section
variable {label : String} {members : List String} {line : Nat} {nodes : List ParseTree}

theorem filter_gather {keep : List String} (hlabel : label ∉ keep)
    (hmembers : ∀ l ∈ keep, l ∉ members) :
    (gather label members line nodes).filter (isMember keep) = nodes.filter (isMember keep) := by
  obtain ⟨before, after, heq, hstay⟩ := gather_eq label members line nodes
  have hgroup : isMember keep (group label members line nodes) = false := by
    simp [isMember, group, ParseTree.label, hlabel]
  have hkeep : (fun t => isMember keep t && !isMember members t) = isMember keep := by
    funext t
    cases hk : isMember keep t with
    | false => rfl
    | true =>
      obtain ⟨l, hl, ht⟩ := isMember_iff.mp hk
      simp [isMember, ht, hmembers l hl]
  calc (gather label members line nodes).filter (isMember keep)
      = (before ++ after).filter (isMember keep) := by
        rw [heq, List.filter_append, List.filter_cons_of_neg (by simp [hgroup]), List.filter_append]
    _ = nodes.filter (isMember keep) := by rw [hstay, List.filter_filter, hkeep]

/-- Among nodes that do not carry its label, the new branch is the only one that does. -/
theorem filter_gather_self
    (hfresh : nodes.filter (isMember [label]) = []) :
    (gather label members line nodes).filter (isMember [label]) =
      [group label members line nodes] := by
  obtain ⟨before, after, heq, hstay⟩ := gather_eq label members line nodes
  have hgroup : isMember [label] (group label members line nodes) = true := by
    simp [isMember, group, ParseTree.label]
  have hrest : before.filter (isMember [label]) ++ after.filter (isMember [label]) = [] := by
    rw [← List.filter_append, hstay, List.filter_filter]
    refine List.filter_eq_nil_iff.mpr fun t ht => ?_
    have hno := List.filter_eq_nil_iff.mp hfresh t ht
    simp [hno]
  obtain ⟨hbefore, hafter⟩ := List.append_eq_nil_iff.mp hrest
  rw [heq, List.filter_append, hbefore, List.filter_cons_of_pos hgroup, hafter]
  rfl

/-- Up to their order the nodes are the new branch and those that stay. -/
theorem gather_perm : (gather label members line nodes).Perm
    (group label members line nodes :: nodes.filter (!isMember members ·)) := by
  obtain ⟨before, after, heq, hstay⟩ := gather_eq label members line nodes
  rw [heq, ← hstay]
  exact List.perm_middle

theorem labels_gather :
    ((gather label members line nodes).flatMap labels).Perm (label :: nodes.flatMap labels) := by
  have hgroup : (group label members line nodes).labels =
      (nodes.filter (isMember members)).flatMap labels ++ [label] := labels_branch _ _ _
  have hnodes : (nodes.filter (isMember members) ++ nodes.filter (!isMember members ·)).Perm nodes :=
    List.filter_append_perm _ _
  refine (gather_perm.flatMap_right labels).trans ?_
  rw [List.flatMap_cons, hgroup]
  refine List.Perm.trans ?_ ((hnodes.flatMap_right labels).cons label)
  rw [List.flatMap_append, List.append_assoc]
  exact List.perm_middle

/-- Gathering moves the tokens of nodes about, no more. -/
theorem tokens_gather :
    ((gather label members line nodes).flatMap tokens).Perm (nodes.flatMap tokens) := by
  have hgroup : (group label members line nodes).tokens =
      (nodes.filter (isMember members)).flatMap tokens := tokens_branch _ _ _
  have hnodes : (nodes.filter (isMember members) ++ nodes.filter (!isMember members ·)).Perm nodes :=
    List.filter_append_perm _ _
  refine (gather_perm.flatMap_right tokens).trans ?_
  rw [List.flatMap_cons, hgroup, ← List.flatMap_append]
  exact hnodes.flatMap_right tokens

/-- What occurs among the nodes still occurs among them when some of them are gathered. -/
theorem Occurs.gather {path : List String} {t : ParseTree} (h : Occurs nodes path t) :
    ∃ path', Occurs (gather label members line nodes) path' t := by
  induction h with
  | @top t ht =>
    by_cases hmember : isMember members t = true
    · have hgroup : Occurs (ParseTree.gather label members line nodes) []
          (group label members line nodes) :=
        .top ((mem_gather label members line nodes).mpr (Or.inl rfl))
      exact ⟨_, hgroup.child (List.mem_filter.mpr ⟨ht, hmember⟩)⟩
    · exact ⟨[], .top ((mem_gather label members line nodes).mpr
        (Or.inr ⟨ht, Bool.eq_false_iff.mpr hmember⟩))⟩
  | child _ hc ih =>
    obtain ⟨path', ht⟩ := ih
    exact ⟨_, ht.child hc⟩

end

/-! ## Groups one after another -/

/-- Gather each of the groups in order, each under its own label. -/
def gatherAll (line : Nat) (groups : List (String × List String)) (nodes : List ParseTree) :
    List ParseTree :=
  groups.foldl (fun nodes group => gather group.1 group.2 line nodes) nodes

section
variable {line : Nat} {groups groups' : List (String × List String)} {nodes : List ParseTree}

theorem gatherAll_append : gatherAll line (groups ++ groups') nodes =
    gatherAll line groups' (gatherAll line groups nodes) := List.foldl_append

theorem filter_gatherAll {keep : List String} (hlabels : ∀ g ∈ groups, g.1 ∉ keep)
    (hmembers : ∀ g ∈ groups, ∀ l ∈ keep, l ∉ g.2) :
    (gatherAll line groups nodes).filter (isMember keep) = nodes.filter (isMember keep) := by
  induction groups generalizing nodes with
  | nil => rfl
  | cons g groups ih =>
    have hlabel := hlabels g (List.mem_cons_self ..)
    have hfirst := hmembers g (List.mem_cons_self ..)
    refine Eq.trans (ih ?_ ?_) (filter_gather hlabel hfirst)
    · exact fun g' h => hlabels g' (List.mem_cons_of_mem _ h)
    · exact fun g' h => hmembers g' (List.mem_cons_of_mem _ h)

theorem labels_gatherAll : ((gatherAll line groups nodes).flatMap labels).Perm
    (groups.map Prod.fst ++ nodes.flatMap labels) := by
  induction groups generalizing nodes with
  | nil => exact .refl _
  | cons g groups ih =>
    change ((gatherAll line groups (gather g.1 g.2 line nodes)).flatMap labels).Perm _
    refine ih.trans ((labels_gather.append_left _).trans ?_)
    exact List.perm_middle

theorem Occurs.gatherAll {path : List String} {t : ParseTree} (h : Occurs nodes path t) :
    ∃ path', Occurs (gatherAll line groups nodes) path' t := by
  induction groups generalizing nodes path with
  | nil => exact ⟨path, h⟩
  | cons g groups ih =>
    obtain ⟨path', h'⟩ : ∃ path', Occurs (ParseTree.gather g.1 g.2 line nodes) path' t :=
      h.gather
    exact ih h'

end
end ParseTree
end HandlerGrammar
