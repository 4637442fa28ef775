import HandlerGrammar.Proofs.Tree.Gathering

/-! # Trees with other tokens

The nodes and labels of a tree do not depend on its tokens, apart from where they stand.

* `map`: a tree with its tokens and lines replaced, `map_labeled`: labelling keeps to it;
* `Related`: two trees that differ in their tokens only, and in what way;
* `related_map`: replacing tokens relates trees. -/
namespace HandlerGrammar
namespace ParseTree
set_option autoImplicit false

/-- The tree with other tokens at the leaves and other lines at the branches. -/
def map (onToken : Token → Token) (onLine : Nat → Nat) : ParseTree → ParseTree :=
  fold (fun label t => leaf label (onToken t)) fun label line parts =>
    branch label (onLine line) parts

section
variable (onToken : Token → Token) (onLine : Nat → Nat)

@[simp] theorem map_branch (label : Option String) (line : Nat) (children : List ParseTree) :
    (branch label line children).map onToken onLine =
      branch label (onLine line) (children.map (map onToken onLine)) := by
  rw [map, fold, foldAll_eq_map]

theorem labeled_of_ne {label : String} {line : Nat} {nodes : List ParseTree}
    (h : ∀ t, nodes ≠ [leaf none t]) : labeled label line nodes = branch (some label) line nodes := by
  unfold labeled
  split
  · exact absurd rfl (h _)
  · rfl

/-- A lone unlabelled leaf stays one, and no other nodes become one. -/
theorem map_labeled (label : String) (line : Nat) (nodes : List ParseTree) :
    (labeled label line nodes).map onToken onLine =
      labeled label (onLine line) (nodes.map (map onToken onLine)) := by
  by_cases h : ∃ t, nodes = [leaf none t]
  · obtain ⟨t, rfl⟩ := h
    rfl
  · have hne : ∀ t, nodes ≠ [leaf none t] := fun t ht => h ⟨t, ht⟩
    have hmap : ∀ t, nodes.map (map onToken onLine) ≠ [leaf none t] := by
      intro t ht
      obtain ⟨n, rfl, hn⟩ := List.map_eq_singleton_iff.mp ht
      cases n with
      | leaf label' t' =>
        obtain ⟨rfl, -⟩ := ParseTree.leaf.inj hn
        exact hne t' rfl
      | branch label' line' children =>
        rw [map_branch] at hn
        cases hn
    rw [labeled_of_ne hne, labeled_of_ne hmap, map_branch]

variable {α : Type} (onLeaf : Option String → Token → α)
  (onBranch : Option String → Nat → List α → α)

mutual
/-- What a fold gives for the tree with other tokens, it gives for the tree with these put in. -/
theorem fold_map (t : ParseTree) : (t.map onToken onLine).fold onLeaf onBranch =
    t.fold (fun label token => onLeaf label (onToken token))
      fun label line => onBranch label (onLine line) := by
  match t with
  | leaf label token => rfl
  | branch label line children =>
    rw [map_branch, fold, fold, foldAll_map]

theorem foldAll_map (ts : List ParseTree) :
    foldAll onLeaf onBranch (ts.map (map onToken onLine)) =
      foldAll (fun label token => onLeaf label (onToken token))
        (fun label line => onBranch label (onLine line)) ts := by
  match ts with
  | [] => rfl
  | t :: ts => rw [List.map_cons, foldAll, foldAll, fold_map, foldAll_map]
end

end

/-- The trees have the same nodes, labels and lines, and related tokens. -/
inductive Related (R : Token → Token → Prop) : ParseTree → ParseTree → Prop
  | leaf {label : Option String} {t t' : Token} : R t t' → Related R (leaf label t) (leaf label t')
  | branch {label : Option String} {line : Nat} {children children' : List ParseTree} :
      List.Forall₂ (Related R) children children' →
      Related R (branch label line children) (branch label line children')

section
variable {R : Token → Token → Prop} {onToken : Token → Token}

mutual
theorem related_map (h : ∀ t, R t (onToken t)) (tree : ParseTree) :
    Related R tree (tree.map onToken id) := by
  match tree with
  | leaf label t => exact .leaf (h t)
  | branch label line children =>
    rw [map_branch]
    exact .branch (related_mapAll h children)

theorem related_mapAll (h : ∀ t, R t (onToken t)) (trees : List ParseTree) :
    List.Forall₂ (Related R) trees (trees.map (map onToken id)) := by
  match trees with
  | [] => exact .nil
  | tree :: trees => exact .cons (related_map h tree) (related_mapAll h trees)
end

end
end ParseTree
end HandlerGrammar
