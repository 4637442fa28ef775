import HandlerGrammar.Proofs.Document.Nesting

/-! # Nested wrappers are gathered once

A container gathers each wrapper nested in it, through wrappers only, under exactly one node,
whichever members it has: inner wrappers first, so that a wrapper finds the nodes of those nested in
it among what it gathers, and its own members as they were matched.

* `HandlerTree.nestedWrappers`, `wrapperGroups_eq`: the wrappers gathered in a container;
* `nestedWrappers_split`: when a wrapper is gathered, those nested in it have been;
* `Holds`, `Gathered`: what the node of a wrapper holds, what a container makes of its members;
* `WellNested.count_wrapper`, `WellNested.holds_wrapper`: what gathering makes of nodes that mirror
  the members of a container. -/
namespace HandlerGrammar
open Derivation HandlerTree ParseTree
set_option autoImplicit false

variable {C : Type}

namespace HandlerTree

mutual
/-- The wrappers nested in a container through wrappers only, inner ones first. -/
def nestedWrappers : List (HandlerTree C) → List (HandlerTree C)
  | [] => []
  | t :: ts => wrappersOf t ++ nestedWrappers ts

def wrappersOf : HandlerTree C → List (HandlerTree C)
  | .node h us => if h.mode = .wrapper then nestedWrappers us ++ [.node h us] else []
end

theorem wrappersOf_of_mode {w : HandlerTree C} (h : w.handler.mode = .wrapper) :
    wrappersOf w = nestedWrappers w.children ++ [w] := by
  obtain ⟨handler, us⟩ := w
  exact if_pos h

theorem mem_wrappersOf {w : HandlerTree C} (h : w.handler.mode = .wrapper) : w ∈ wrappersOf w := by
  rw [wrappersOf_of_mode h]
  exact List.mem_append_right _ (List.mem_singleton_self _)

/-- A wrapper's name with the labels that it gathers. -/
def groupOf (w : HandlerTree C) : String × List String := (w.name, memberLabels w.children)

/-- The labels of a wrapper's own members, those of the wrappers nested in it apart. -/
def ownLabels (w : HandlerTree C) : List String :=
  if w.children.isEmpty then [propertyLabel]
  else (w.children.filter (·.handler.mode ≠ .wrapper)).map name

mutual
theorem wrapperGroups_eq (ts : List (HandlerTree C)) :
    wrapperGroups ts = (nestedWrappers ts).map groupOf := by
  match ts with
  | [] => rfl
  | t :: ts =>
    have ht := wrapperGroup_eq t
    have hts := wrapperGroups_eq ts
    rw [wrapperGroups, nestedWrappers, List.map_append, ht, hts]

theorem wrapperGroup_eq (t : HandlerTree C) : wrapperGroup t = (wrappersOf t).map groupOf := by
  match t with
  | .node h us =>
    have hus := wrapperGroups_eq us
    unfold wrapperGroup wrappersOf
    split
    · rw [List.map_append, hus]
      rfl
    · rfl
end

theorem map_fst_wrapperGroups (ts : List (HandlerTree C)) :
    (wrapperGroups ts).map Prod.fst = (nestedWrappers ts).map name := by
  rw [wrapperGroups_eq, List.map_map]
  rfl

mutual
/-- What is nested in a container are its wrappers, and its members with what is nested in them. -/
theorem nestedWrappers_perm (ts : List (HandlerTree C)) :
    (nestedWrappers ts ++ subtreesOf (flattened ts)).Perm (subtreesOf ts) := by
  match ts with
  | [] => exact .refl _
  | t :: ts =>
    have ht := wrappersOf_perm t
    have hts := nestedWrappers_perm ts
    rw [nestedWrappers, flattened, subtreesOf_append, subtreesOf, List.append_assoc]
    refine List.Perm.trans ?_ (ht.append hts)
    rw [List.append_assoc]
    exact (List.perm_append_comm_assoc _ _ _).append_left _

theorem wrappersOf_perm (t : HandlerTree C) :
    (wrappersOf t ++ subtreesOf (unwrapped t)).Perm t.subtrees := by
  match t with
  | .node h us =>
    have hus := nestedWrappers_perm us
    unfold wrappersOf unwrapped
    split
    · rw [List.append_assoc]
      exact List.perm_middle.trans (hus.cons _)
    · rw [List.nil_append, subtreesOf, subtreesOf, List.append_nil]
end

mutual
/-- A wrapper comes right behind those nested in it. -/
theorem nestedWrappers_split {ts : List (HandlerTree C)} {w : HandlerTree C}
    (h : w ∈ nestedWrappers ts) : w.handler.mode = .wrapper ∧ ∃ before after,
      nestedWrappers ts = before ++ nestedWrappers w.children ++ w :: after := by
  match ts with
  | [] => cases h
  | t :: ts =>
    rcases List.mem_append.mp h with h | h
    · obtain ⟨hmode, before, after, heq⟩ := wrappersOf_split h
      refine ⟨hmode, before, after ++ nestedWrappers ts, ?_⟩
      rw [nestedWrappers, heq, List.append_assoc, List.cons_append]
    · obtain ⟨hmode, before, after, heq⟩ := nestedWrappers_split h
      refine ⟨hmode, wrappersOf t ++ before, after, ?_⟩
      simp only [nestedWrappers, heq, List.append_assoc]

theorem wrappersOf_split {t w : HandlerTree C} (h : w ∈ wrappersOf t) :
    w.handler.mode = .wrapper ∧ ∃ before after,
      wrappersOf t = before ++ nestedWrappers w.children ++ w :: after := by
  match t with
  | .node h' us =>
    unfold wrappersOf at h ⊢
    split at h
    · next hmode =>
      rw [if_pos hmode]
      rcases List.mem_append.mp h with h | h
      · obtain ⟨hmode, before, after, heq⟩ := nestedWrappers_split h
        refine ⟨hmode, before, after ++ [.node h' us], ?_⟩
        rw [heq, List.append_assoc, List.cons_append]
      · obtain rfl := List.mem_singleton.mp h
        exact ⟨hmode, [], [], rfl⟩
    · cases h
end

theorem mem_nestedWrappers_of_child {ts : List (HandlerTree C)} {u : HandlerTree C} (hu : u ∈ ts)
    (hmode : u.handler.mode = .wrapper) : u ∈ nestedWrappers ts := by
  induction ts with
  | nil => cases hu
  | cons t ts ih =>
    rcases List.mem_cons.mp hu with rfl | hu
    · exact List.mem_append_left _ (mem_wrappersOf hmode)
    · exact List.mem_append_right _ (ih hu)

mutual
/-- A wrapper nested in a container is a child of the container or of another such wrapper. -/
theorem parent_of_nestedWrapper {ts : List (HandlerTree C)} {w : HandlerTree C}
    (h : w ∈ nestedWrappers ts) : w ∈ ts ∨ ∃ t ∈ subtreesOf ts, w ∈ t.children := by
  match ts with
  | [] => cases h
  | t :: ts =>
    rcases List.mem_append.mp h with h | h
    · rcases parent_of_wrapper h with rfl | ⟨t', ht', hw⟩
      · exact Or.inl (List.mem_cons_self ..)
      · exact Or.inr ⟨t', List.mem_append_left _ ht', hw⟩
    · rcases parent_of_nestedWrapper h with h | ⟨t', ht', hw⟩
      · exact Or.inl (List.mem_cons_of_mem _ h)
      · exact Or.inr ⟨t', List.mem_append_right _ ht', hw⟩

theorem parent_of_wrapper {t w : HandlerTree C} (h : w ∈ wrappersOf t) :
    w = t ∨ ∃ t' ∈ t.subtrees, w ∈ t'.children := by
  match t with
  | .node h' us =>
    unfold wrappersOf at h
    split at h
    · rcases List.mem_append.mp h with h | h
      · rcases parent_of_nestedWrapper h with h | ⟨t', ht', hw⟩
        · exact Or.inr ⟨_, List.mem_cons_self .., h⟩
        · exact Or.inr ⟨t', List.mem_cons_of_mem _ ht', hw⟩
      · exact Or.inl (List.mem_singleton.mp h)
    · cases h
end

theorem mem_subtreesOf_of_nestedWrapper {roots : List (HandlerTree C)} {t w : HandlerTree C}
    (ht : t ∈ subtreesOf roots) (hw : w ∈ nestedWrappers t.children) : w ∈ subtreesOf roots := by
  have hperm := nestedWrappers_perm t.children
  exact (children_sublist ht).subset (hperm.mem_iff.mp (List.mem_append_left _ hw))

theorem mem_ownLabels {w : HandlerTree C} {l : String} : l ∈ ownLabels w ↔
    (∃ u ∈ w.children, u.handler.mode ≠ .wrapper ∧ u.name = l) ∨
      w.children = [] ∧ l = propertyLabel := by
  unfold ownLabels
  cases w.children with
  | nil => simp
  | cons u us =>
    rw [if_neg (by simp)]
    simp only [List.mem_map, List.mem_filter, decide_eq_true_eq, and_assoc, reduceCtorEq, false_and,
      or_false]

end HandlerTree

/-! ## Labels in mirrored nodes -/

theorem labels_eq_children (n : ParseTree) :
    n.labels = n.children.flatMap labels ++ n.label.toList := by
  cases n with
  | leaf label t => rfl
  | branch label line children => exact labels_branch label line children

/-- Nodes that mirror a forest carry names of the forest and generic labels only. -/
theorem Mirrors.labels {ts : List (HandlerTree C)} {n : ParseTree} (h : Mirrors ts n) :
    ∀ l ∈ n.labels, l ∈ genericLabels ∨ ∃ t ∈ subtreesOf ts, t.name = l := by
  induction h with
  | @generic ts n hlabel _ ih =>
    intro l hl
    rw [labels_eq_children] at hl
    rcases List.mem_append.mp hl with hl | hl
    · obtain ⟨c, hc, hl⟩ := List.mem_flatMap.mp hl
      rcases ih c hc l hl with h | ⟨t, ht, -⟩
      · exact Or.inl h
      · cases ht
    · exact Or.inl (hlabel l (Option.mem_toList.mp hl))
  | @handled ts t n ht hlabel _ ih =>
    intro l hl
    rw [labels_eq_children] at hl
    rcases List.mem_append.mp hl with hl | hl
    · obtain ⟨c, hc, hl⟩ := List.mem_flatMap.mp hl
      rcases ih c hc l hl with h | ⟨t', ht', hname⟩
      · exact Or.inl h
      · exact Or.inr ⟨t', (children_sublist (subset_subtreesOf ht)).subset ht', hname⟩
    · refine Or.inr ⟨t, subset_subtreesOf ht, ?_⟩
      exact Option.some.inj (hlabel.symm.trans (Option.mem_toList.mp hl))

/-! ## Wrappers of a well nested forest -/

/-- The wrapper has handlers of its own, or it is the only one in the container that has none. -/
def Sole (ts : List (HandlerTree C)) (w : HandlerTree C) : Prop :=
  w.children = [] → ∀ w' ∈ nestedWrappers ts, w'.children = [] → w' = w

section
variable {roots : List (HandlerTree C)} (hroots : WellNested roots)
include hroots

/-- No group but its own parent's takes what hangs under a wrapper. -/
theorem WellNested.not_member {w w' u : HandlerTree C} (hw : w ∈ subtreesOf roots)
    (hw' : w' ∈ subtreesOf roots) (hne : w' ≠ w) (hu : u ∈ w.children) :
    u.name ∉ memberLabels w'.children := by
  intro hmember
  have hu' := hroots.distinct.mem_children (mem_subtreesOf_child hw hu) hw' hmember
  have hparent := hroots.child w hw u hu
  rw [hroots.child w' hw' u hu'] at hparent
  exact hne (hroots.unique hw' hw (Option.some.inj hparent))

variable {t : HandlerTree C} (ht : t ∈ subtreesOf roots)
include ht

/-- The names of the wrappers nested in a container are all different, and no name of a member. -/
theorem WellNested.nodup_wrappers : ((nestedWrappers t.children).map HandlerTree.name).Nodup ∧
    ∀ w ∈ nestedWrappers t.children, ∀ u ∈ subtreesOf (flattened t.children), u.name ≠ w.name := by
  have hperm := (nestedWrappers_perm t.children).map HandlerTree.name
  have hnodup := hroots.nodup.sublist ((children_sublist ht).map _)
  rw [← hperm.nodup_iff, List.map_append] at hnodup
  obtain ⟨hwrappers, -, hapart⟩ := List.nodup_append'.mp hnodup
  refine ⟨hwrappers, fun w hw u hu hname => ?_⟩
  refine hapart (List.mem_map_of_mem hw) ?_
  rw [← hname]
  exact List.mem_map_of_mem hu

/-- Nodes that mirror the members of a container carry no name of a wrapper nested in it. -/
theorem WellNested.not_label {n : ParseTree} (hn : Mirrors (flattened t.children) n)
    {w : HandlerTree C} (hw : w ∈ nestedWrappers t.children) : w.name ∉ n.labels := by
  intro hl
  rcases hn.labels _ hl with h | ⟨u, hu, hname⟩
  · exact not_generic_of_valid (hroots.valid w (mem_subtreesOf_of_nestedWrapper ht hw)) h
  · exact (hroots.nodup_wrappers ht).2 w hw u hu hname

/-- The groups of other wrappers leave the own members of a wrapper alone. -/
theorem WellNested.own_apart {w w' : HandlerTree C} (hw : w ∈ nestedWrappers t.children)
    (hsole : Sole t.children w) (hw' : w' ∈ nestedWrappers t.children) (hne : w' ≠ w) :
    w'.name ∉ ownLabels w ∧ ∀ l ∈ ownLabels w, l ∉ memberLabels w'.children := by
  have hforest := mem_subtreesOf_of_nestedWrapper ht hw
  have hforest' := mem_subtreesOf_of_nestedWrapper ht hw'
  have hproperty : ∀ u ∈ subtreesOf roots, u.name ≠ propertyLabel :=
    fun u hu => ne_property_of_valid (hroots.valid u hu)
  refine ⟨fun hown => ?_, fun l hl => ?_⟩
  · rcases mem_ownLabels.mp hown with ⟨u, hu, hmode, hname⟩ | ⟨-, hname⟩
    · obtain rfl := hroots.unique (mem_subtreesOf_child hforest hu) hforest' hname
      exact hmode (nestedWrappers_split hw').1
    · exact hproperty w' hforest' hname
  · rcases mem_ownLabels.mp hl with ⟨u, hu, -, rfl⟩ | ⟨hempty, rfl⟩
    · exact hroots.not_member hforest hforest' hne hu
    · intro hmember
      rcases mem_memberLabels.mp hmember with ⟨u, hu, hname⟩ | ⟨hempty', -⟩
      · exact hproperty u (mem_subtreesOf_child hforest' hu) hname
      · exact hne (hsole hempty w' hw' hempty')

end

/-! ## What is gathered -/

/-- The node of a wrapper holds the wrapper's own members in their order and one node for each
wrapper nested in it, nothing else. -/
structure Holds (w : HandlerTree C) (members : List ParseTree) (n : ParseTree) : Prop where
  label : n.label = some w.name
  own : n.children.filter (isMember (ownLabels w)) = members.filter (isMember (ownLabels w))
  nested : ∀ u ∈ w.children, u.handler.mode = .wrapper →
    (n.children.filter (isMember [u.name])).length = 1
  only : ∀ c ∈ n.children, isMember (ownLabels w) c = true ∨
    ∃ u ∈ w.children, u.handler.mode = .wrapper ∧ c.label = some u.name

/-- What a container makes of the nodes of its members: for each wrapper nested in it through
wrappers only, its name is on one node, which holds the wrapper's members. -/
structure Gathered (ts : List (HandlerTree C)) (members nodes : List ParseTree) : Prop where
  named : ∀ n ∈ members, n.label = some propertyLabel ∨ ∃ u ∈ flattened ts, n.label = some u.name
  once : ∀ w ∈ nestedWrappers ts, (nodes.flatMap labels).count w.name = 1
  holds : ∀ w ∈ nestedWrappers ts, Sole ts w → ∃ path n, Occurs nodes path n ∧ Holds w members n

/-- The wrappers gathered before one of them neither take its own members nor are named so. -/
theorem filter_wrappers {keep : List String} {ws : List (HandlerTree C)} {line : Nat}
    {nodes : List ParseTree}
    (hapart : ∀ w ∈ ws, w.name ∉ keep ∧ ∀ l ∈ keep, l ∉ memberLabels w.children) :
    (gatherAll line (ws.map groupOf) nodes).filter (isMember keep) =
      nodes.filter (isMember keep) := by
  refine filter_gatherAll (fun g hg => ?_) fun g hg => ?_
  · obtain ⟨w, hw, rfl⟩ := List.mem_map.mp hg
    exact (hapart w hw).1
  · obtain ⟨w, hw, rfl⟩ := List.mem_map.mp hg
    exact (hapart w hw).2

/-- Where nothing has touched the own members of a wrapper, and each wrapper nested in it has one
node, the wrapper's group holds them. -/
theorem holds_group {w : HandlerTree C} {line : Nat} {members nodes : List ParseTree}
    (hown : nodes.filter (isMember (ownLabels w)) = members.filter (isMember (ownLabels w)))
    (hnested : ∀ u ∈ w.children, u.handler.mode = .wrapper →
      (nodes.filter (isMember [u.name])).length = 1) :
    Holds w members (group w.name (memberLabels w.children) line nodes) := by
  have hsub : ownLabels w ⊆ memberLabels w.children := by
    intro l hl
    rcases mem_ownLabels.mp hl with ⟨u, hu, -, hname⟩ | h
    · exact mem_memberLabels.mpr (Or.inl ⟨u, hu, hname⟩)
    · exact mem_memberLabels.mpr (Or.inr h)
  refine ⟨rfl, (filter_filter_isMember hsub nodes).trans hown, fun u hu hmode => ?_, fun c hc => ?_⟩
  · have hname : [u.name] ⊆ memberLabels w.children := by
      refine List.cons_subset.mpr ⟨mem_memberLabels.mpr (Or.inl ⟨u, hu, rfl⟩), List.nil_subset _⟩
    exact (congrArg List.length (filter_filter_isMember hname nodes)).trans (hnested u hu hmode)
  · obtain ⟨l, hl, hlabel⟩ := isMember_iff.mp (List.mem_filter.mp hc).2
    rcases mem_memberLabels.mp hl with ⟨u, hu, rfl⟩ | h
    · by_cases hmode : u.handler.mode = .wrapper
      · exact Or.inr ⟨u, hu, hmode, hlabel⟩
      · exact Or.inl (isMember_iff.mpr ⟨_, mem_ownLabels.mpr (Or.inl ⟨u, hu, hmode, rfl⟩), hlabel⟩)
    · exact Or.inl (isMember_iff.mpr ⟨l, mem_ownLabels.mpr (Or.inr h), hlabel⟩)

section
variable {roots : List (HandlerTree C)} (hroots : WellNested roots) {t : HandlerTree C}
  (ht : t ∈ subtreesOf roots) {line : Nat} {members : List ParseTree}
  (hmembers : ∀ n ∈ members, Mirrors (flattened t.children) n)
include hroots ht hmembers

theorem WellNested.count_wrapper {w : HandlerTree C} (hw : w ∈ nestedWrappers t.children) :
    ((gatherAll line (wrapperGroups t.children) members).flatMap labels).count w.name = 1 := by
  have hfresh : w.name ∉ members.flatMap labels := by
    intro hl
    obtain ⟨n, hn, hl⟩ := List.mem_flatMap.mp hl
    exact hroots.not_label ht (hmembers n hn) hw hl
  rw [labels_gatherAll.count_eq, List.count_append, map_fst_wrapperGroups,
    List.count_eq_zero.mpr hfresh]
  exact List.count_eq_one_of_mem (hroots.nodup_wrappers ht).1 (List.mem_map_of_mem hw)

/-- The node of a wrapper nested in a wrapper is there when the outer one is gathered. -/
theorem WellNested.filter_nested {w u : HandlerTree C} (hu : u ∈ w.children)
    (hmode : u.handler.mode = .wrapper) {before after : List (HandlerTree C)}
    (hsplit : nestedWrappers t.children = before ++ nestedWrappers w.children ++ w :: after) :
    ((gatherAll line ((before ++ nestedWrappers w.children).map groupOf) members).filter
      (isMember [u.name])).length = 1 := by
  have hnodup := (hroots.nodup_wrappers ht).1
  have hmem : ∀ {w' : HandlerTree C}, w' ∈ before ++ nestedWrappers w.children ∨ w' = w →
      w' ∈ nestedWrappers t.children := by
    intro w' hw'
    rw [hsplit]
    rcases hw' with hw' | rfl
    · exact List.mem_append_left _ hw'
    · exact List.mem_append_right _ (List.mem_cons_self ..)
  have hw := mem_subtreesOf_of_nestedWrapper ht (hmem (Or.inr rfl))
  have hinner : u ∈ before ++ nestedWrappers w.children :=
    List.mem_append_right _ (mem_nestedWrappers_of_child hu hmode)
  rw [hsplit, List.map_append] at hnodup
  obtain ⟨hearlier, -, hlater⟩ := List.nodup_append'.mp hnodup
  -- the other wrappers gathered before have other names, and `u` is none of their children
  have hapart : ∀ w' ∈ before ++ nestedWrappers w.children, w'.name ≠ u.name →
      w'.name ∉ [u.name] ∧ ∀ l ∈ [u.name], l ∉ memberLabels w'.children := by
    intro w' hw' hne
    refine ⟨by simpa using hne, fun l hl => ?_⟩
    rw [List.mem_singleton.mp hl]
    refine hroots.not_member hw (mem_subtreesOf_of_nestedWrapper ht (hmem (Or.inl hw'))) ?_ hu
    rintro rfl
    exact hlater (List.mem_map_of_mem hw') (List.mem_cons_self ..)
  obtain ⟨first, second, heq⟩ := List.append_of_mem hinner
  rw [heq] at hearlier hapart ⊢
  rw [List.map_append, List.map_cons] at hearlier
  obtain ⟨-, hsecond, hfirst⟩ := List.nodup_append'.mp hearlier
  have hfresh : (gatherAll line (first.map groupOf) members).filter (isMember [u.name]) = [] := by
    rw [filter_wrappers fun w' hw' => hapart w' (List.mem_append_left _ hw') fun hname =>
      hfirst (List.mem_map_of_mem hw') (by simp [hname])]
    refine List.filter_eq_nil_iff.mpr fun n hn hmember => ?_
    obtain ⟨l, hl, hlabel⟩ := isMember_iff.mp hmember
    rw [List.mem_singleton.mp hl] at hlabel
    refine hroots.not_label ht (hmembers n hn) (hmem (Or.inl hinner)) ?_
    rw [labels_eq_children, hlabel]
    exact List.mem_append_right _ (List.mem_singleton_self _)
  rw [List.map_append, List.map_cons, gatherAll_append]
  change ((gatherAll line (second.map groupOf) (gather u.name (memberLabels u.children) line
    (gatherAll line (first.map groupOf) members))).filter (isMember [u.name])).length = 1
  rw [filter_wrappers fun w' hw' =>
    hapart w' (List.mem_append_right _ (List.mem_cons_of_mem _ hw')) fun hname =>
      (List.nodup_cons.mp hsecond).1 (hname ▸ List.mem_map_of_mem hw'), filter_gather_self hfresh]
  rfl

theorem WellNested.holds_wrapper {w : HandlerTree C} (hw : w ∈ nestedWrappers t.children)
    (hsole : Sole t.children w) : ∃ path n,
      Occurs (gatherAll line (wrapperGroups t.children) members) path n ∧ Holds w members n := by
  obtain ⟨-, before, after, hsplit⟩ := nestedWrappers_split hw
  have hnested : ∀ u ∈ w.children, u.handler.mode = .wrapper →
      ((gatherAll line ((before ++ nestedWrappers w.children).map groupOf) members).filter
        (isMember [u.name])).length = 1 :=
    fun u hu hmode => hroots.filter_nested ht hmembers hu hmode hsplit
  have hnodup := (hroots.nodup_wrappers ht).1
  rw [hsplit, List.map_append] at hnodup
  have hlater := (List.nodup_append'.mp hnodup).2.2
  generalize hearlier : before ++ nestedWrappers w.children = earlier at hsplit hlater hnested
  have hapart : ∀ w' ∈ earlier, w'.name ∉ ownLabels w ∧
      ∀ l ∈ ownLabels w, l ∉ memberLabels w'.children := by
    intro w' hw'
    have hmem : w' ∈ nestedWrappers t.children := by
      rw [hsplit]
      exact List.mem_append_left _ hw'
    refine hroots.own_apart ht hw hsole hmem ?_
    rintro rfl
    exact hlater (List.mem_map_of_mem hw') (List.mem_cons_self ..)
  generalize hnodes : gatherAll line (earlier.map groupOf) members = nodes at hnested
  have hown : nodes.filter (isMember (ownLabels w)) = members.filter (isMember (ownLabels w)) := by
    rw [← hnodes]
    exact filter_wrappers hapart
  have hgroups : gatherAll line (wrapperGroups t.children) members = gatherAll line
      (after.map groupOf) (gather w.name (memberLabels w.children) line nodes) := by
    rw [wrapperGroups_eq, hsplit, List.map_append, List.map_cons, gatherAll_append, hnodes]
    rfl
  have htop : Occurs (gather w.name (memberLabels w.children) line nodes) []
      (group w.name (memberLabels w.children) line nodes) :=
    .top ((mem_gather _ _ _ _).mpr (Or.inl rfl))
  obtain ⟨path, hoccurs⟩ : ∃ path, Occurs (gatherAll line (wrapperGroups t.children) members) path
      (group w.name (memberLabels w.children) line nodes) := by
    rw [hgroups]
    exact htop.gatherAll
  exact ⟨path, _, hoccurs, holds_group hown hnested⟩

end

end HandlerGrammar
