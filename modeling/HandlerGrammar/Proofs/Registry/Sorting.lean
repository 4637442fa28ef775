import HandlerGrammar.Proofs.Registry.Assembly
import HandlerGrammar.Registry.Basic

/-! # Registering and sorting

A registry that is not sorted holds what was registered, in order of names. Sorting it succeeds
exactly if the handlers are well formed, and makes the forest in which each of them stands once,
where its chain says.

* `Nests`: forests in which handlers stand where their chains say;
* `Collected`, `register_holding`, `Collected.sort_ok_iff`: what the calls do before sorting;
* `Reached`, `Reached.sound`: registries that calls lead to;
* `sort_registered`: what sorting makes of registered batches. -/
namespace HandlerGrammar
open HandlerTree
set_option autoImplicit false

variable {C : Type}

/-! ## Forests that nest handlers by their chains -/

/-- Trees of a forest, each nested directly in the one before it, with `t` nested in the last. -/
def Lineage (roots : List (HandlerTree C)) (above : List (HandlerTree C)) (t : HandlerTree C) : Prop :=
  above ⊆ subtreesOf roots ∧ (above ++ [t]).IsChain fun u v => v ∈ u.children

/-- A forest of just the given handlers. Where the chain of one is empty it is a root, else it stands
under its name below its parent, and its chain names those that it is nested in, from one of them
down to the parent. -/
structure Nests (hs : List (Handler C)) (roots : List (HandlerTree C)) : Prop where
  once : (handlersOf roots).Perm hs
  distinct : ((subtreesOf roots).map HandlerTree.name).Nodup
  root : ∀ t ∈ subtreesOf roots, t ∈ roots ↔ t.handler.chain = []
  child : ∀ t ∈ subtreesOf roots, ∀ parent, t.handler.parent? = some parent →
    ∃ u ∈ subtreesOf roots, u.name = parent ∧ u.children.find? (·.name == t.name) = some t
  lineage : ∀ t ∈ subtreesOf roots, ∃ above, above.map HandlerTree.name = t.handler.chain ∧
    Lineage roots above t

theorem Handler.parent?_eq_none {h : Handler C} : h.parent? = none ↔ h.chain = [] :=
  List.getLast?_eq_none_iff

section
variable {hs : List (Handler C)}

/-- Each tree of the forest stands there as `exists_mem_forest` places its handler. -/
theorem placed_of_mem_forest (hnames : (hs.map (·.name)).Nodup) {t : HandlerTree C}
    (ht : t ∈ subtreesOf (forest hs)) : (t.handler.parent? = none → t ∈ forest hs) ∧
      ∀ name, t.handler.parent? = some name →
        ∃ u ∈ subtreesOf (forest hs), u.name = name ∧ t ∈ u.children := by
  obtain ⟨hnodup, hgrown⟩ := grown_forest hnames
  obtain ⟨depth, h, k, heq, hh, -, hk⟩ := hgrown t ht
  obtain ⟨t', ht', hhandler, hroot, hchild⟩ := exists_mem_forest hnames hh hk
  have hself : t.handler = h := by rw [heq, handler_grow]
  obtain rfl : t' = t := List.inj_on_of_nodup_map hnodup ht' ht (hhandler.trans hself.symm)
  rw [hself]
  exact ⟨hroot, hchild⟩

/-- A chain of parents that ends at the parent of a tree's handler names trees above it. -/
theorem exists_lineage (hnames : (hs.map (·.name)).Nodup) {chain : List String}
    (hlinked : chain.IsChain fun outer inner => Declares hs inner outer) {t : HandlerTree C}
    (ht : t ∈ subtreesOf (forest hs)) (hlast : ∀ parent ∈ chain.getLast?, t.handler.parent? = some parent) :
    ∃ above, above.map HandlerTree.name = chain ∧ Lineage (forest hs) above t := by
  induction chain using List.reverseRecOn generalizing t with
  | nil => exact ⟨[], rfl, List.nil_subset _, List.isChain_singleton t⟩
  | append_singleton chain parent ih =>
    obtain ⟨u, hu, rfl, hchild⟩ := (placed_of_mem_forest hnames ht).2 parent (hlast parent (by simp))
    obtain ⟨hlinked, -, hjoint⟩ := List.isChain_append.mp hlinked
    obtain ⟨above, hnamed, hsub, hline⟩ := ih hlinked hu fun outer houter => by
      obtain ⟨h, hh, hname, hparent⟩ := hjoint outer houter u.name rfl
      rwa [handler_unique hnames hh (handler_mem_of_forest hnames hu) hname] at hparent
    refine ⟨above ++ [u], by rw [List.map_append, hnamed]; rfl, ?_, ?_⟩
    · exact List.append_subset.mpr ⟨hsub, List.cons_subset.mpr ⟨hu, List.nil_subset _⟩⟩
    · rw [List.isChain_append]
      refine ⟨hline, List.isChain_singleton t, fun v hv w hw => ?_⟩
      rw [List.getLast?_concat, Option.mem_some_iff] at hv
      rw [List.head?_cons, Option.mem_some_iff] at hw
      rw [← hv, ← hw]
      exact hchild

theorem nests_forest (hnames : (hs.map (·.name)).Nodup)
    (hvalid : ∀ h ∈ hs, Handler.isValidName h.name = true) (hwell : WellFormed hs)
    (hcollapsed : ∀ h ∈ hs, collapseRepeats h.chain = h.chain) : Nests hs (forest hs) := by
  have hnested := wellNested_forest hnames hvalid
  have hmem : ∀ t ∈ subtreesOf (forest hs), t.handler ∈ hs := fun t ht =>
    handler_mem_of_forest hnames ht
  refine ⟨hwell.handlers_forest hnames, hnested.nodup, fun t ht => ⟨fun hroot => ?_, fun hchain => ?_⟩,
    fun t ht parent hparent => ?_, fun t ht => ?_⟩
  · exact Handler.parent?_eq_none.mp (hnested.root t hroot)
  · exact (placed_of_mem_forest hnames ht).1 (Handler.parent?_eq_none.mpr hchain)
  · obtain ⟨u, hu, hname, hchild⟩ := (placed_of_mem_forest hnames ht).2 parent hparent
    refine ⟨u, hu, hname, ?_⟩
    cases hfound : u.children.find? (·.name == t.name) with
    | none => exact absurd (beq_self_eq_true t.name) (List.find?_eq_none.mp hfound t hchild)
    | some v =>
      have hname' : v.name = t.name := by simpa using List.find?_some hfound
      have hv := mem_subtreesOf_child hu (List.mem_of_find?_eq_some hfound)
      rw [hnested.unique hv ht hname']
  · refine exists_lineage hnames ?_ ht fun parent hparent => hparent
    rw [← hcollapsed _ (hmem t ht)]
    exact hwell.linked _ (hmem t ht)

end

namespace Registry

/-! ## Registering -/

/-- Handlers in order of names, all of them valid. -/
structure Collected (hs : List (Handler C)) : Prop where
  ordered : (hs.map (·.name)).Pairwise (· < ·)
  valid : ∀ h ∈ hs, Handler.isValidName h.name = true

/-- The registry that holds handlers, not yet sorted. -/
def holding (hs : List (Handler C)) : Registry C := ⟨hs.map (.node · []), false⟩

theorem Collected.nil : Collected ([] : List (Handler C)) :=
  ⟨List.Pairwise.nil, fun _ hmem => absurd hmem List.not_mem_nil⟩

theorem Collected.nodup {hs : List (Handler C)} (h : Collected hs) : (hs.map (·.name)).Nodup :=
  h.ordered.imp fun hlt => String.ne_of_lt hlt

/-- Handlers with new names come to their places among the ones held. -/
theorem insertAll_perm {batch : List (Handler C)} {ts : List (HandlerTree C)}
    (hnodup : (batch.map (·.name) ++ ts.map HandlerTree.name).Nodup) :
    (insertAll batch ts).Perm (batch.map (.node · []) ++ ts) := by
  induction batch generalizing ts with
  | nil => exact .refl _
  | cons h batch ih =>
    rw [List.map_cons, List.cons_append, List.nodup_cons, List.mem_append, not_or] at hnodup
    obtain ⟨⟨hbatch, hts⟩, hrest⟩ := hnodup
    have hinsert : ((HandlerTree.node h []).insertByName ts).Perm (.node h [] :: ts) :=
      insertByName_perm fun u hu heq => hts (List.mem_map.mpr ⟨u, hu, heq⟩)
    have hnext : (batch.map (·.name) ++
        ((HandlerTree.node h []).insertByName ts).map HandlerTree.name).Nodup := by
      rw [((hinsert.map HandlerTree.name).append_left _).nodup_iff, List.map_cons,
        List.perm_middle.nodup_iff, List.nodup_cons, List.mem_append, not_or]
      exact ⟨⟨hbatch, hts⟩, hrest⟩
    exact (ih hnext).trans ((hinsert.append_left _).trans List.perm_middle)

theorem insertAll_ascending {batch : List (Handler C)} {ts : List (HandlerTree C)}
    (h : Ascending ts) : Ascending (insertAll batch ts) := by
  induction batch generalizing ts with
  | nil => exact h
  | cons g batch ih => exact ih (ascending_insertByName h)

/-- A batch passes exactly if its names are valid and differ from each other and from those taken. -/
theorem checkNames_ok_iff {taken : List String} (htaken : taken.Nodup) {batch : List (Handler C)} :
    checkNames taken batch = .ok () ↔ (∀ h ∈ batch, Handler.isValidName h.name = true) ∧
      (batch.map (·.name) ++ taken).Nodup := by
  induction batch generalizing taken with
  | nil => exact iff_of_true rfl ⟨fun _ hmem => absurd hmem List.not_mem_nil, htaken⟩
  | cons g batch ih =>
    have hperm : ((g :: batch).map (·.name) ++ taken).Nodup ↔
        (batch.map (·.name) ++ g.name :: taken).Nodup := by
      rw [List.map_cons, List.cons_append]
      exact List.perm_middle.symm.nodup_iff
    rw [List.forall_mem_cons, hperm, checkNames]
    by_cases hvalid : Handler.isValidName g.name = true
    · by_cases hfresh : g.name ∈ taken
      · have hclash : ¬ (batch.map (·.name) ++ g.name :: taken).Nodup := fun hnodup =>
          (List.nodup_cons.mp (List.perm_middle.nodup_iff.mp hnodup)).1 (List.mem_append_right _ hfresh)
        simp [hvalid, hfresh, hclash]
      · have hcons := ih (List.nodup_cons.mpr ⟨hfresh, htaken⟩)
        simp [hvalid, hfresh, hcons]
    · simp [hvalid]

section
variable {hs : List (Handler C)}

theorem register_holding (hs batch : List (Handler C)) : register batch (holding hs) =
    match checkNames (hs.map (·.name)) batch with
    | .error e => .error e (holding hs)
    | .ok _ => .ok () ⟨insertAll batch (hs.map (.node · [])), false⟩ := by
  rw [← map_name_leaves]
  rfl

/-- A batch whose names pass is held with what was held before. -/
theorem Collected.insertAll (h : Collected hs) {batch : List (Handler C)}
    (hcheck : checkNames (hs.map (·.name)) batch = .ok ()) :
    ∃ hs', Collected hs' ∧ hs'.Perm (batch ++ hs) ∧
      insertAll batch (hs.map (.node · [])) = hs'.map (.node · []) := by
  obtain ⟨hvalid, hnodup⟩ := (checkNames_ok_iff h.nodup).mp hcheck
  have hperm : (Registry.insertAll batch (hs.map (.node · []))).Perm ((batch ++ hs).map (.node · [])) := by
    rw [List.map_append]
    refine insertAll_perm ?_
    rw [map_name_leaves]
    exact hnodup
  have hascending : Ascending (Registry.insertAll batch (hs.map (.node · []))) := by
    refine insertAll_ascending ?_
    rw [Ascending, map_name_leaves]
    exact h.ordered
  obtain ⟨hs', heq, hperm'⟩ : Relation.Comp (· = List.map (HandlerTree.node · []) ·) List.Perm
      (Registry.insertAll batch (hs.map (.node · []))) (batch ++ hs) := by
    rw [List.eq_map_comp_perm]
    exact hperm
  rw [heq, Ascending, map_name_leaves] at hascending
  refine ⟨hs', ⟨hascending, fun g hg => ?_⟩, hperm', heq⟩
  rcases List.mem_append.mp (hperm'.mem_iff.mp hg) with hg | hg
  · exact hvalid g hg
  · exact h.valid g hg

/-! ## Sorting -/

theorem Collected.collapse (h : Collected hs) : Collected (hs.map Handler.collapseChain) := by
  refine ⟨?_, List.forall_mem_map.mpr h.valid⟩
  rw [List.map_map]
  exact h.ordered

theorem collapse_leaves (hs : List (Handler C)) : (hs.map (HandlerTree.node · [])).map
    HandlerTree.collapseChain = (hs.map Handler.collapseChain).map (.node · []) := by
  rw [List.map_map, List.map_map]
  rfl

theorem handler_leaves (hs : List (Handler C)) :
    (hs.map (HandlerTree.node · [])).map HandlerTree.handler = hs := by
  rw [List.map_map]
  exact List.map_id hs

theorem collapseRepeats_chain_of_mem {h : Handler C} (hmem : h ∈ hs.map Handler.collapseChain) :
    collapseRepeats h.chain = h.chain := by
  obtain ⟨g, -, rfl⟩ := List.mem_map.mp hmem
  exact collapseRepeats_collapseRepeats g.chain

/-- What is held is accepted as soon as it is well formed. -/
theorem Collected.acceptedParents_ok_iff (h : Collected hs) {parents : List (String × String)} :
    acceptedParents (hs.map Handler.collapseChain) = .ok parents ↔
      WellFormed hs ∧ parents = declaredParents (hs.map Handler.collapseChain) := by
  rw [HandlerGrammar.acceptedParents_ok_iff h.collapse.nodup fun _ hmem =>
    collapseRepeats_chain_of_mem hmem, wellFormed_collapse]

theorem Collected.sort_ok (h : Collected hs) (hwell : WellFormed hs) :
    sort (holding hs) = .ok () ⟨forest (hs.map Handler.collapseChain), true⟩ := by
  have haccepted := h.acceptedParents_ok_iff.mpr ⟨hwell, rfl⟩
  have hrun := run_declaredParents h.collapse.ordered (wellFormed_collapse.mpr hwell)
  simp only [sort, holding, Bool.false_eq_true, if_false, collapse_leaves, handler_leaves, haccepted,
    hrun]

theorem Collected.sort_error (h : Collected hs) (hill : ¬ WellFormed hs) : ∃ e,
    acceptedParents (hs.map Handler.collapseChain) = .error e ∧
      sort (holding hs) = .error e (holding (hs.map Handler.collapseChain)) := by
  cases haccepted : acceptedParents (hs.map Handler.collapseChain) with
  | error e =>
    refine ⟨e, rfl, ?_⟩
    simp only [sort, holding, Bool.false_eq_true, if_false, collapse_leaves, handler_leaves, haccepted]
  | ok parents => exact absurd (h.acceptedParents_ok_iff.mp haccepted).1 hill

theorem Collected.sort_ok_iff (h : Collected hs) {u : Unit} {r : Registry C} :
    sort (holding hs) = .ok u r ↔
      WellFormed hs ∧ r = ⟨forest (hs.map Handler.collapseChain), true⟩ := by
  by_cases hwell : WellFormed hs
  · rw [h.sort_ok hwell, and_iff_right hwell]
    exact ⟨fun heq => (EStateM.Result.ok.inj heq).2.symm, fun heq => heq ▸ rfl⟩
  · obtain ⟨e, -, herror⟩ := h.sort_error hwell
    rw [herror]
    exact iff_of_false (fun hok => by cases hok) fun hok => hwell hok.1

end

/-! ## Registries that calls lead to -/

/-- The registry that a call leaves, whether it fails or not. -/
def left {α : Type} : EStateM.Result BuildError (Registry C) α → Registry C
  | .ok _ r | .error _ r => r

/-- The registries that calls lead to. -/
inductive Reached : Registry C → Prop
  | empty : Reached empty
  | register {r : Registry C} (batch : List (Handler C)) : Reached r → Reached (left (register batch r))
  | sort {r : Registry C} : Reached r → Reached (left (sort r))

/-- Handlers are held until they are sorted into a well-nested forest. -/
inductive Sound : Registry C → Prop
  | holding {hs : List (Handler C)} : Collected hs → Sound (holding hs)
  | sorted {roots : List (HandlerTree C)} : WellNested roots → Sound ⟨roots, true⟩

theorem Sound.register {r : Registry C} (h : Sound r) (batch : List (Handler C)) :
    Sound (left (register batch r)) := by
  cases h with
  | sorted hnested => exact .sorted hnested
  | @holding hs hcollected =>
    rw [register_holding]
    cases hcheck : checkNames (hs.map (·.name)) batch with
    | error e => exact .holding hcollected
    | ok u =>
      obtain ⟨hs', hcollected', -, heq⟩ := hcollected.insertAll hcheck
      rw [heq]
      exact .holding hcollected'

theorem Sound.sort {r : Registry C} (h : Sound r) : Sound (left (sort r)) := by
  cases h with
  | sorted hnested => exact .sorted hnested
  | @holding hs hcollected =>
    by_cases hwell : WellFormed hs
    · rw [hcollected.sort_ok hwell]
      exact .sorted (wellNested_forest hcollected.collapse.nodup hcollected.collapse.valid)
    · obtain ⟨e, -, herror⟩ := hcollected.sort_error hwell
      rw [herror]
      exact .holding hcollected.collapse

theorem Reached.sound {r : Registry C} (h : Reached r) : Sound r := by
  induction h with
  | empty => exact .holding .nil
  | register batch _ ih => exact ih.register batch
  | sort _ ih => exact ih.sort

/-! ## The forest of a registry -/

section
variable {r : Registry C} {roots : List (HandlerTree C)}

/-- Of handlers that are held, the forest is made if they are well formed. -/
theorem Collected.roots_ok {hs : List (Handler C)} (h : Collected hs)
    (hroots : (holding hs).roots = .ok roots) :
    WellFormed hs ∧ roots = forest (hs.map Handler.collapseChain) := by
  rw [Registry.roots, if_neg (by exact Bool.false_ne_true)] at hroots
  cases hsort : Registry.sort (holding hs) with
  | error e r =>
    rw [hsort] at hroots
    cases hroots
  | ok u r =>
    rw [hsort] at hroots
    cases hroots
    obtain ⟨hwell, rfl⟩ := h.sort_ok_iff.mp hsort
    exact ⟨hwell, rfl⟩

theorem Reached.wellNested (h : Reached r) (hroots : r.roots = .ok roots) : WellNested roots := by
  cases h.sound with
  | sorted hnested =>
    cases hroots
    exact hnested
  | holding hcollected =>
    rw [(hcollected.roots_ok hroots).2]
    exact wellNested_forest hcollected.collapse.nodup hcollected.collapse.valid

theorem handlersOf_map_node (hs : List (Handler C)) :
    handlersOf (hs.map (HandlerTree.node · [])) = hs := by
  induction hs with
  | nil => rfl
  | cons h hs ih => exact congrArg (h :: ·) ih

theorem Reached.nodup_names (h : Reached r) : ((handlersOf r.trees).map (·.name)).Nodup := by
  cases h.sound with
  | sorted hnested =>
    rw [← map_handler_subtreesOf, List.map_map]
    exact hnested.nodup
  | holding hcollected =>
    rw [holding, handlersOf_map_node]
    exact hcollected.nodup

theorem Reached.valid_names (h : Reached r) :
    ∀ g ∈ handlersOf r.trees, Handler.isValidName g.name = true := by
  intro g hg
  cases h.sound with
  | sorted hnested =>
    rw [← map_handler_subtreesOf] at hg
    obtain ⟨t, ht, rfl⟩ := List.mem_map.mp hg
    exact hnested.valid t ht
  | holding hcollected =>
    rw [holding, handlersOf_map_node] at hg
    exact hcollected.valid g hg

/-- The forest has just the names that are registered, each with its own action. -/
theorem Reached.actions_perm (h : Reached r) (hroots : r.roots = .ok roots) :
    ((handlersOf roots).map fun h => (h.name, h.action)).Perm
      ((handlersOf r.trees).map fun h => (h.name, h.action)) := by
  cases h.sound with
  | sorted hnested =>
    cases hroots
    exact .refl _
  | @holding hs hcollected =>
    obtain ⟨hwell, rfl⟩ := hcollected.roots_ok hroots
    have honce := (wellFormed_collapse.mpr hwell).handlers_forest hcollected.collapse.nodup
    rw [holding, handlersOf_map_node]
    refine (honce.map _).trans ?_
    rw [List.map_map]
    exact .refl _

theorem Reached.roots_ne_nil (h : Reached r) (hroots : r.roots = .ok roots) (hne : r.trees ≠ []) :
    roots ≠ [] := by
  rintro rfl
  have hlen := (h.actions_perm hroots).length_eq
  cases htrees : r.trees with
  | nil => exact hne htrees
  | cons t ts =>
    obtain ⟨g, children⟩ := t
    rw [htrees] at hlen
    simp [handlersOf, handlers] at hlen

/-- What stands in the forest is registered, under the name and with the parent that it has there. -/
theorem Reached.declared (h : Reached r) (hroots : r.roots = .ok roots) {t : HandlerTree C}
    (ht : t ∈ subtreesOf roots) :
    ∃ g ∈ handlersOf r.trees, g.name = t.name ∧ g.parent? = t.handler.parent? := by
  cases h.sound with
  | sorted hnested =>
    cases hroots
    refine ⟨t.handler, ?_, rfl, rfl⟩
    rw [← map_handler_subtreesOf]
    exact List.mem_map_of_mem ht
  | holding hcollected =>
    rw [(hcollected.roots_ok hroots).2] at ht
    obtain ⟨g, hg, heq⟩ := List.mem_map.mp (handler_mem_of_forest hcollected.collapse.nodup ht)
    rw [holding, handlersOf_map_node]
    refine ⟨g, hg, ?_, ?_⟩
    · rw [HandlerTree.name, ← heq]
      rfl
    · rw [← heq, Handler.parent?_collapseChain]

end

/-! ## Sorting what was registered -/

/-- Register batches one after the other. -/
def registerAll (batches : List (List (Handler C))) : EStateM BuildError (Registry C) Unit :=
  batches.forM register

theorem registerAll_ok {batches : List (List (Handler C))} {hs : List (Handler C)}
    (hcollected : Collected hs) {r : Registry C} (h : registerAll batches (holding hs) = .ok () r) :
    ∃ hs', Collected hs' ∧ hs'.Perm (batches.flatten ++ hs) ∧ r = holding hs' := by
  induction batches generalizing hs with
  | nil =>
    cases h
    exact ⟨hs, hcollected, .refl _, rfl⟩
  | cons batch batches ih =>
    change EStateM.bind (register batch) (fun _ => registerAll batches) (holding hs) = _ at h
    rw [EStateM.bind, register_holding] at h
    cases hcheck : checkNames (hs.map (·.name)) batch with
    | error e =>
      rw [hcheck] at h
      cases h
    | ok u =>
      obtain ⟨hs', hcollected', hperm, heq⟩ := hcollected.insertAll hcheck
      rw [hcheck, heq] at h
      obtain ⟨hs'', hcollected'', hperm', hr⟩ := ih hcollected' h
      refine ⟨hs'', hcollected'', hperm'.trans ((hperm.append_left _).trans ?_), hr⟩
      rw [List.flatten_cons, List.append_assoc]
      exact List.perm_append_comm_assoc _ _ _

/-- Sorting what was registered succeeds exactly if it is well formed. It then nests the registered
handlers by their chains, each of them once, and once the parents are accepted nothing can fail any
more. -/
theorem sort_registered {batches : List (List (Handler C))} {r : Registry C}
    (hr : registerAll batches .empty = .ok () r) :
    ((∃ r', sort r = .ok () r') ↔ WellFormed batches.flatten) ∧
    (∀ r', sort r = .ok () r' → r'.isSorted = true ∧
      Nests (batches.flatten.map Handler.collapseChain) r'.trees) ∧
    ∀ parents, acceptedParents ((r.trees.map HandlerTree.collapseChain).map HandlerTree.handler) =
        .ok parents →
      ∃ a, Assembly.run parents ⟨r.trees.map HandlerTree.collapseChain, []⟩ = .ok () a ∧ a.pool = [] := by
  obtain ⟨hs, hcollected, hperm, rfl⟩ := registerAll_ok .nil hr
  rw [List.append_nil] at hperm
  have hnests : WellFormed hs → Nests (batches.flatten.map Handler.collapseChain)
      (forest (hs.map Handler.collapseChain)) := fun hwell => by
    have hnests := nests_forest hcollected.collapse.nodup hcollected.collapse.valid
      (wellFormed_collapse.mpr hwell) fun _ hmem => collapseRepeats_chain_of_mem hmem
    exact { hnests with once := hnests.once.trans (hperm.map _) }
  rw [← wellFormed_perm hperm]
  refine ⟨⟨?_, fun h => ⟨_, hcollected.sort_ok h⟩⟩, fun r' hok => ?_, fun parents hparents => ?_⟩
  · rintro ⟨r', hok⟩
    exact (hcollected.sort_ok_iff.mp hok).1
  · obtain ⟨hwell, rfl⟩ := hcollected.sort_ok_iff.mp hok
    exact ⟨rfl, hnests hwell⟩
  · rw [holding, collapse_leaves, handler_leaves] at hparents
    obtain ⟨hwell, rfl⟩ := hcollected.acceptedParents_ok_iff.mp hparents
    have hrun := run_declaredParents hcollected.collapse.ordered (wellFormed_collapse.mpr hwell)
    rw [← collapse_leaves] at hrun
    exact ⟨_, hrun, rfl⟩

/-! ## An example -/

/-- A root, a wrapper nested in it, and a member in each of the two. -/
def sampleBatch : List (Handler Unit) :=
  [⟨"size", .primary, ["doc"], fun _ => pure ()⟩,
    ⟨"name", .primary, ["doc", "meta"], fun _ => pure ()⟩,
    ⟨"meta", .wrapper, ["doc"], fun _ => pure ()⟩, ⟨"doc", .object, [], fun _ => pure ()⟩]

def sampleRegistry : Registry Unit := left (register sampleBatch .empty)

def sampleRoots : List (HandlerTree Unit) :=
  [.node ⟨"doc", .object, [], fun _ => pure ()⟩
    [.node ⟨"meta", .wrapper, ["doc"], fun _ => pure ()⟩
      [.node ⟨"name", .primary, ["doc", "meta"], fun _ => pure ()⟩ []],
    .node ⟨"size", .primary, ["doc"], fun _ => pure ()⟩ []]]

theorem sampleRegistry_reached : sampleRegistry.Reached := .register _ .empty

theorem sampleRegistry_roots : sampleRegistry.roots = .ok sampleRoots := rfl

theorem sort_registered_sample : registerAll [sampleBatch] .empty = .ok () sampleRegistry ∧
    WellFormed sampleBatch ∧ Nests (sampleBatch.map Handler.collapseChain) sampleRoots := by
  have hregistered : registerAll [sampleBatch] .empty = .ok () sampleRegistry := rfl
  have hsort : sort sampleRegistry = .ok () ⟨sampleRoots, true⟩ := rfl
  obtain ⟨hiff, hnests, -⟩ := sort_registered hregistered
  exact ⟨hregistered, hiff.mp ⟨_, hsort⟩, (hnests _ hsort).2⟩

end Registry
end HandlerGrammar
