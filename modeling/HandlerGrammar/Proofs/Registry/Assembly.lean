import HandlerGrammar.Proofs.Registry.Chains
import HandlerGrammar.Registry.Assembly

/-! # Assembly of well-formed handlers

What is assembled from a pool of well-formed handlers is their forest. Every tree is taken out of the
pool by the one branch that it belongs to, so neither a missing name nor a primary parent is met, and
the pool is empty in the end.

* `HandlerTree.insertByName_of_lt`, `HandlerTree.insertByName_perm`: where a tree comes in a list;
* `Waits`, `without`: what is in a pool, and what is left of it;
* `Assembles`: the tree of a name is assembled from any pool in which its handlers wait;
* `adopt_children`, `assembles_grow`, `plant_trees`: one level, one tree, all trees;
* `run_declaredParents`: the whole run. -/
namespace HandlerGrammar
set_option autoImplicit false

variable {C : Type}

namespace HandlerTree

/-- The names come in order, and none comes twice. -/
def Ascending (ts : List (HandlerTree C)) : Prop := (ts.map name).Pairwise (· < ·)

theorem ascending_append {ts us : List (HandlerTree C)} : Ascending (ts ++ us) ↔
    Ascending ts ∧ Ascending us ∧ ∀ t ∈ ts, ∀ u ∈ us, t.name < u.name := by
  simp only [Ascending, List.map_append, List.pairwise_append, List.forall_mem_map]

theorem insertByName_of_lt {t : HandlerTree C} {us : List (HandlerTree C)}
    (h : ∀ u ∈ us, u.name < t.name) : t.insertByName us = us ++ [t] := by
  induction us with
  | nil => rfl
  | cons u us ih =>
    obtain ⟨hu, hus⟩ := List.forall_mem_cons.mp h
    rw [insertByName, if_neg (String.lt_asymm hu), if_pos hu, ih hus]
    rfl

/-- What comes next in an order of names comes last among what came before. -/
theorem Ascending.insertByName_last {t : HandlerTree C} {done ts : List (HandlerTree C)}
    (h : Ascending (done ++ t :: ts)) : t.insertByName done = done ++ [t] :=
  insertByName_of_lt fun u hu => (ascending_append.mp h).2.2 u hu t List.mem_cons_self

theorem insertByName_perm {t : HandlerTree C} {us : List (HandlerTree C)}
    (h : ∀ u ∈ us, u.name ≠ t.name) : (t.insertByName us).Perm (t :: us) := by
  induction us with
  | nil => exact .refl _
  | cons u us ih =>
    obtain ⟨hu, hus⟩ := List.forall_mem_cons.mp h
    rw [insertByName]
    split
    · exact .refl _
    · next hnotlt =>
      split
      · exact ((ih hus).cons u).trans (.swap t u us)
      · next hnotgt => exact absurd (String.le_antisymm hnotlt hnotgt) hu

theorem mem_of_mem_insertByName {t v : HandlerTree C} {us : List (HandlerTree C)}
    (h : v ∈ t.insertByName us) : v = t ∨ v ∈ us := by
  induction us with
  | nil => exact Or.inl (List.mem_singleton.mp h)
  | cons u us ih =>
    rw [insertByName] at h
    split at h
    · exact List.mem_cons.mp h
    · split at h
      · rcases List.mem_cons.mp h with rfl | h
        · exact Or.inr List.mem_cons_self
        · exact (ih h).imp_right (List.mem_cons_of_mem u)
      · exact (List.mem_cons.mp h).imp_right (List.mem_cons_of_mem u)

theorem ascending_insertByName {t : HandlerTree C} {us : List (HandlerTree C)}
    (h : Ascending us) : Ascending (t.insertByName us) := by
  induction us with
  | nil => exact List.pairwise_singleton _ _
  | cons u us ih =>
    obtain ⟨hu, hus⟩ := List.pairwise_cons.mp h
    rw [insertByName]
    split
    · next hlt =>
      refine List.pairwise_cons.mpr ⟨List.forall_mem_cons.mpr ⟨hlt, fun name hname => ?_⟩, h⟩
      exact String.lt_trans hlt (hu name hname)
    · next hnotlt =>
      split
      · next hgt =>
        refine List.pairwise_cons.mpr ⟨List.forall_mem_map.mpr fun v hv => ?_, ih hus⟩
        rcases mem_of_mem_insertByName hv with rfl | hv
        · exact hgt
        · exact hu _ (List.mem_map_of_mem hv)
      · next hnotgt =>
        have hname : u.name = t.name := String.le_antisymm hnotlt hnotgt
        refine List.pairwise_cons.mpr ⟨fun name hmem => ?_, hus⟩
        rw [← hname]
        exact hu name hmem

theorem insertByName_map_collapseChain (t : HandlerTree C) (us : List (HandlerTree C)) :
    (t.insertByName us).map collapseChain =
      t.collapseChain.insertByName (us.map collapseChain) := by
  induction us with
  | nil => rfl
  | cons u us ih =>
    have hname : ∀ v : HandlerTree C, v.collapseChain.name = v.name := by
      intro v
      cases v
      rfl
    rw [List.map_cons, insertByName, insertByName, hname, hname, ← ih]
    split
    · rfl
    · split <;> rfl

theorem map_name_leaves (hs : List (Handler C)) :
    (hs.map (node · [])).map name = hs.map (·.name) := by
  rw [List.map_map]
  rfl

end HandlerTree

open HandlerTree

namespace Assembly

/-! ## Pools -/

/-- The handler is in the pool, with nothing nested in it. -/
def Waits (pool : List (HandlerTree C)) (h : Handler C) : Prop :=
  pool.find? (·.name == h.name) = some (.node h [])

/-- The trees of a pool whose names are not among the given ones. -/
def without (names : List String) (pool : List (HandlerTree C)) : List (HandlerTree C) :=
  pool.filter fun t => !names.contains t.name

theorem without_nil (pool : List (HandlerTree C)) : without [] pool = pool :=
  List.filter_eq_self.mpr fun _ _ => rfl

theorem without_without (names names' : List String) (pool : List (HandlerTree C)) :
    without names' (without names pool) = without (names ++ names') pool := by
  simp only [without, List.filter_filter]
  refine List.filter_congr fun t _ => ?_
  simp only [List.contains_eq_mem, List.mem_append]
  grind

theorem Waits.without {pool : List (HandlerTree C)} {h : Handler C} {names : List String}
    (hwaits : Waits pool h) (hother : h.name ∉ names) : Waits (without names pool) h := by
  rw [Waits, Assembly.without, List.find?_filter, ← hwaits]
  congr 1
  funext t
  by_cases hname : t.name = h.name
  · simp [hname, hother]
  · simp [hname]

theorem take_of_waits {h : Handler C} {pool done : List (HandlerTree C)} (hwaits : Waits pool h) :
    take h.name ⟨pool, done⟩ = .ok (.node h []) ⟨without [h.name] pool, done⟩ := by
  unfold take
  dsimp only
  rw [show pool.find? (·.name == h.name) = some (.node h []) from hwaits]
  dsimp only
  congr 2
  refine List.filter_congr fun t _ => ?_
  simp [bne, beq_eq_decide]

/-! ## Assembling -/

theorem bind_of_ok {α β : Type} {m : Assembling C α} {f : α → Assembling C β} {a : α}
    {s s' : Assembly C} (h : m s = .ok a s') : (m >>= f) s = f a s' := by
  change EStateM.bind m f s = _
  rw [EStateM.bind, h]

/-- The tree of a name is assembled from a pool in which its handlers wait. They are taken out of
it, and the forest made so far stays. -/
def Assembles (parents : List (String × String)) (depth : Nat) (t : HandlerTree C) : Prop :=
  ∀ pool done, (∀ h ∈ t.handlers, Waits pool h) →
    assemble parents depth t.name ⟨pool, done⟩ =
      .ok t ⟨without (t.handlers.map (·.name)) pool, done⟩

section
variable {parents : List (String × String)} {depth : Nat}

/-- What waits outside a tree still waits when the tree has been assembled. -/
theorem waits_after {t : HandlerTree C} {ts : List (HandlerTree C)} {pool : List (HandlerTree C)}
    (hnodup : ((handlersOf (t :: ts)).map (·.name)).Nodup)
    (hwaits : ∀ h ∈ handlersOf (t :: ts), Waits pool h) :
    ∀ h ∈ handlersOf ts, Waits (without (t.handlers.map (·.name)) pool) h := by
  intro h hh
  rw [handlersOf, List.map_append] at hnodup
  refine (hwaits h (List.mem_append_right _ hh)).without fun hmem => ?_
  exact (List.nodup_append'.mp hnodup).2.2 hmem (List.mem_map_of_mem hh)

theorem adopt_children {h : Handler C} {ts done : List (HandlerTree C)}
    (forest : List (HandlerTree C)) (hcontainer : ts ≠ [] → h.mode ≠ .primary) (hordered : Ascending (done ++ ts))
    (hnodup : ((handlersOf ts).map (·.name)).Nodup) (hassembles : ∀ t ∈ ts, Assembles parents depth t)
    {pool : List (HandlerTree C)} (hwaits : ∀ g ∈ handlersOf ts, Waits pool g) :
    ((ts.map HandlerTree.name).foldlM
        (fun t child => do adopt (← assemble parents depth child) t) (.node h done) :
        Assembling C (HandlerTree C)) ⟨pool, forest⟩ =
      .ok (.node h (done ++ ts)) ⟨without ((handlersOf ts).map (·.name)) pool, forest⟩ := by
  induction ts generalizing done pool with
  | nil =>
    change _ = EStateM.Result.ok (HandlerTree.node h (done ++ [])) (Assembly.mk (without [] pool) forest)
    rw [List.append_nil, without_nil]
    rfl
  | cons t ts ih =>
    obtain ⟨hself, hrest⟩ := List.forall_mem_cons.mp hassembles
    have hplaced := hordered.insertByName_last
    have hstep : (do adopt (← assemble parents depth t.name) (.node h done) : Assembling C _)
        ⟨pool, forest⟩ =
          .ok (.node h (done ++ [t])) ⟨without (t.handlers.map (·.name)) pool, forest⟩ := by
      rw [bind_of_ok (hself pool forest fun g hg => hwaits g (List.mem_append_left _ hg)), adopt,
        if_neg (hcontainer (List.cons_ne_nil t ts)), hplaced]
      rfl
    rw [List.append_cons] at hordered
    have hnext := ih (fun _ => hcontainer (List.cons_ne_nil t ts)) hordered
      (hnodup.sublist ((List.sublist_append_right _ _).map _)) hrest (waits_after hnodup hwaits)
    rw [List.map_cons, List.foldlM_cons, bind_of_ok hstep, hnext, without_without, ← List.map_append,
      ← List.append_cons, handlersOf]

theorem plant_trees {ts done : List (HandlerTree C)} (hordered : Ascending (done ++ ts))
    (hnodup : ((handlersOf ts).map (·.name)).Nodup) (hassembles : ∀ t ∈ ts, Assembles parents depth t)
    {pool : List (HandlerTree C)} (hwaits : ∀ g ∈ handlersOf ts, Waits pool g) :
    plant parents depth (ts.map HandlerTree.name) ⟨pool, done⟩ =
      .ok () ⟨without ((handlersOf ts).map (·.name)) pool, done ++ ts⟩ := by
  induction ts generalizing done pool with
  | nil =>
    change _ = EStateM.Result.ok () (Assembly.mk (without [] pool) (done ++ []))
    rw [List.append_nil, without_nil]
    rfl
  | cons t ts ih =>
    obtain ⟨hself, hrest⟩ := List.forall_mem_cons.mp hassembles
    have hplaced := hordered.insertByName_last
    rw [List.append_cons] at hordered
    have hnext := ih hordered (hnodup.sublist ((List.sublist_append_right _ _).map _)) hrest
      (waits_after hnodup hwaits)
    rw [List.map_cons, plant,
      bind_of_ok (hself pool done fun g hg => hwaits g (List.mem_append_left _ hg))]
    change plant parents depth (ts.map HandlerTree.name) ⟨_, t.insertByName done⟩ = _
    rw [hplaced, hnext, without_without, ← List.map_append, ← List.append_cons, handlersOf]

end

end Assembly

/-! ## Assembling what is well formed -/

open Assembly (childrenOf Waits without Assembles)

section
variable {hs : List (Handler C)}

theorem childrenOf_declaredParents (name : String) :
    childrenOf (declaredParents hs) name =
      (hs.filter (·.parent? == some name)).map (·.name) := by
  induction hs with
  | nil => rfl
  | cons h hs ih =>
    rw [declaredParents_cons, List.filter_cons]
    cases hparent : h.parent? with
    | none => simpa using ih
    | some parent =>
      by_cases hname : parent = name
      · simpa [childrenOf, hname] using ih
      · simpa [childrenOf, hname] using ih

theorem map_name_grow (depth : Nat) (level : List (Handler C)) :
    (level.map (grow hs depth)).map HandlerTree.name = level.map (·.name) := by
  rw [List.map_map]
  exact List.map_congr_left fun h _ => congrArg Handler.name (handler_grow depth h)

theorem nodup_handlers_grow (hnames : (hs.map (·.name)).Nodup) {k : Nat} {h : Handler C} (hh : h ∈ hs)
    (hk : Level hs k h) (depth : Nat) : ((grow hs depth h).handlers.map (·.name)).Nodup := by
  obtain ⟨hnodup, hgrown⟩ := grown hnames depth k (List.nodup_singleton h) fun g hg => by
    rw [List.mem_singleton.mp hg]
    exact ⟨hh, hk⟩
  have hself : subtreesOf ([h].map (grow hs depth)) = (grow hs depth h).subtrees :=
    List.append_nil _
  rw [hself] at hnodup hgrown
  have hdistinct := nodup_names hnames hnodup fun t ht => by
    obtain ⟨depth', g, j, rfl, hg, -⟩ := hgrown t ht
    rw [handler_grow]
    exact hg
  rw [← map_handler_subtrees, List.map_map]
  exact hdistinct

/-- The depth left at a level is enough for the tree grown there. -/
theorem assembles_grow (hordered : (hs.map (·.name)).Pairwise (· < ·)) (hwell : WellFormed hs)
    {depth k : Nat} {h : Handler C} (hh : h ∈ hs) (hk : Level hs k h) (hsum : depth + k = hs.length) :
    Assembles (declaredParents hs) depth (grow hs depth h) := by
  have hnames : (hs.map (·.name)).Nodup := hordered.imp fun hlt => String.ne_of_lt hlt
  induction depth generalizing k h with
  | zero =>
    have hlt := hk.lt_length hnames hh
    omega
  | succ depth ih =>
    intro pool done hwaits
    have hnodup := nodup_handlers_grow hnames hh hk (depth + 1)
    obtain ⟨hfresh, hrest⟩ := List.nodup_cons.mp hnodup
    obtain ⟨hself, hbelow⟩ := List.forall_mem_cons.mp hwaits
    have hchildren : ∀ t ∈ (hs.filter (·.parent? == some h.name)).map (grow hs depth),
        Assembles (declaredParents hs) depth t := by
      refine List.forall_mem_map.mpr fun g hg => ?_
      obtain ⟨hg, hparent⟩ := List.mem_filter.mp hg
      exact ih hg (k := k + 1) ⟨h, hh, beq_iff_eq.mp hparent, hk⟩ (by omega)
    have hcontainer : (hs.filter (·.parent? == some h.name)).map (grow hs depth) ≠ [] →
        h.mode ≠ .primary := by
      intro hne
      obtain ⟨t, ht⟩ := List.exists_mem_of_ne_nil _ hne
      obtain ⟨g, hg, -⟩ := List.mem_map.mp ht
      obtain ⟨hg, hparent⟩ := List.mem_filter.mp hg
      exact hwell.container g hg h hh (beq_iff_eq.mp hparent)
    have hsorted : Ascending ([] ++ (hs.filter (·.parent? == some h.name)).map (grow hs depth)) := by
      rw [List.nil_append, Ascending, map_name_grow]
      exact hordered.sublist (List.filter_sublist.map _)
    have hwait : ∀ g ∈ handlersOf ((hs.filter (·.parent? == some h.name)).map (grow hs depth)),
        Waits (without [h.name] pool) g := by
      refine fun g hg => (hbelow g hg).without fun hmem => hfresh ?_
      exact List.mem_map.mpr ⟨g, hg, List.mem_singleton.mp hmem⟩
    have hadopt := Assembly.adopt_children done hcontainer hsorted hrest hchildren hwait
    rw [map_name_grow, ← childrenOf_declaredParents, Assembly.without_without] at hadopt
    change Assembly.assemble (declaredParents hs) (depth + 1) h.name ⟨pool, done⟩ = _
    rw [Assembly.assemble, Assembly.bind_of_ok (Assembly.take_of_waits hself), hadopt]
    rfl

theorem waits_of_mem (hnames : (hs.map (·.name)).Nodup) {h : Handler C} (hh : h ∈ hs) :
    Waits (hs.map (.node · [])) h := by
  have hfound := lookupHandler_of_mem hnames hh
  rw [lookupHandler] at hfound
  rw [Waits, List.find?_map, Function.comp_def]
  exact congrArg (Option.map (HandlerTree.node · [])) hfound

/-- Well-formed handlers in order of names are assembled into their forest, and none is left. -/
theorem run_declaredParents (hordered : (hs.map (·.name)).Pairwise (· < ·)) (hwell : WellFormed hs) :
    Assembly.run (declaredParents hs) ⟨hs.map (.node · []), []⟩ = .ok () ⟨[], forest hs⟩ := by
  have hnames : (hs.map (·.name)).Nodup := hordered.imp fun hlt => String.ne_of_lt hlt
  have hroots : (hs.map (·.name)).filter (fun name => ((declaredParents hs).lookup name).isNone) =
      (forest hs).map HandlerTree.name := by
    rw [forest, map_name_grow, List.filter_map]
    refine congrArg _ (List.filter_congr fun h hh => ?_)
    rw [Function.comp_apply, parent?_eq_lookup hnames hh]
  have hassembles : ∀ t ∈ forest hs, Assembles (declaredParents hs) hs.length t := by
    refine List.forall_mem_map.mpr fun h hroot => ?_
    obtain ⟨hh, hlevel⟩ := level_zero_of_root hroot
    exact assembles_grow hordered hwell hh hlevel rfl
  have hsorted : Ascending ([] ++ forest hs) := by
    rw [List.nil_append, Ascending, forest, map_name_grow]
    exact hordered.sublist (List.filter_sublist.map _)
  have hperm := hwell.handlers_forest hnames
  have hnodup : ((handlersOf (forest hs)).map (·.name)).Nodup := (hperm.map _).nodup_iff.mpr hnames
  have hwaits : ∀ g ∈ handlersOf (forest hs), Waits (hs.map (.node · [])) g := fun g hg =>
    waits_of_mem hnames (hperm.mem_iff.mp hg)
  have hempty : without ((handlersOf (forest hs)).map (·.name)) (hs.map (.node · [])) = [] := by
    refine List.filter_eq_nil_iff.mpr (List.forall_mem_map.mpr fun h hh => ?_)
    have hmem : h.name ∈ (handlersOf (forest hs)).map (·.name) :=
      List.mem_map_of_mem (hperm.mem_iff.mpr hh)
    rw [Bool.not_eq_true, Bool.not_eq_false']
    exact List.contains_iff_mem.mpr hmem
  have hplant := Assembly.plant_trees hsorted hnodup hassembles hwaits
  rw [← hroots, hempty, ← List.length_map (f := fun h : Handler C => h.name)] at hplant
  change Assembly.plant _ ((hs.map (HandlerTree.node · [])).map HandlerTree.name).length
    (((hs.map (HandlerTree.node · [])).map HandlerTree.name).filter _) _ = _
  rw [map_name_leaves]
  exact hplant

end

end HandlerGrammar
