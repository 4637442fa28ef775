import HandlerGrammar.Handler
import Mathlib.Data.List.Nodup
import Mathlib.Data.List.Perm.Basic

/-! # Forests of handlers

A forest hangs every handler under the one that it declares as its parent. Grown from its roots it
holds each handler that stands below finitely many parents, once.

* `HandlerTree.subtrees`: a tree with all trees nested in it;
* `WellNested`: forests in which handlers hang where they declare;
* `forest`: the forest of handlers, grown level by level;
* `Level`: how many parents stand above a handler, which keeps handlers apart in a grown forest;
* `wellNested_forest`, `exists_mem_forest`: the forest is well nested and holds what has a level. -/
namespace HandlerGrammar
set_option autoImplicit false

variable {C : Type}

namespace HandlerTree

mutual
/-- The tree and all trees nested in it, in order of names at each level. -/
def subtrees : HandlerTree C → List (HandlerTree C)
  | node h children => node h children :: subtreesOf children

def subtreesOf : List (HandlerTree C) → List (HandlerTree C)
  | [] => []
  | t :: ts => subtrees t ++ subtreesOf ts
end

theorem subtrees_eq (t : HandlerTree C) : t.subtrees = t :: subtreesOf t.children := by
  cases t
  rfl

theorem subtreesOf_append (ts us : List (HandlerTree C)) :
    subtreesOf (ts ++ us) = subtreesOf ts ++ subtreesOf us := by
  induction ts with
  | nil => rfl
  | cons t ts ih => simp only [List.cons_append, subtreesOf, ih, List.append_assoc]

mutual
theorem map_handler_subtrees (t : HandlerTree C) : t.subtrees.map handler = t.handlers := by
  match t with
  | .node h children =>
    have hchildren := map_handler_subtreesOf children
    simp only [subtrees, handlers, List.map_cons, hchildren]
    rfl

theorem map_handler_subtreesOf (ts : List (HandlerTree C)) :
    (subtreesOf ts).map handler = handlersOf ts := by
  match ts with
  | [] => rfl
  | t :: ts =>
    have ht := map_handler_subtrees t
    have hts := map_handler_subtreesOf ts
    simp only [subtreesOf, handlersOf, List.map_append, ht, hts]
end

/-- A forest level by level: its roots, and the forest below them. -/
theorem subtreesOf_perm (ts : List (HandlerTree C)) :
    (subtreesOf ts).Perm (ts ++ subtreesOf (ts.flatMap children)) := by
  induction ts with
  | nil => exact .nil
  | cons t ts ih =>
    simp only [subtreesOf, subtrees_eq, List.flatMap_cons, subtreesOf_append, List.cons_append]
    refine .cons t ((ih.append_left _).trans ?_)
    exact List.perm_append_comm_assoc _ _ _

theorem subset_subtreesOf {ts : List (HandlerTree C)} : ts ⊆ subtreesOf ts := fun _ h =>
  (subtreesOf_perm ts).mem_iff.mpr (List.mem_append_left _ h)

mutual
/-- With a tree everything nested in it is in a forest, in the same order. -/
theorem subtrees_sublist {roots : List (HandlerTree C)} {t : HandlerTree C}
    (h : t ∈ subtreesOf roots) : t.subtrees.Sublist (subtreesOf roots) := by
  match roots with
  | [] => cases h
  | root :: roots =>
    rcases List.mem_append.mp h with h | h
    · exact (subtrees_sublist_subtrees h).trans (List.sublist_append_left _ _)
    · exact (subtrees_sublist h).trans (List.sublist_append_right _ _)

theorem subtrees_sublist_subtrees {root t : HandlerTree C} (h : t ∈ root.subtrees) :
    t.subtrees.Sublist root.subtrees := by
  match root with
  | .node handler children =>
    rcases List.mem_cons.mp h with rfl | h
    · exact List.Sublist.refl _
    · exact (subtrees_sublist h).trans (List.sublist_cons_self _ _)
end

theorem children_sublist {roots : List (HandlerTree C)} {t : HandlerTree C}
    (h : t ∈ subtreesOf roots) : (subtreesOf t.children).Sublist (subtreesOf roots) := by
  refine List.Sublist.trans ?_ (subtrees_sublist h)
  rw [subtrees_eq]
  exact List.sublist_cons_self _ _

theorem mem_subtreesOf_child {roots : List (HandlerTree C)} {t c : HandlerTree C}
    (h : t ∈ subtreesOf roots) (hc : c ∈ t.children) : c ∈ subtreesOf roots :=
  (children_sublist h).subset (subset_subtreesOf hc)

end HandlerTree

open HandlerTree

/-- A forest in which each tree hangs under the handler that its own one declares as its parent, and
no two handlers have one name. -/
structure WellNested (roots : List (HandlerTree C)) : Prop where
  nodup : ((subtreesOf roots).map HandlerTree.name).Nodup
  valid : ∀ t ∈ subtreesOf roots, Handler.isValidName t.name = true
  root : ∀ t ∈ roots, t.handler.parent? = none
  child : ∀ t ∈ subtreesOf roots, ∀ c ∈ t.children, c.handler.parent? = some t.name

theorem WellNested.unique {roots : List (HandlerTree C)} (h : WellNested roots)
    {t t' : HandlerTree C} (ht : t ∈ subtreesOf roots) (ht' : t' ∈ subtreesOf roots)
    (hname : t.name = t'.name) : t = t' :=
  List.inj_on_of_nodup_map h.nodup ht ht' hname

/-! ## Growing a forest -/

/-- A handler with the handlers nested in it, down to a given depth. -/
def grow (handlers : List (Handler C)) : Nat → Handler C → HandlerTree C
  | 0, h => .node h []
  | depth + 1, h =>
    .node h ((handlers.filter (·.parent? == some h.name)).map (grow handlers depth))

/-- The forest of handlers without parents. No branch of it is longer than the list. -/
def forest (handlers : List (Handler C)) : List (HandlerTree C) :=
  (handlers.filter (·.parent?.isNone)).map (grow handlers handlers.length)

/-- The handler stands below as many parents as `k` says. -/
def Level (hs : List (Handler C)) : Nat → Handler C → Prop
  | 0, h => h.parent? = none
  | k + 1, h => ∃ p ∈ hs, h.parent? = some p.name ∧ Level hs k p

section
variable {hs : List (Handler C)}

theorem handler_unique (hnames : (hs.map (·.name)).Nodup) {h h' : Handler C} (hmem : h ∈ hs)
    (hmem' : h' ∈ hs) (hname : h.name = h'.name) : h = h' :=
  List.inj_on_of_nodup_map hnames hmem hmem' hname

theorem level_unique (hnames : (hs.map (·.name)).Nodup) {j k : Nat} {h : Handler C}
    (hj : Level hs j h) (hk : Level hs k h) : j = k := by
  induction j generalizing k h with
  | zero =>
    cases k with
    | zero => rfl
    | succ k =>
      obtain ⟨p, -, hparent, -⟩ := hk
      rw [Level, hparent] at hj
      cases hj
  | succ j ih =>
    obtain ⟨p, hp, hparent, hlevel⟩ := hj
    cases k with
    | zero =>
      rw [Level, hparent] at hk
      cases hk
    | succ k =>
      obtain ⟨p', hp', hparent', hlevel'⟩ := hk
      have hname : p.name = p'.name := by
        rw [hparent] at hparent'
        exact Option.some.inj hparent'
      obtain rfl := handler_unique hnames hp hp' hname
      rw [ih hlevel hlevel']

/-- The handlers that declare one of the given ones as their parent. -/
def nestedIn (hs parents : List (Handler C)) : List (Handler C) :=
  parents.flatMap fun p => hs.filter (·.parent? == some p.name)

theorem mem_nestedIn {parents : List (Handler C)} {h : Handler C} :
    h ∈ nestedIn hs parents ↔ h ∈ hs ∧ ∃ p ∈ parents, h.parent? = some p.name := by
  simp only [nestedIn, List.mem_flatMap, List.mem_filter, beq_iff_eq]
  constructor
  · rintro ⟨p, hp, hh, hparent⟩
    exact ⟨hh, p, hp, hparent⟩
  · rintro ⟨hh, p, hp, hparent⟩
    exact ⟨p, hp, hh, hparent⟩

theorem nodup_nestedIn (hnames : (hs.map (·.name)).Nodup) {parents : List (Handler C)}
    (hparents : parents.Nodup) (hsub : ∀ p ∈ parents, p ∈ hs) : (nestedIn hs parents).Nodup := by
  refine List.nodup_flatMap.mpr ⟨fun p _ => (List.Nodup.of_map _ hnames).filter _, ?_⟩
  refine hparents.imp_of_mem fun {p p'} hp hp' hne => ?_
  intro h hmem hmem'
  simp only [List.mem_filter, beq_iff_eq] at hmem hmem'
  have hname : p.name = p'.name := Option.some.inj (hmem.2.symm.trans hmem'.2)
  exact hne (handler_unique hnames (hsub p hp) (hsub p' hp') hname)

theorem handler_grow (depth : Nat) (h : Handler C) : (grow hs depth h).handler = h := by
  cases depth <;> rfl

theorem children_grow (depth : Nat) (parents : List (Handler C)) :
    (parents.map (grow hs depth)).flatMap HandlerTree.children =
      match depth with
      | 0 => []
      | depth + 1 => (nestedIn hs parents).map (grow hs depth) := by
  cases depth with
  | zero =>
    induction parents with
    | nil => rfl
    | cons p parents ih => exact ih
  | succ depth =>
    induction parents with
    | nil => rfl
    | cons p parents ih =>
      simp only [List.map_cons, List.flatMap_cons, ih, nestedIn, List.map_append]
      rfl

/-- What grows from handlers at one level: each tree in it is grown from a handler at this level or
further down, and no handler twice. -/
theorem grown (hnames : (hs.map (·.name)).Nodup) (depth k : Nat) {level : List (Handler C)}
    (hnodup : level.Nodup) (hlevel : ∀ h ∈ level, h ∈ hs ∧ Level hs k h) :
    ((subtreesOf (level.map (grow hs depth))).map HandlerTree.handler).Nodup ∧
      ∀ t ∈ subtreesOf (level.map (grow hs depth)),
        ∃ depth' h j, t = grow hs depth' h ∧ h ∈ hs ∧ k ≤ j ∧ depth' + j = depth + k ∧
          Level hs j h := by
  induction depth generalizing k level with
  | zero =>
    have hsub : subtreesOf (level.map (grow hs 0)) = level.map (grow hs 0) := by
      induction level with
      | nil => rfl
      | cons h level ih =>
        have hrest := ih (List.nodup_cons.mp hnodup).2 fun h' hmem =>
          hlevel h' (List.mem_cons_of_mem _ hmem)
        rw [List.map_cons, subtreesOf, hrest]
        rfl
    rw [hsub, List.map_map]
    refine ⟨?_, fun t ht => ?_⟩
    · have hid : HandlerTree.handler ∘ grow hs 0 = id := rfl
      rw [hid, List.map_id]
      exact hnodup
    · obtain ⟨h, hmem, rfl⟩ := List.mem_map.mp ht
      exact ⟨0, h, k, rfl, (hlevel h hmem).1, Nat.le_refl k, rfl, (hlevel h hmem).2⟩
  | succ depth ih =>
    have hnext : ∀ h ∈ nestedIn hs level, h ∈ hs ∧ Level hs (k + 1) h := by
      intro h hmem
      obtain ⟨hh, p, hp, hparent⟩ := mem_nestedIn.mp hmem
      exact ⟨hh, p, (hlevel p hp).1, hparent, (hlevel p hp).2⟩
    obtain ⟨hrest, hgrown⟩ := ih (k + 1)
      (nodup_nestedIn hnames hnodup fun p hp => (hlevel p hp).1) hnext
    have hperm := subtreesOf_perm (level.map (grow hs (depth + 1)))
    rw [children_grow] at hperm
    have hself : (level.map (grow hs (depth + 1))).map HandlerTree.handler = level := by
      rw [List.map_map]
      exact (List.map_congr_left fun h _ => handler_grow (depth + 1) h).trans (List.map_id level)
    constructor
    · rw [(hperm.map _).nodup_iff, List.map_append, hself]
      refine List.nodup_append'.mpr ⟨hnodup, hrest, fun h hmem hmem' => ?_⟩
      obtain ⟨t, ht, rfl⟩ := List.mem_map.mp hmem'
      obtain ⟨depth', h, j, rfl, -, hle, -, hj⟩ := hgrown t ht
      rw [handler_grow] at hmem
      have heq := level_unique hnames hj (hlevel h hmem).2
      omega
    · intro t ht
      rcases List.mem_append.mp (hperm.mem_iff.mp ht) with ht | ht
      · obtain ⟨h, hmem, rfl⟩ := List.mem_map.mp ht
        exact ⟨depth + 1, h, k, rfl, (hlevel h hmem).1, Nat.le_refl k, rfl, (hlevel h hmem).2⟩
      · obtain ⟨depth', h, j, rfl, hh, hle, hsum, hj⟩ := hgrown t ht
        exact ⟨depth', h, j, rfl, hh, by omega, by omega, hj⟩

/-- Trees with different handlers, all of them in the list, have different names. -/
theorem nodup_names (hnames : (hs.map (·.name)).Nodup) {ts : List (HandlerTree C)}
    (hnodup : (ts.map HandlerTree.handler).Nodup) (hmem : ∀ t ∈ ts, t.handler ∈ hs) :
    (ts.map HandlerTree.name).Nodup := by
  have heq : ts.map HandlerTree.name = (ts.map HandlerTree.handler).map (·.name) := by
    rw [List.map_map]
    rfl
  rw [heq]
  refine List.Nodup.map_on (fun h hh h' hh' hname => ?_) hnodup
  obtain ⟨t, ht, rfl⟩ := List.mem_map.mp hh
  obtain ⟨t', ht', rfl⟩ := List.mem_map.mp hh'
  exact handler_unique hnames (hmem t ht) (hmem t' ht') hname

theorem level_zero_of_root {h : Handler C} (hroot : h ∈ hs.filter (·.parent?.isNone)) :
    h ∈ hs ∧ Level hs 0 h := by
  obtain ⟨hh, hnone⟩ := List.mem_filter.mp hroot
  exact ⟨hh, Option.isNone_iff_eq_none.mp hnone⟩

/-- Each tree of the forest is grown to the depth that its level leaves, and no handler twice. -/
theorem grown_forest (hnames : (hs.map (·.name)).Nodup) :
    ((subtreesOf (forest hs)).map HandlerTree.handler).Nodup ∧
      ∀ t ∈ subtreesOf (forest hs), ∃ depth h j, t = grow hs depth h ∧ h ∈ hs ∧
        depth + j = hs.length ∧ Level hs j h := by
  obtain ⟨hnodup, hgrown⟩ := grown hnames hs.length 0 ((List.Nodup.of_map _ hnames).filter _)
    fun h hroot => level_zero_of_root hroot
  refine ⟨hnodup, fun t ht => ?_⟩
  obtain ⟨depth, h, j, heq, hh, -, hsum, hj⟩ := hgrown t ht
  exact ⟨depth, h, j, heq, hh, hsum, hj⟩

theorem handler_mem_of_forest (hnames : (hs.map (·.name)).Nodup) {t : HandlerTree C}
    (ht : t ∈ subtreesOf (forest hs)) : t.handler ∈ hs := by
  obtain ⟨depth, h, j, rfl, hh, -⟩ := (grown_forest hnames).2 t ht
  rw [handler_grow]
  exact hh

/-- A forest of handlers with different names nests them as they declare. -/
theorem wellNested_forest (hnames : (hs.map (·.name)).Nodup)
    (hvalid : ∀ h ∈ hs, Handler.isValidName h.name = true) : WellNested (forest hs) := by
  obtain ⟨hnodup, hgrown⟩ := grown_forest hnames
  have hmem : ∀ t ∈ subtreesOf (forest hs), t.handler ∈ hs := fun t ht =>
    handler_mem_of_forest hnames ht
  refine ⟨nodup_names hnames hnodup hmem, fun t ht => hvalid _ (hmem t ht), ?_, ?_⟩
  · intro t ht
    obtain ⟨h, hroot, rfl⟩ := List.mem_map.mp ht
    rw [handler_grow]
    exact (level_zero_of_root hroot).2
  · intro t ht c hc
    obtain ⟨depth, h, j, rfl, -, -, -⟩ := hgrown t ht
    cases depth with
    | zero => cases hc
    | succ depth =>
      obtain ⟨h', hmem', rfl⟩ := List.mem_map.mp hc
      rw [handler_grow]
      exact beq_iff_eq.mp (List.mem_filter.mp hmem').2

/-! ## What has a level is in the forest -/

/-- A handler and those above it are different, so a level lies below the number of handlers. -/
theorem Level.lt_length (hnames : (hs.map (·.name)).Nodup) {k : Nat} {h : Handler C} (hh : h ∈ hs)
    (hk : Level hs k h) : k < hs.length := by
  have habove : ∃ above : List (Handler C), above.length = k + 1 ∧ above.Nodup ∧
      ∀ g ∈ above, g ∈ hs ∧ ∃ j ≤ k, Level hs j g := by
    induction k generalizing h with
    | zero =>
      refine ⟨[h], rfl, List.nodup_singleton h, fun g hg => ?_⟩
      rw [List.mem_singleton.mp hg]
      exact ⟨hh, 0, Nat.le_refl 0, hk⟩
    | succ k ih =>
      have hbelow := hk
      obtain ⟨p, hp, -, hlevel⟩ := hbelow
      obtain ⟨above, hlen, hnodup, hmem⟩ := ih hp hlevel
      refine ⟨h :: above, by rw [List.length_cons, hlen], ?_, ?_⟩
      · refine List.nodup_cons.mpr ⟨fun hself => ?_, hnodup⟩
        obtain ⟨-, j, hj, hlevel'⟩ := hmem h hself
        have heq := level_unique hnames hlevel' hk
        omega
      · refine List.forall_mem_cons.mpr ⟨⟨hh, k + 1, Nat.le_refl _, hk⟩, ?_⟩
        intro g hg
        obtain ⟨hgs, j, hj, hlevel'⟩ := hmem g hg
        exact ⟨hgs, j, by omega, hlevel'⟩
  obtain ⟨above, hlen, hnodup, hmem⟩ := habove
  have hle := hnodup.length_le_of_subset fun g hg => (hmem g hg).1
  omega

theorem mem_children_grow {depth : Nat} {p c : Handler C} (hc : c ∈ hs)
    (hparent : c.parent? = some p.name) : grow hs depth c ∈ (grow hs (depth + 1) p).children :=
  List.mem_map_of_mem (List.mem_filter.mpr ⟨hc, beq_iff_eq.mpr hparent⟩)

/-- A handler that has a level stands in the forest, under its parent if it has one. -/
theorem exists_mem_forest (hnames : (hs.map (·.name)).Nodup) {k : Nat} {h : Handler C}
    (hh : h ∈ hs) (hk : Level hs k h) : ∃ t ∈ subtreesOf (forest hs), t.handler = h ∧
      (h.parent? = none → t ∈ forest hs) ∧
      ∀ name, h.parent? = some name → ∃ u ∈ subtreesOf (forest hs), u.name = name ∧ t ∈ u.children := by
  induction k generalizing h with
  | zero =>
    have hnone : h.parent? = none := hk
    have hroot : grow hs hs.length h ∈ forest hs :=
      List.mem_map_of_mem (List.mem_filter.mpr ⟨hh, Option.isNone_iff_eq_none.mpr hnone⟩)
    refine ⟨_, subset_subtreesOf hroot, handler_grow _ h, fun _ => hroot, fun name hname => ?_⟩
    rw [hnone] at hname
    cases hname
  | succ k ih =>
    obtain ⟨p, hp, hparent, hlevel⟩ := hk
    obtain ⟨u, hu, hhandler, -⟩ := ih hp hlevel
    obtain ⟨depth, p', j, rfl, hp', hsum, hj⟩ := (grown_forest hnames).2 u hu
    rw [handler_grow] at hhandler
    subst hhandler
    have hlt := hj.lt_length hnames hp'
    cases depth with
    | zero => omega
    | succ depth =>
      have hchild : grow hs depth h ∈ (grow hs (depth + 1) p').children :=
        mem_children_grow hh hparent
      refine ⟨_, mem_subtreesOf_child hu hchild, handler_grow _ h, fun hnone => ?_, ?_⟩
      · rw [hparent] at hnone
        cases hnone
      · intro name hname
        refine ⟨_, hu, ?_, hchild⟩
        rw [HandlerTree.name, handler_grow]
        exact Option.some.inj (hparent.symm.trans hname)

end

end HandlerGrammar
