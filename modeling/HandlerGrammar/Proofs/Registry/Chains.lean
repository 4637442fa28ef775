import HandlerGrammar.Proofs.Registry.Cycles
import HandlerGrammar.Proofs.Registry.Forest

/-! # Chains that describe a forest

The chains of handlers are accepted exactly if they are well formed, and then each handler stands
below finitely many parents.

* `mem_collapseRepeats`, `collapseRepeats_collapseRepeats`: chains without their repeated entries;
* `Declares`, `WellFormed`: what chains have to satisfy;
* `directParents_ok`, `directParents_of_known`, `checkChains_ok_iff`: what each check asks for;
* `acceptedParents_ok_iff`: all checks together;
* `WellFormed.exists_level`, `WellFormed.handlers_forest`: no handler is without a level, so all of
  them stand in the forest. -/
namespace HandlerGrammar
set_option autoImplicit false

variable {C : Type}

/-! ## Repeated entries -/

theorem head?_collapseRepeats (l : List String) : (collapseRepeats l).head? = l.head? := by
  fun_induction collapseRepeats l with
  | case1 b rest ih => exact ih
  | case2 a b rest _ ih => rfl
  | case3 l _ => rfl

theorem getLast?_collapseRepeats (l : List String) :
    (collapseRepeats l).getLast? = l.getLast? := by
  fun_induction collapseRepeats l with
  | case1 b rest ih => rw [ih, List.getLast?_cons_cons]
  | case2 a b rest _ ih =>
    have hne : (collapseRepeats (b :: rest)) ≠ [] := by
      intro hnil
      rw [hnil, List.getLast?_eq_some_getLast (List.cons_ne_nil b rest)] at ih
      cases ih
    rw [List.getLast?_cons_cons, ← ih, List.getLast?_eq_some_getLast hne,
      List.getLast?_eq_some_getLast (by simp), List.getLast_cons hne]
  | case3 l _ => rfl

theorem mem_collapseRepeats {name : String} {l : List String} :
    name ∈ collapseRepeats l ↔ name ∈ l := by
  fun_induction collapseRepeats l with
  | case1 b rest ih => simp [ih]
  | case2 a b rest _ ih => simp [ih]
  | case3 l _ => exact Iff.rfl

theorem collapseRepeats_collapseRepeats (l : List String) :
    collapseRepeats (collapseRepeats l) = collapseRepeats l := by
  fun_induction collapseRepeats l with
  | case1 b rest ih => exact ih
  | case2 a b rest hab ih =>
    obtain ⟨others, hothers⟩ : ∃ others, collapseRepeats (b :: rest) = b :: others := by
      have hhead := head?_collapseRepeats (b :: rest)
      cases hcollapse : collapseRepeats (b :: rest) with
      | nil =>
        rw [hcollapse] at hhead
        cases hhead
      | cons c others =>
        rw [hcollapse] at hhead
        cases hhead
        exact ⟨others, rfl⟩
    rw [hothers] at ih ⊢
    rw [collapseRepeats, if_neg hab, ih]
  | case3 l h => rw [collapseRepeats.eq_2 l h]

namespace Handler

@[simp] theorem parent?_collapseChain (h : Handler C) : h.collapseChain.parent? = h.parent? :=
  getLast?_collapseRepeats h.chain

@[simp] theorem collapseChain_collapseChain (h : Handler C) :
    h.collapseChain.collapseChain = h.collapseChain := by
  simp only [collapseChain, collapseRepeats_collapseRepeats]

theorem mem_chain_of_parent? {h : Handler C} {parent : String} (hparent : h.parent? = some parent) :
    parent ∈ h.chain :=
  List.mem_of_getLast? hparent

end Handler

/-! ## Well-formed chains -/

/-- A handler of the name declares the parent. -/
def Declares (hs : List (Handler C)) (name parent : String) : Prop :=
  ∃ h ∈ hs, h.name = name ∧ h.parent? = some parent

/-- All ancestors are there, no parent is primary, following parents never comes back, and each
entry of a chain without its repeated entries is the parent of the next one. -/
structure WellFormed (hs : List (Handler C)) : Prop where
  known : ∀ h ∈ hs, ∀ ancestor ∈ h.chain, ∃ p ∈ hs, p.name = ancestor
  container : ∀ h ∈ hs, ∀ p ∈ hs, h.parent? = some p.name → p.mode ≠ .primary
  acyclic : ∀ h ∈ hs, ¬ Relation.TransGen (Declares hs) h.name h.name
  linked : ∀ h ∈ hs, (collapseRepeats h.chain).IsChain fun outer inner => Declares hs inner outer

theorem WellFormed.of_subset {hs hs' : List (Handler C)} (h : WellFormed hs) (hsub : hs' ⊆ hs)
    (hsup : hs ⊆ hs') : WellFormed hs' := by
  have hdeclares : Declares hs' = Declares hs := by
    funext name parent
    refine propext ⟨?_, ?_⟩
    · rintro ⟨g, hg, hname⟩
      exact ⟨g, hsub hg, hname⟩
    · rintro ⟨g, hg, hname⟩
      exact ⟨g, hsup hg, hname⟩
  refine ⟨fun g hg a ha => ?_, fun g hg p hp => h.container g (hsub hg) p (hsub hp),
    fun g hg => ?_, fun g hg => ?_⟩
  · obtain ⟨p, hp, hname⟩ := h.known g (hsub hg) a ha
    exact ⟨p, hsup hp, hname⟩
  · rw [hdeclares]
    exact h.acyclic g (hsub hg)
  · rw [hdeclares]
    exact h.linked g (hsub hg)

theorem wellFormed_perm {hs hs' : List (Handler C)} (hperm : hs.Perm hs') :
    WellFormed hs ↔ WellFormed hs' :=
  ⟨fun h => h.of_subset hperm.symm.subset hperm.subset,
    fun h => h.of_subset hperm.subset hperm.symm.subset⟩

theorem declares_collapse (hs : List (Handler C)) :
    Declares (hs.map Handler.collapseChain) = Declares hs := by
  funext name parent
  refine propext ⟨?_, ?_⟩
  · rintro ⟨g, hg, hname, hparent⟩
    obtain ⟨h, hh, rfl⟩ := List.mem_map.mp hg
    exact ⟨h, hh, hname, (h.parent?_collapseChain).symm.trans hparent⟩
  · rintro ⟨h, hh, hname, hparent⟩
    exact ⟨h.collapseChain, List.mem_map_of_mem hh, hname, (h.parent?_collapseChain).trans hparent⟩

/-- Repeated entries do not matter. -/
theorem wellFormed_collapse {hs : List (Handler C)} :
    WellFormed (hs.map Handler.collapseChain) ↔ WellFormed hs := by
  constructor
  · intro h
    have hmem : ∀ g ∈ hs, g.collapseChain ∈ hs.map Handler.collapseChain := fun g hg =>
      List.mem_map_of_mem hg
    refine ⟨fun g hg a ha => ?_, fun g hg p hp hparent => ?_, fun g hg => ?_, fun g hg => ?_⟩
    · obtain ⟨p, hp, hname⟩ := h.known g.collapseChain (hmem g hg) a (mem_collapseRepeats.mpr ha)
      obtain ⟨q, hq, rfl⟩ := List.mem_map.mp hp
      exact ⟨q, hq, hname⟩
    · exact h.container g.collapseChain (hmem g hg) p.collapseChain (hmem p hp)
        ((g.parent?_collapseChain).trans hparent)
    · rw [← declares_collapse]
      exact h.acyclic g.collapseChain (hmem g hg)
    · rw [← declares_collapse, ← collapseRepeats_collapseRepeats]
      exact h.linked _ (hmem g hg)
  · intro h
    refine ⟨?_, ?_, ?_, ?_⟩ <;> refine List.forall_mem_map.mpr fun g hg => ?_
    · intro a ha
      obtain ⟨p, hp, hname⟩ := h.known g hg a (mem_collapseRepeats.mp ha)
      exact ⟨p.collapseChain, List.mem_map_of_mem hp, hname⟩
    · refine List.forall_mem_map.mpr fun p hp hparent => ?_
      exact h.container g hg p hp ((g.parent?_collapseChain).symm.trans hparent)
    · rw [declares_collapse]
      exact h.acyclic g hg
    · rw [declares_collapse]
      change (collapseRepeats (collapseRepeats g.chain)).IsChain _
      rw [collapseRepeats_collapseRepeats]
      exact h.linked g hg

/-! ## The checks -/

section
variable {hs : List (Handler C)}

theorem lookupHandler_eq_none {name : String} :
    lookupHandler hs name = none ↔ ∀ p ∈ hs, p.name ≠ name := by
  simp [lookupHandler]

theorem lookupHandler_of_mem (hnames : (hs.map (·.name)).Nodup) {p : Handler C} (hp : p ∈ hs) :
    lookupHandler hs p.name = some p := by
  cases hfound : lookupHandler hs p.name with
  | none => exact absurd rfl (lookupHandler_eq_none.mp hfound p hp)
  | some q =>
    unfold lookupHandler at hfound
    have hname := List.find?_some hfound
    rw [handler_unique hnames (List.mem_of_find?_eq_some hfound) hp (beq_iff_eq.mp hname)]

/-- The handlers that have a parent, with it. -/
def declaredParents (hs : List (Handler C)) : List (String × String) :=
  hs.filterMap fun h => h.parent?.map (h.name, ·)

theorem declaredParents_cons (h : Handler C) (hs : List (Handler C)) :
    declaredParents (h :: hs) = (h.parent?.map (h.name, ·)).toList ++ declaredParents hs := by
  cases hparent : h.parent? <;> simp [declaredParents, hparent]

variable {registered : List (Handler C)} {parents : List (String × String)}

theorem directParents_ok (hnames : (registered.map (·.name)).Nodup)
    (h : directParents registered hs = .ok parents) :
    (∀ g ∈ hs, ∀ ancestor ∈ g.chain, ∃ p ∈ registered, p.name = ancestor) ∧
      (∀ g ∈ hs, ∀ p ∈ registered, g.parent? = some p.name → p.mode ≠ .primary) ∧
      parents = declaredParents hs := by
  induction hs generalizing parents with
  | nil =>
    cases h
    exact ⟨fun _ hg => absurd hg List.not_mem_nil, fun _ hg => absurd hg List.not_mem_nil, rfl⟩
  | cons g hs ih =>
    rw [List.forall_mem_cons, List.forall_mem_cons, declaredParents_cons]
    unfold directParents at h
    cases hunknown : g.chain.find? fun a => (lookupHandler registered a).isNone with
    | some ancestor =>
      rw [hunknown] at h
      cases h
    | none =>
      rw [hunknown] at h
      have hknown : ∀ ancestor ∈ g.chain, ∃ p ∈ registered, p.name = ancestor := by
        intro ancestor hmem
        have hsome := List.find?_eq_none.mp hunknown ancestor hmem
        simpa [lookupHandler] using hsome
      cases hparent : g.parent? with
      | none =>
        rw [hparent] at h
        obtain ⟨hknowns, hcontainers, hparents⟩ := ih h
        exact ⟨⟨hknown, hknowns⟩, ⟨fun _ _ hname => absurd hname (by simp), hcontainers⟩, hparents⟩
      | some parent =>
        rw [hparent] at h
        dsimp only at h
        split at h
        · cases h
        · next hmode =>
          cases hrest : directParents registered hs with
          | error e =>
            rw [hrest] at h
            cases h
          | ok rest =>
            rw [hrest] at h
            cases h
            obtain ⟨hknowns, hcontainers, rfl⟩ := ih hrest
            refine ⟨⟨hknown, hknowns⟩, ⟨fun p hp hname => ?_, hcontainers⟩, rfl⟩
            cases hname
            rwa [lookupHandler_of_mem hnames hp, Option.any_some, beq_iff_eq] at hmode

theorem directParents_of_known (hnames : (registered.map (·.name)).Nodup)
    (hknown : ∀ g ∈ hs, ∀ ancestor ∈ g.chain, ∃ p ∈ registered, p.name = ancestor)
    (hcontainer : ∀ g ∈ hs, ∀ p ∈ registered, g.parent? = some p.name → p.mode ≠ .primary) :
    directParents registered hs = .ok (declaredParents hs) := by
  induction hs with
  | nil => rfl
  | cons g hs ih =>
    obtain ⟨hself, hknown⟩ := List.forall_mem_cons.mp hknown
    obtain ⟨hmode, hcontainer⟩ := List.forall_mem_cons.mp hcontainer
    have hfind : g.chain.find? (fun a => (lookupHandler registered a).isNone) = none := by
      refine List.find?_eq_none.mpr fun ancestor hmem hnone => ?_
      obtain ⟨p, hp, hname⟩ := hself ancestor hmem
      exact lookupHandler_eq_none.mp (Option.isNone_iff_eq_none.mp hnone) p hp hname
    unfold directParents
    rw [hfind, ih hknown hcontainer, declaredParents_cons]
    cases hparent : g.parent? with
    | none => rfl
    | some parent =>
      obtain ⟨p, hp, rfl⟩ := hself parent (Handler.mem_chain_of_parent? hparent)
      have hother := hmode p hp hparent
      dsimp only
      rw [lookupHandler_of_mem hnames hp, Option.any_some, if_neg (by simpa using hother)]
      rfl

theorem lookup_declaredParents (hnames : (hs.map (·.name)).Nodup) {name parent : String} :
    (declaredParents hs).lookup name = some parent ↔ Declares hs name parent := by
  induction hs with
  | nil =>
    refine iff_of_false (fun hsome => by cases hsome) ?_
    rintro ⟨h, hh, -⟩
    exact List.not_mem_nil hh
  | cons g hs ih =>
    obtain ⟨hfresh, hnodup⟩ := List.nodup_cons.mp hnames
    have hcons : Declares (g :: hs) name parent ↔
        g.name = name ∧ g.parent? = some parent ∨ Declares hs name parent := List.exists_mem_cons_iff ..
    rw [hcons, ← ih hnodup, declaredParents_cons]
    cases hparent : g.parent? with
    | none => simp
    | some p =>
      simp only [Option.map_some, Option.toList_some, List.singleton_append, List.lookup_cons]
      by_cases hname : name = g.name
      · subst hname
        have hnone : ¬ Declares hs g.name parent := by
          rintro ⟨h, hh, hname, -⟩
          exact hfresh (List.mem_map.mpr ⟨h, hh, hname⟩)
        rw [← ih hnodup] at hnone
        simp [hnone]
      · simp [Ne.symm hname, beq_eq_false_iff_ne.mpr hname]

theorem under_declaredParents (hnames : (hs.map (·.name)).Nodup) :
    Under (declaredParents hs) = Declares hs := by
  funext name parent
  exact propext (lookup_declaredParents hnames)

theorem parent?_eq_lookup (hnames : (hs.map (·.name)).Nodup) {h : Handler C} (hh : h ∈ hs) :
    (declaredParents hs).lookup h.name = h.parent? := by
  refine Option.ext fun parent => (lookup_declaredParents hnames).trans ⟨?_, ?_⟩
  · rintro ⟨g, hg, hname, hparent⟩
    rwa [handler_unique hnames hg hh hname] at hparent
  · exact fun hparent => ⟨h, hh, rfl, hparent⟩

theorem brokenLink_eq_none {chain : List String} : brokenLink parents chain = none ↔
    chain.IsChain fun outer inner => Under parents inner outer := by
  fun_induction brokenLink parents chain with
  | case1 outer inner rest h ih => rw [ih, List.isChain_cons_cons, Under, and_iff_right h]
  | case2 outer inner rest h => simp [Under, h]
  | case3 chain h =>
    refine iff_of_true rfl ?_
    cases chain with
    | nil => exact List.isChain_nil
    | cons outer rest =>
      cases rest with
      | nil => exact List.isChain_singleton outer
      | cons inner rest => exact absurd rfl (h outer inner rest)

theorem checkChains_ok_iff {u : Unit} : checkChains parents hs = .ok u ↔
    ∀ h ∈ hs, h.chain.IsChain fun outer inner => Under parents inner outer := by
  induction hs with
  | nil => simp [checkChains]
  | cons g hs ih =>
    unfold checkChains
    rw [List.forall_mem_cons, ← ih, ← brokenLink_eq_none]
    cases brokenLink parents g.chain <;> simp

theorem WellFormed.findCycle_eq_none (hnames : (hs.map (·.name)).Nodup) (h : WellFormed hs) :
    findCycle (declaredParents hs) = none := by
  cases hcycle : findCycle (declaredParents hs) with
  | none => rfl
  | some path =>
    obtain ⟨name, -, hreturns⟩ := (findCycle_some hcycle).returns
    rw [under_declaredParents hnames] at hreturns
    obtain ⟨next, ⟨g, hg, rfl, -⟩, -⟩ := Relation.TransGen.head'_iff.mp hreturns
    exact absurd hreturns (h.acyclic g hg)

/-- Chains without repeated entries are accepted exactly if they are well formed, with the parents
that they declare. -/
theorem acceptedParents_ok_iff (hnames : (hs.map (·.name)).Nodup)
    (hcollapsed : ∀ h ∈ hs, collapseRepeats h.chain = h.chain) :
    acceptedParents hs = .ok parents ↔ WellFormed hs ∧ parents = declaredParents hs := by
  unfold acceptedParents
  constructor
  · intro h
    cases hdirect : directParents hs hs with
    | error e =>
      rw [hdirect] at h
      cases h
    | ok direct =>
      obtain ⟨hknown, hcontainer, rfl⟩ := directParents_ok hnames hdirect
      simp only [hdirect, bind, Except.bind] at h
      cases hcycle : findCycle (declaredParents hs) with
      | some path =>
        rw [hcycle] at h
        cases h
      | none =>
        rw [hcycle] at h
        cases hchains : checkChains (declaredParents hs) hs with
        | error e =>
          rw [hchains] at h
          cases h
        | ok u =>
          rw [hchains] at h
          cases h
          refine ⟨⟨hknown, hcontainer, fun g _ => ?_, fun g hg => ?_⟩, rfl⟩
          · rw [← under_declaredParents hnames]
            exact (findCycle_none hcycle g.name).not_returns
          · rw [hcollapsed g hg, ← under_declaredParents hnames]
            exact checkChains_ok_iff.mp hchains g hg
  · rintro ⟨h, rfl⟩
    have hchains : checkChains (declaredParents hs) hs = .ok () := by
      refine checkChains_ok_iff.mpr fun g hg => ?_
      rw [under_declaredParents hnames, ← hcollapsed g hg]
      exact h.linked g hg
    simp only [directParents_of_known hnames h.known h.container, bind, Except.bind,
      h.findCycle_eq_none hnames, hchains]
    rfl

/-- Following parents from any handler comes to a root. -/
theorem WellFormed.exists_level (hnames : (hs.map (·.name)).Nodup) (h : WellFormed hs)
    {g : Handler C} (hg : g ∈ hs) : ∃ k, Level hs k g := by
  have hrooted := findCycle_none (h.findCycle_eq_none hnames) g.name
  generalize hname : g.name = name at hrooted
  induction hrooted generalizing g with
  | root hnone =>
    rw [← hname, parent?_eq_lookup hnames hg] at hnone
    exact ⟨0, hnone⟩
  | @under name parent hparent _ ih =>
    rw [← hname, Under, parent?_eq_lookup hnames hg] at hparent
    obtain ⟨p, hp, rfl⟩ := h.known g hg parent (Handler.mem_chain_of_parent? hparent)
    obtain ⟨k, hk⟩ := ih hp rfl
    exact ⟨k + 1, p, hp, hparent, hk⟩

/-- The forest has each handler once. -/
theorem WellFormed.handlers_forest (hnames : (hs.map (·.name)).Nodup) (h : WellFormed hs) :
    (HandlerTree.handlersOf (forest hs)).Perm hs := by
  rw [← HandlerTree.map_handler_subtreesOf]
  refine (List.perm_ext_iff_of_nodup (grown_forest hnames).1 (List.Nodup.of_map _ hnames)).mpr
    fun g => ⟨fun hg => ?_, fun hg => ?_⟩
  · obtain ⟨t, ht, rfl⟩ := List.mem_map.mp hg
    exact handler_mem_of_forest hnames ht
  · obtain ⟨k, hk⟩ := h.exists_level hnames hg
    obtain ⟨t, ht, rfl, -⟩ := exists_mem_forest hnames hg hk
    exact List.mem_map_of_mem ht

end

end HandlerGrammar
