import HandlerGrammar.Proofs.Document.Wrappers
import HandlerGrammar.Proofs.Tree.Regrouping

/-! # The shape of gathered nodes

Whatever nodes a container's wrappers are gathered from, the new branches hang in each other as the
wrappers do: by induction on the forest of wrappers, since those nested in a wrapper have been
gathered when the wrapper takes them in as members, and no wrapper gathered between the two takes
them away. This needs no parse: the nodes may be any that do not carry the wrappers' names.

* `Stands`, `StandAll`: branches in the shape of wrappers;
* `Apart`: what keeps the wrappers of a container apart;
* `Regrouped`: what gathering the wrappers of a forest makes of nodes;
* `regrouped_forest`: gathering makes it, for all forests of wrappers kept apart;
* `gathering_shapes`: a single pass regroups, and one after another give the shape of the wrappers. -/
namespace HandlerGrammar
open HandlerTree ParseTree
set_option autoImplicit false

variable {C : Type}

/-! ## Shapes -/

namespace HandlerTree

mutual
/-- One of the nodes carries the name of the wrapper. It is a branch that holds members of the
wrapper, and those of them named in `names` are in the shape of the wrappers among its children. -/
def Stands (names : List String) : HandlerTree C → List ParseTree → Prop
  | .node h us, nodes => ∃ line held,
    nodes.filter (isMember [h.name]) = [branch (some h.name) line held] ∧
      (∀ c ∈ held, isMember (memberLabels us) c = true ∧ (isMember names c = true →
        ∃ u ∈ us, u.handler.mode = .wrapper ∧ c.label = some u.name)) ∧
      StandAll names us held

/-- Each wrapper of the list stands among the nodes. -/
def StandAll (names : List String) : List (HandlerTree C) → List ParseTree → Prop
  | [], _ => True
  | t :: ts, nodes => (t.handler.mode = .wrapper → Stands names t nodes) ∧ StandAll names ts nodes
end

section
variable {names : List String} {nodes nodes' : List ParseTree}

theorem standAll_iff {ts : List (HandlerTree C)} : StandAll names ts nodes ↔
    ∀ t ∈ ts, t.handler.mode = .wrapper → Stands names t nodes := by
  induction ts with
  | nil => simp [StandAll]
  | cons t ts ih => simp [StandAll, ih]

theorem Stands.congr {t : HandlerTree C} (h : Stands names t nodes)
    (hsame : nodes'.filter (isMember [t.name]) = nodes.filter (isMember [t.name])) :
    Stands names t nodes' := by
  obtain ⟨handler, us⟩ := t
  obtain ⟨line, held, hnode, hheld⟩ := h
  exact ⟨line, held, hsame.trans hnode, hheld⟩

theorem StandAll.congr {ts : List (HandlerTree C)} (h : StandAll names ts nodes)
    (hsame : ∀ t ∈ ts, nodes'.filter (isMember [t.name]) = nodes.filter (isMember [t.name])) :
    StandAll names ts nodes' := by
  apply standAll_iff.mpr
  intro t ht hmode
  exact (standAll_iff.mp h t ht hmode).congr (hsame t ht)

end
end HandlerTree

/-! ## Wrappers apart -/

/-- The wrappers have different names, all among `names`, and of the names none is claimed by a
wrapper but those of the wrappers among its children. -/
structure Apart (names : List String) (ws : List (HandlerTree C)) : Prop where
  nodup : (ws.map HandlerTree.name).Nodup
  named : ∀ w ∈ ws, w.name ∈ names
  claims : ∀ w ∈ ws, ∀ l ∈ memberLabels w.children, l ∈ names →
    ∃ u ∈ w.children, u.handler.mode = .wrapper ∧ u.name = l

theorem Apart.sublist {names : List String} {ws ws' : List (HandlerTree C)} (h : Apart names ws)
    (hsub : ws'.Sublist ws) : Apart names ws' :=
  ⟨h.nodup.sublist (hsub.map _), fun w hw => h.named w (hsub.subset hw),
    fun w hw => h.claims w (hsub.subset hw)⟩

theorem WellNested.apart {roots : List (HandlerTree C)} (hroots : WellNested roots)
    {t : HandlerTree C} (ht : t ∈ subtreesOf roots) :
    Apart ((nestedWrappers t.children).map HandlerTree.name) (nestedWrappers t.children) := by
  refine ⟨(hroots.nodup_wrappers ht).1, fun w hw => List.mem_map_of_mem hw, ?_⟩
  intro w hw l hl hname
  obtain ⟨w', hw', rfl⟩ := List.mem_map.mp hname
  have hchild := hroots.distinct.mem_children (mem_subtreesOf_of_nestedWrapper ht hw')
    (mem_subtreesOf_of_nestedWrapper ht hw) hl
  exact ⟨w', hchild, (nestedWrappers_split hw').1, rfl⟩

section
variable {names : List String} {ts : List (HandlerTree C)} {t : HandlerTree C}

/-- The wrappers gathered after a sibling of theirs do not touch its node. -/
theorem Apart.sibling (h : Apart names (nestedWrappers (t :: ts))) (hmode : t.handler.mode = .wrapper)
    {w : HandlerTree C} (hw : w ∈ nestedWrappers ts) :
    w.name ≠ t.name ∧ t.name ∉ memberLabels w.children := by
  have ht := mem_wrappersOf hmode
  have hnodup := h.nodup
  rw [nestedWrappers, List.map_append] at hnodup
  have hother : ∀ w' ∈ nestedWrappers ts, w'.name ≠ t.name := by
    intro w' hw' hname
    apply (List.nodup_append'.mp hnodup).2.2 (List.mem_map_of_mem ht)
    rw [← hname]
    exact List.mem_map_of_mem hw'
  refine ⟨hother w hw, fun hclaimed => ?_⟩
  obtain ⟨u, hu, humode, hname⟩ := h.claims w (List.mem_append_right _ hw) _ hclaimed
    (h.named t (List.mem_append_left _ ht))
  obtain ⟨-, before, after, hsplit⟩ := nestedWrappers_split hw
  have hnested := mem_nestedWrappers_of_child hu humode
  apply hother u _ hname
  rw [hsplit]
  simp [hnested]

end

/-! ## Gathering a forest of wrappers -/

/-- Gathering the wrappers among `ts` makes `nodes'` of `nodes`: each of them stands, and no other
node gets a name among `names`. -/
structure Regrouped (names : List String) (ts : List (HandlerTree C))
    (nodes nodes' : List ParseTree) : Prop where
  stand : StandAll names ts nodes'
  only : ∀ n ∈ nodes', isMember names n = true →
    n ∈ nodes ∨ ∃ w ∈ ts, w.handler.mode = .wrapper ∧ n.label = some w.name

/-- Nodes without the names of wrappers. -/
def Fresh (ws : List (HandlerTree C)) (nodes : List ParseTree) : Prop :=
  ∀ n ∈ nodes, ∀ w ∈ ws, n.label ≠ some w.name

section
variable {names : List String} {line : Nat} {nodes nodes' nodes'' : List ParseTree}

/-- When those nested in it stand, a wrapper comes to stand. -/
theorem Regrouped.gather {h : Handler C} {us : List (HandlerTree C)}
    (hus : Regrouped names us nodes nodes') (hmode : h.mode = .wrapper)
    (hfresh : ∀ n ∈ nodes', n.label ≠ some h.name)
    (hclaims : ∀ l ∈ memberLabels us, l ∈ names →
      ∃ u ∈ us, u.handler.mode = .wrapper ∧ u.name = l) :
    Regrouped names [.node h us] nodes (gather h.name (memberLabels us) line nodes') := by
  have hlabels : ∀ u ∈ us, u.name ∈ memberLabels us := fun u hu =>
    mem_memberLabels.mpr (Or.inl ⟨u, hu, rfl⟩)
  have hnone : nodes'.filter (isMember [h.name]) = [] :=
    List.filter_eq_nil_iff.mpr fun n hn => by simpa [isMember_iff] using hfresh n hn
  refine ⟨⟨fun _ => ⟨_, _, filter_gather_self hnone, fun c hc => ?_, ?_⟩, trivial⟩, ?_⟩
  · have hclaimed := (List.mem_filter.mp hc).2
    refine ⟨hclaimed, fun hnamed => ?_⟩
    obtain ⟨l, hl, hlabel⟩ := isMember_iff.mp hclaimed
    have hname : l ∈ names := by simpa [isMember, hlabel] using hnamed
    obtain ⟨u, hu, humode, rfl⟩ := hclaims l hl hname
    exact ⟨u, hu, humode, hlabel⟩
  · apply hus.stand.congr
    intro u hu
    exact filter_filter_isMember (by simpa using hlabels u hu) nodes'
  · intro n hn hnamed
    rcases (mem_gather _ _ _ _).mp hn with rfl | ⟨hn, hstays⟩
    · exact Or.inr ⟨_, List.mem_singleton_self _, hmode, rfl⟩
    · rcases hus.only n hn hnamed with hn | ⟨u, hu, -, hlabel⟩
      · exact Or.inl hn
      · rw [isMember_iff.mpr ⟨_, hlabels u hu, hlabel⟩] at hstays
        cases hstays

/-- A wrapper stays when its siblings are gathered without touching its node. -/
theorem Regrouped.trans {t : HandlerTree C} {ts : List (HandlerTree C)}
    (ht : Regrouped names [t] nodes nodes') (hts : Regrouped names ts nodes' nodes'')
    (hsame : t.handler.mode = .wrapper →
      nodes''.filter (isMember [t.name]) = nodes'.filter (isMember [t.name])) :
    Regrouped names (t :: ts) nodes nodes'' := by
  refine ⟨⟨fun hmode => (ht.stand.1 hmode).congr (hsame hmode), hts.stand⟩, fun n hn hnamed => ?_⟩
  rcases hts.only n hn hnamed with hn | ⟨w, hw, h⟩
  · rcases ht.only n hn hnamed with hn | ⟨w, hw, h⟩
    · exact Or.inl hn
    · exact Or.inr ⟨w, List.mem_cons.mpr (Or.inl (List.mem_singleton.mp hw)), h⟩
  · exact Or.inr ⟨w, List.mem_cons_of_mem t hw, h⟩

theorem Regrouped.not_named {ts ws : List (HandlerTree C)} (h : Regrouped names ts nodes nodes')
    (hfresh : Fresh ws nodes) {w : HandlerTree C} (hw : w ∈ ws) (hname : w.name ∈ names)
    (hne : ∀ t ∈ ts, t.handler.mode = .wrapper → w.name ≠ t.name) :
    ∀ n ∈ nodes', n.label ≠ some w.name := by
  intro n hn hlabel
  rcases h.only n hn (isMember_iff.mpr ⟨_, hname, hlabel⟩) with hn | ⟨t, ht, hmode, hlabel'⟩
  · exact hfresh n hn w hw hlabel
  · exact hne t ht hmode (Option.some.inj (hlabel.symm.trans hlabel'))

mutual
theorem regrouped_forest (ts : List (HandlerTree C)) {nodes : List ParseTree}
    (h : Apart names (nestedWrappers ts)) (hfresh : Fresh (nestedWrappers ts) nodes) :
    Regrouped names ts nodes (gatherAll line (wrapperGroups ts) nodes) := by
  match ts with
  | [] => exact ⟨trivial, fun n hn _ => Or.inl hn⟩
  | t :: ts =>
    have ht := regrouped_tree t (h.sublist (List.sublist_append_left _ _))
      fun n hn w hw => hfresh n hn w (List.mem_append_left _ hw)
    -- what gathering `t` adds is named `t`, so the wrappers behind it find no name of theirs
    have hrest : Fresh (nestedWrappers ts) (gatherAll line (wrapperGroup t) nodes) := by
      intro n hn w hw
      have hmem : w ∈ nestedWrappers (t :: ts) := List.mem_append_right _ hw
      refine ht.not_named hfresh hmem (h.named w hmem) (fun t' ht' hmode => ?_) n hn
      obtain rfl := List.mem_singleton.mp ht'
      exact (h.sibling hmode hw).1
    have hts := regrouped_forest ts (h.sublist (List.sublist_append_right _ _)) hrest
    rw [wrapperGroups, gatherAll_append]
    refine ht.trans hts fun hmode => ?_
    rw [wrapperGroups_eq]
    apply filter_wrappers
    intro w hw
    simpa using h.sibling hmode hw

theorem regrouped_tree (t : HandlerTree C) {nodes : List ParseTree} (h : Apart names (wrappersOf t))
    (hfresh : Fresh (wrappersOf t) nodes) :
    Regrouped names [t] nodes (gatherAll line (wrapperGroup t) nodes) := by
  match t with
  | .node handler us =>
    by_cases hmode : handler.mode = .wrapper
    · have hself : .node handler us ∈ wrappersOf (.node handler us) := mem_wrappersOf hmode
      have hwrappers : wrappersOf (.node handler us) = nestedWrappers us ++ [.node handler us] :=
        wrappersOf_of_mode hmode
      have hgroups : wrapperGroup (.node handler us) =
          wrapperGroups us ++ [(handler.name, memberLabels us)] := by
        simp [wrapperGroup, hmode]
      have hnodup := h.nodup
      rw [hwrappers, List.map_append] at hnodup
      have hsub : (nestedWrappers us).Sublist (wrappersOf (.node handler us)) := by
        rw [hwrappers]
        exact List.sublist_append_left _ _
      have hus := regrouped_forest us (h.sublist hsub) fun n hn w hw =>
        hfresh n hn w (hsub.subset hw)
      rw [hgroups, gatherAll_append]
      refine hus.gather hmode ?_ (h.claims _ hself)
      refine hus.not_named hfresh hself (h.named _ hself) fun u hu humode hname => ?_
      have hnested := mem_nestedWrappers_of_child hu humode
      apply (List.nodup_append'.mp hnodup).2.2 (List.mem_map_of_mem hnested)
      simp [hname]
    · have hgroups : wrapperGroup (.node handler us) = [] := by simp [wrapperGroup, hmode]
      rw [hgroups]
      exact ⟨⟨fun h => absurd h hmode, trivial⟩, fun n hn _ => Or.inl hn⟩
end

end

/-- A single pass over nodes moves those that it gathers, in their order, into one new branch: behind
what stood before the first of them, before the nodes that follow it and stay, and last if there is
none to move. The nodes that stay keep their order and no node is lost or doubled. One gathering
after another for the wrappers nested in any container of a registry, inner ones first, over nodes
that do not carry their names, makes branches that hang in each other as the wrappers do, and opened
again they give the nodes back. -/
theorem gathering_shapes :
    (∀ label members line nodes,
      gatherInOnePass label members line nodes = gather label members line nodes ∧
      ∃ before after, Gathering label members line nodes before after
        (gather label members line nodes)) ∧
    ∀ {r : Registry C} {roots : List (HandlerTree C)}, r.Reached → r.roots = .ok roots →
      ∀ t ∈ subtreesOf roots, ∀ line nodes, Fresh (nestedWrappers t.children) nodes →
        let names := (nestedWrappers t.children).map HandlerTree.name
        let gathered := gatherAll line (wrapperGroups t.children) nodes
        StandAll names t.children gathered ∧
        (∀ n ∈ gathered, isMember names n = true →
          ∃ w ∈ t.children, w.handler.mode = .wrapper ∧ n.label = some w.name) ∧
        (openedAll names gathered).Perm nodes := by
  constructor
  · intro label members line nodes
    exact ⟨gatherInOnePass_eq label members line nodes, gathering_gather label members line nodes⟩
  · intro r roots hr hroots t ht line nodes hfresh names gathered
    have hapart := (hr.wellNested hroots).apart ht
    have hforest : Regrouped names t.children nodes gathered :=
      regrouped_forest t.children hapart hfresh
    have hplain : ∀ n ∈ nodes, isMember names n = false := by
      intro n hn
      apply Bool.eq_false_iff.mpr
      intro hnamed
      obtain ⟨l, hl, hlabel⟩ := isMember_iff.mp hnamed
      obtain ⟨w, hw, rfl⟩ := List.mem_map.mp hl
      exact hfresh n hn w hw hlabel
    refine ⟨hforest.stand, fun n hn hnamed => ?_, ?_⟩
    · apply (hforest.only n hn hnamed).resolve_left
      intro hn
      simp [hplain n hn] at hnamed
    · have hopened : (openedAll names gathered).Perm (openedAll names nodes) := by
        apply openedAll_gatherAll_perm
        intro g hg
        show g.1 ∈ (nestedWrappers t.children).map HandlerTree.name
        rw [← map_fst_wrapperGroups]
        exact List.mem_map_of_mem hg
      rwa [openedAll_eq_self hplain] at hopened

/-! ## An example -/

/-- A container with a wrapper in a wrapper, and a member in each of the three. -/
def nestedBatch : List (Handler Unit) :=
  [⟨"doc", .object, [], fun _ => pure ()⟩, ⟨"size", .primary, ["doc"], fun _ => pure ()⟩,
    ⟨"outer", .wrapper, ["doc"], fun _ => pure ()⟩,
    ⟨"title", .primary, ["doc", "outer"], fun _ => pure ()⟩,
    ⟨"inner", .wrapper, ["doc", "outer"], fun _ => pure ()⟩,
    ⟨"name", .primary, ["doc", "outer", "inner"], fun _ => pure ()⟩]

def nestedRoots : List (HandlerTree Unit) :=
  [.node ⟨"doc", .object, [], fun _ => pure ()⟩
    [.node ⟨"outer", .wrapper, ["doc"], fun _ => pure ()⟩
      [.node ⟨"inner", .wrapper, ["doc", "outer"], fun _ => pure ()⟩
        [.node ⟨"name", .primary, ["doc", "outer", "inner"], fun _ => pure ()⟩ []],
      .node ⟨"title", .primary, ["doc", "outer"], fun _ => pure ()⟩ []],
    .node ⟨"size", .primary, ["doc"], fun _ => pure ()⟩ []]]

open Registry in
/-- A title behind a name and a size: the outer wrapper holds it behind the inner one. -/
theorem gathering_shapes_sample :
    let r := left (register nestedBatch .empty)
    let nodes := [leaf (some "name") ⟨.string, 1, "\"a\"", .text "a"⟩,
      leaf (some "size") ⟨.integer, 2, "1", .integer 1⟩,
      leaf (some "title") ⟨.string, 3, "\"b\"", .text "b"⟩]
    r.Reached ∧ r.roots = .ok nestedRoots ∧
    ∃ t ∈ subtreesOf nestedRoots, Fresh (nestedWrappers t.children) nodes ∧
      (nestedWrappers t.children).map HandlerTree.name = ["inner", "outer"] ∧
      StandAll ["inner", "outer"] t.children (gatherAll 1 (wrapperGroups t.children) nodes) ∧
      (openedAll ["inner", "outer"] (gatherAll 1 (wrapperGroups t.children) nodes)).Perm nodes := by
  intro r nodes
  have hreached : r.Reached := .register _ .empty
  have hroots : r.roots = .ok nestedRoots := rfl
  have hfresh : ∀ t ∈ nestedRoots, Fresh (nestedWrappers t.children) nodes := by
    unfold Fresh
    decide
  refine ⟨hreached, hroots, _, List.mem_cons_self .., hfresh _ (List.mem_cons_self ..), rfl, ?_⟩
  obtain ⟨hstand, -, hperm⟩ := gathering_shapes.2 hreached hroots _ (List.mem_cons_self ..) 1 nodes
    (hfresh _ (List.mem_cons_self ..))
  exact ⟨hstand, hperm⟩

end HandlerGrammar
