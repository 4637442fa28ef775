import HandlerGrammar.Proofs.Document.Wrappers
import HandlerGrammar.Proofs.Tree.Opening

/-! # The order of members

A container gathers the members of a wrapper at the place of the first of them, with those of the
wrappers nested in it. If members that belong elsewhere stand between them, these change places with
the members behind; otherwise all members keep their places.

* `takes`, `taker?`: the wrapper that takes a member away from the container;
* `BelongsTo`: the members of a wrapper and of those nested in it;
* `holder_nestedWrappers`, `heldBy_iff`: what the node of a wrapper will hold;
* `Distinct.nested_before`: the place of a wrapper among others;
* `Undivided`: no members between those of a wrapper;
* `WellNested.openedAll_eq_iff`: when the members of a container keep their places. -/
namespace HandlerGrammar
open HandlerTree ParseTree
set_option autoImplicit false

variable {C : Type}

namespace HandlerTree

/-- Whether a wrapper gathers nodes with the label. -/
def takes (l : String) (w : HandlerTree C) : Bool := (memberLabels w.children).contains l

/-- The wrapper that takes members with the label away from a container. Of several that could the
innermost on the left does, which comes first. -/
def taker? (ts : List (HandlerTree C)) (l : String) : Option (HandlerTree C) :=
  (nestedWrappers ts).find? (takes l)

/-- The member is taken by the wrapper or by one nested in it. -/
def BelongsTo (ts : List (HandlerTree C)) (w : HandlerTree C) (n : ParseTree) : Prop :=
  ∃ l u, n.label = some l ∧ taker? ts l = some u ∧ u ∈ wrappersOf w

/-- For each wrapper nested in a container, the members that belong to it have no others between
them. -/
def Undivided (ts : List (HandlerTree C)) (members : List ParseTree) : Prop :=
  ∀ w ∈ nestedWrappers ts, SideBySide (BelongsTo ts w) members

theorem takes_iff {l : String} {w : HandlerTree C} :
    takes l w = true ↔ l ∈ memberLabels w.children := List.contains_iff_mem

theorem mem_subtreesOf_of_wrapper {ts : List (HandlerTree C)} {w : HandlerTree C}
    (hw : w ∈ nestedWrappers ts) : w ∈ subtreesOf ts :=
  (nestedWrappers_perm ts).mem_iff.mp (List.mem_append_left _ hw)

end HandlerTree

theorem Distinct.children {ts : List (HandlerTree C)} (h : Distinct ts) {t : HandlerTree C}
    (ht : t ∈ subtreesOf ts) : Distinct t.children := h.mono (children_sublist ht).subperm

/-- A wrapper does not take what is no child of it. -/
theorem Distinct.not_takes {ts : List (HandlerTree C)} (h : Distinct ts) {t w : HandlerTree C}
    (ht : t ∈ subtreesOf ts) (hw : w ∈ subtreesOf ts) (hchild : t ∉ w.children) :
    takes t.name w = false := by
  apply Bool.eq_false_iff.mpr
  intro htakes
  exact hchild (h.mem_children ht hw (takes_iff.mp htakes))

/-! ## What the node of a wrapper will hold -/

theorem holder_append (groups groups' : List (String × List String)) (l : String) :
    holder (groups ++ groups') l = holder groups' (holder groups l) := List.foldl_append

section
variable {ws : List (HandlerTree C)} {l : String}

theorem holder_of_find?_none (h : ws.find? (takes l) = none) :
    holder (ws.map groupOf) l = l := by
  induction ws with
  | nil => rfl
  | cons w ws ih =>
    obtain ⟨hw, hws⟩ := List.forall_mem_cons.mp (List.find?_eq_none.mp h)
    have hnot : (memberLabels w.children).contains l = false := Bool.eq_false_iff.mpr hw
    change holder (ws.map groupOf) (if (memberLabels w.children).contains l then w.name else l) = l
    rw [hnot]
    exact ih (List.find?_eq_none.mpr hws)

/-- What is taken is held by one of the wrappers. -/
theorem holder_of_find?_some {u : HandlerTree C} (h : ws.find? (takes l) = some u) :
    ∃ w ∈ ws, holder (ws.map groupOf) l = w.name := by
  have hname : ∀ (ws : List (HandlerTree C)) (l : String),
      holder (ws.map groupOf) l = l ∨ ∃ w ∈ ws, holder (ws.map groupOf) l = w.name := by
    intro ws
    induction ws with
    | nil => exact fun l => Or.inl rfl
    | cons w ws ih =>
      intro l
      change holder (ws.map groupOf) (if takes l w then w.name else l) = l ∨
        ∃ w' ∈ w :: ws, holder (ws.map groupOf) (if takes l w then w.name else l) = w'.name
      split
      · rcases ih w.name with h | ⟨w', hw', h⟩
        · exact Or.inr ⟨w, List.mem_cons_self .., h⟩
        · exact Or.inr ⟨w', List.mem_cons_of_mem _ hw', h⟩
      · rcases ih l with h | ⟨w', hw', h⟩
        · exact Or.inl h
        · exact Or.inr ⟨w', List.mem_cons_of_mem _ hw', h⟩
  obtain ⟨htakes, before, after, rfl, hbefore⟩ := List.find?_eq_some_iff_append.mp h
  have hnone : before.find? (takes l) = none :=
    List.find?_eq_none.mpr fun w hw => by simpa using hbefore w hw
  have hsplit : holder ((before ++ u :: after).map groupOf) l = holder (after.map groupOf) u.name := by
    rw [List.map_append, holder_append, holder_of_find?_none hnone]
    change holder (after.map groupOf) (if takes l u then u.name else l) = _
    rw [if_pos htakes]
  rw [hsplit]
  rcases hname after u.name with h | ⟨w, hw, h⟩
  · exact ⟨u, by simp, h⟩
  · exact ⟨w, by simp [hw], h⟩

end

mutual
/-- What a wrapper inside a container takes is held by a child of the container in the end. -/
theorem holder_nestedWrappers {ts : List (HandlerTree C)} (hts : Distinct ts) {l : String}
    {u : HandlerTree C} (h : (nestedWrappers ts).find? (takes l) = some u) :
    ∃ t ∈ ts, holder ((nestedWrappers ts).map groupOf) l = t.name := by
  match ts with
  | [] => cases h
  | t :: ts =>
    have hrest : Distinct ts := hts.mono (List.sublist_append_right _ _).subperm
    rw [nestedWrappers, List.find?_append] at h
    rw [nestedWrappers, List.map_append]
    cases hfirst : (wrappersOf t).find? (takes l) with
    | some u' =>
      have hsingle : Distinct [t] := by
        refine hts.mono ?_
        rw [subtreesOf, subtreesOf, subtreesOf, List.append_nil]
        exact (List.sublist_append_left _ _).subperm
      have hheld := holder_wrappersOf hsingle hfirst
      have hself : t ∈ t.subtrees := by
        rw [subtrees_eq]
        exact List.mem_cons_self ..
      have hnot : (nestedWrappers ts).find? (takes t.name) = none := by
        refine List.find?_eq_none.mpr fun w hw => ?_
        have hw := mem_subtreesOf_of_wrapper hw
        rw [hts.not_takes (List.mem_append_left _ hself) (List.mem_append_right _ hw)]
        · exact Bool.false_ne_true
        · intro hchild
          have hnodup := hts.1
          rw [subtreesOf, List.map_append] at hnodup
          exact (List.nodup_append'.mp hnodup).2.2 (List.mem_map_of_mem hself)
            (List.mem_map_of_mem (mem_subtreesOf_child hw hchild))
      refine ⟨t, List.mem_cons_self .., ?_⟩
      rw [holder_append, hheld, holder_of_find?_none hnot]
    | none =>
      rw [hfirst, Option.none_or] at h
      obtain ⟨t', ht', hheld⟩ := holder_nestedWrappers hrest h
      refine ⟨t', List.mem_cons_of_mem _ ht', ?_⟩
      rw [holder_append, holder_of_find?_none hfirst, hheld]

theorem holder_wrappersOf {t : HandlerTree C} (ht : Distinct [t]) {l : String}
    {u : HandlerTree C} (h : (wrappersOf t).find? (takes l) = some u) :
    holder ((wrappersOf t).map groupOf) l = t.name := by
  match t with
  | .node h' us =>
    unfold wrappersOf at h ⊢
    split at h
    · next hmode =>
      have hchildren : Distinct us := ht.children (t := .node h' us) (List.mem_cons_self ..)
      have htakes : takes (holder ((nestedWrappers us).map groupOf) l) (.node h' us) = true := by
        rw [List.find?_append] at h
        cases hinner : (nestedWrappers us).find? (takes l) with
        | some u' =>
          obtain ⟨t', ht', hheld⟩ := holder_nestedWrappers hchildren hinner
          rw [hheld]
          exact takes_iff.mpr (mem_memberLabels.mpr (Or.inl ⟨t', ht', rfl⟩))
        | none =>
          rw [hinner, Option.none_or] at h
          rw [holder_of_find?_none hinner]
          have htakes := List.find?_some h
          rwa [List.mem_singleton.mp (List.mem_of_find?_eq_some h)] at htakes
      rw [if_pos hmode, List.map_append, holder_append]
      change (if takes _ (.node h' us) then h'.name else _) = h'.name
      rw [if_pos htakes]
    · cases h
end

/-! ## The place of a wrapper -/

theorem Distinct.nodup_nestedWrappers {ts : List (HandlerTree C)} (hts : Distinct ts) :
    (nestedWrappers ts).Nodup := by
  have hnames := (nestedWrappers_perm ts).map HandlerTree.name
  rw [List.map_append] at hnames
  exact (List.nodup_append'.mp (hnames.nodup_iff.mpr hts.1)).1.of_map

/-- Wherever a wrapper stands, those nested in it stand right in front. -/
theorem Distinct.nested_before {ts earlier later : List (HandlerTree C)} (hts : Distinct ts)
    {w : HandlerTree C} (h : nestedWrappers ts = earlier ++ w :: later) :
    ∃ before, earlier = before ++ nestedWrappers w.children := by
  have hw : w ∈ nestedWrappers ts := by
    rw [h]
    exact List.mem_append_right _ (List.mem_cons_self ..)
  obtain ⟨-, before, after, hsplit⟩ := nestedWrappers_split hw
  have hnodup := hts.nodup_nestedWrappers
  rw [h] at hnodup
  obtain ⟨-, hlater, hearlier⟩ := List.nodup_append'.mp hnodup
  have heither := (List.append_cons_inj_of_notMem (fun hw => hearlier hw (List.mem_cons_self ..))
    (List.nodup_cons.mp hlater).1).mp (h.symm.trans hsplit)
  exact ⟨before, heither.1⟩

section
variable {ts before after : List (HandlerTree C)} (hts : Distinct ts) {w : HandlerTree C}
  (hsplit : nestedWrappers ts = before ++ nestedWrappers w.children ++ w :: after)
include hsplit

theorem mem_nestedWrappers_of_split : w ∈ nestedWrappers ts := by
  rw [hsplit]
  exact List.mem_append_right _ (List.mem_cons_self ..)

theorem nestedWrappers_eq_of_split : nestedWrappers ts = before ++ (wrappersOf w ++ after) := by
  rw [hsplit, wrappersOf_of_mode (nestedWrappers_split (mem_nestedWrappers_of_split hsplit)).1]
  simp

include hts

/-- What a wrapper in front is named belongs neither to the wrapper nor to those nested in it. -/
theorem Distinct.not_takes_before {w' w'' : HandlerTree C} (hw' : w' ∈ before)
    (hw'' : w'' ∈ wrappersOf w) : takes w'.name w'' = false := by
  have heq := nestedWrappers_eq_of_split hsplit
  have hmem' : w' ∈ nestedWrappers ts := by
    rw [heq]
    exact List.mem_append_left _ hw'
  have hmem'' : w'' ∈ nestedWrappers ts := by
    rw [heq]
    exact List.mem_append_right _ (List.mem_append_left _ hw'')
  refine hts.not_takes (mem_subtreesOf_of_wrapper hmem') (mem_subtreesOf_of_wrapper hmem'') ?_
  -- as a child it would be nested in the wrapper itself
  intro hchild
  obtain ⟨-, first, last, hinside⟩ := wrappersOf_split hw''
  have hnested : w' ∈ wrappersOf w := by
    rw [hinside]
    have hinner := mem_nestedWrappers_of_child hchild (nestedWrappers_split hmem').1
    exact List.mem_append_left _ (List.mem_append_right _ hinner)
  have hnodup := hts.nodup_nestedWrappers
  rw [heq] at hnodup
  exact (List.nodup_append'.mp hnodup).2.2 hw' (List.mem_append_left _ hnested)

/-- What the label of a node becomes in front of a wrapper, the wrapper takes exactly if the node
belongs to it. -/
theorem Distinct.takes_holder_iff (l : String) :
    takes (holder ((before ++ nestedWrappers w.children).map groupOf) l) w = true ↔
      ∃ u, taker? ts l = some u ∧ u ∈ wrappersOf w := by
  have hmem := mem_nestedWrappers_of_split hsplit
  have hwrappers := wrappersOf_of_mode (nestedWrappers_split hmem).1
  have hnodup := hts.nodup_nestedWrappers
  rw [nestedWrappers_eq_of_split hsplit] at hnodup
  obtain ⟨-, hlater, hbefore⟩ := List.nodup_append'.mp hnodup
  obtain ⟨-, -, hafter⟩ := List.nodup_append'.mp hlater
  rw [taker?, hsplit, List.find?_append, List.find?_append, List.map_append, holder_append]
  cases hfirst : before.find? (takes l) with
  | some u =>
    -- a wrapper in front holds the node, and that one no wrapper nested in `w` takes
    obtain ⟨w', hw', hholder⟩ := holder_of_find?_some hfirst
    have hnot : ∀ w'' ∈ wrappersOf w, takes w'.name w'' = false :=
      fun w'' hw'' => hts.not_takes_before hsplit hw' hw''
    rw [hwrappers] at hnot
    have hinner : (nestedWrappers w.children).find? (takes w'.name) = none :=
      List.find?_eq_none.mpr fun w'' hw'' =>
        Bool.eq_false_iff.mp (hnot w'' (List.mem_append_left _ hw''))
    rw [hholder, holder_of_find?_none hinner,
      hnot w (List.mem_append_right _ (List.mem_singleton_self w))]
    refine iff_of_false Bool.false_ne_true ?_
    rintro ⟨u', hu', hmem⟩
    obtain rfl : u = u' := Option.some.inj hu'
    exact hbefore (List.mem_of_find?_eq_some hfirst) (List.mem_append_left _ hmem)
  | none =>
    rw [holder_of_find?_none hfirst, Option.none_or]
    cases hinner : (nestedWrappers w.children).find? (takes l) with
    | some u =>
      obtain ⟨t, ht, hholder⟩ :=
        holder_nestedWrappers (hts.children (mem_subtreesOf_of_wrapper hmem)) hinner
      have htakes : takes t.name w = true :=
        takes_iff.mpr (mem_memberLabels.mpr (Or.inl ⟨t, ht, rfl⟩))
      rw [hholder, hwrappers]
      refine iff_of_true htakes ⟨u, rfl, List.mem_append_left _ ?_⟩
      exact List.mem_of_find?_eq_some hinner
    | none =>
      rw [holder_of_find?_none hinner, Option.none_or]
      cases htakes : takes l w with
      | true =>
        refine iff_of_true rfl ⟨w, List.find?_cons_of_pos htakes, ?_⟩
        rw [hwrappers]
        exact List.mem_append_right _ (List.mem_singleton_self w)
      | false =>
        refine iff_of_false Bool.false_ne_true ?_
        rintro ⟨u, hu, hmem⟩
        rw [List.find?_cons_of_neg (Bool.eq_false_iff.mp htakes)] at hu
        exact hafter hmem (List.mem_of_find?_eq_some hu)

/-- The node of a wrapper will hold what belongs to the wrapper. -/
theorem heldBy_iff (n : ParseTree) :
    heldBy ((before ++ nestedWrappers w.children).map groupOf) (groupOf w) n = true ↔
      BelongsTo ts w n := by
  unfold heldBy BelongsTo
  cases n.label with
  | none => simp
  | some l =>
    have htakes := hts.takes_holder_iff hsplit l
    simp only [takes] at htakes
    simp [groupOf, ← htakes]

end

/-! ## When members keep their places -/

section
variable {roots : List (HandlerTree C)} (hroots : WellNested roots) {t : HandlerTree C}
  (ht : t ∈ subtreesOf roots)
include hroots ht

/-- The nodes of members carry labels, but no names of wrappers. -/
theorem WellNested.member_apart {n : ParseTree} (h : n.label = some propertyLabel ∨
    ∃ u ∈ flattened t.children, n.label = some u.name) :
    isMember ((nestedWrappers t.children).map HandlerTree.name) n = false ∧ n.label ≠ none := by
  refine ⟨Bool.eq_false_iff.mpr fun hmember => ?_, ?_⟩
  · obtain ⟨l, hl, hlabel⟩ := isMember_iff.mp hmember
    obtain ⟨w, hw, rfl⟩ := List.mem_map.mp hl
    rcases h with hproperty | ⟨u, hu, hname⟩
    · have hvalid := hroots.valid w (mem_subtreesOf_of_nestedWrapper ht hw)
      exact ne_property_of_valid hvalid (Option.some.inj (hlabel.symm.trans hproperty))
    · exact (hroots.nodup_wrappers ht).2 w hw u (subset_subtreesOf hu)
        (Option.some.inj (hname.symm.trans hlabel))
  · rcases h with h | ⟨u, -, h⟩ <;> simp [h]

/-- Opened again, the nodes of a container give its members in the order in which they were matched
exactly if no wrapper's members have others between them. -/
theorem WellNested.openedAll_eq_iff (line : Nat) {members : List ParseTree}
    (hmembers : ∀ n ∈ members, n.label = some propertyLabel ∨
      ∃ u ∈ flattened t.children, n.label = some u.name) :
    openedAll ((nestedWrappers t.children).map HandlerTree.name)
        (gatherAll line (wrapperGroups t.children) members) = members ↔
      Undivided t.children members := by
  have hdistinct : Distinct t.children := hroots.distinct.children ht
  obtain ⟨hopens, hself⟩ := opens_members fun n hn => hroots.member_apart ht (hmembers n hn)
  have hlabels : ∀ g ∈ wrapperGroups t.children,
      g.1 ∈ (nestedWrappers t.children).map HandlerTree.name := by
    intro g hg
    rw [← map_fst_wrapperGroups]
    exact List.mem_map_of_mem hg
  rw [openedAll_gatherAll hopens hlabels line, hself, arrange_eq_self, wrapperGroups_eq]
  constructor
  · intro hside w hw
    obtain ⟨-, before, after, hsplit⟩ := nestedWrappers_split hw
    refine (SideBySide.congr fun n _ => heldBy_iff hdistinct hsplit n).mp
      (hside _ (groupOf w) (after.map groupOf) ?_)
    rw [hsplit, List.map_append]
    rfl
  · intro hside before group after heq
    obtain ⟨earlier, ws, hws, rfl, hrest⟩ := List.map_eq_append_iff.mp heq
    obtain ⟨w, later, rfl, rfl, -⟩ := List.map_eq_cons_iff.mp hrest
    obtain ⟨before, rfl⟩ := hdistinct.nested_before hws
    exact (SideBySide.congr fun n _ => heldBy_iff hdistinct hws n).mpr
      (hside w (mem_nestedWrappers_of_split hws))

end

end HandlerGrammar
