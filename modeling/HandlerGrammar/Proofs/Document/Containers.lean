import HandlerGrammar.Proofs.Document.Wrappers
import HandlerGrammar.Proofs.Transform.Runs

/-! # Wrappers run once for each container

In the derivation of a document every match of a container's members gathers each wrapper nested in
the container once, so its handler runs as often as there are such matches.

* `Derivation.IsBody`: the matches of a container's members in braces;
* `Part.Listed`, `LaidOut.named`: what the nodes of a container's members are named after;
* `LaidOut.container_nodes`, `LaidOut.container_members`: the nodes of a container and those matched;
* `LaidOut.gathered`: what each match of a container makes of them;
* `Part.Within.count_labels`, `LaidOut.countOwn`: which instances make a node for a wrapper;
* `wrappers_gathered_once`: for the trees of generated grammars, and the runs of the handlers. -/
namespace HandlerGrammar
open Derivation HandlerTree ParseTree
set_option autoImplicit false

variable {C : Type}

/-- The derivation matches the members in braces of a container with the given handlers in it. -/
def Derivation.IsBody (plan : List (Part C)) (ts : List (HandlerTree C)) : Derivation → Prop
  | .rule id _ _ _ => plan[id]? = some (Part.container ts)
  | _ => False

/-! ## Nodes of members -/

namespace Part

/-- Members of a container with the given handlers nested in it, one or more of them. -/
def Listed (ts : List (HandlerTree C)) : Part C → Prop
  | property => True
  | keyed u => u ∈ flattened ts
  | member us => us = ts
  | items p | next p => p.Listed ts
  | _ => False

theorem listed_itemOf (ts : List (HandlerTree C)) : (itemOf ts).Listed ts := by
  cases ts with
  | nil => exact trivial
  | cons t ts => exact rfl

end Part

section
variable {g : Grammar} {plan : List (Part C)} {toks : Nat → Token} {p : Part C} {body : Rule}

/-- Only single tokens, and the keywords of members, become leaves. -/
theorem Layout.kept (h : Layout plan p body) {x : Terminal} (hx : .terminal x ∈ body.steps)
    (hkept : x.isKept = true) : p = .token x ∨ ∃ t, p = .keyed t := by
  cases h with
  | token _ =>
    obtain rfl := Step.terminal.inj (List.mem_singleton.mp hx)
    exact Or.inl rfl
  | keyed _ => exact Or.inr ⟨_, rfl⟩
  | choice | dispatch | root | items => simp [Rule.plain, Rule.labeled] at hx
  | property | next =>
    simp [Rule.plain, Rule.labeled] at hx
    subst hx
    cases hkept
  | braces | brackets =>
    simp at hx
    rcases hx with rfl | rfl <;> cases hkept

theorem Part.Listed.parts {ts : List (HandlerTree C)} (h : p.Listed ts) :
    p = .property ∨ (∃ u ∈ flattened ts, p = .keyed u) ∨
      p.label? = none ∧ p.groups = [] ∧ ∀ q ∈ p.parts, q.Listed ts := by
  cases p with
  | property => exact Or.inl rfl
  | keyed u => exact Or.inr (Or.inl ⟨u, h, rfl⟩)
  | member us =>
    obtain rfl : us = ts := h
    refine Or.inr (Or.inr ⟨rfl, rfl, fun q hq => ?_⟩)
    rcases mem_offers hq with rfl | ⟨u, hu, rfl⟩
    · exact trivial
    · exact hu
  | items p =>
    refine Or.inr (Or.inr ⟨rfl, rfl, fun q hq => ?_⟩)
    simp only [Part.parts, List.mem_cons, List.not_mem_nil, or_false] at hq
    rcases hq with rfl | rfl <;> exact h
  | next p =>
    refine Or.inr (Or.inr ⟨rfl, rfl, fun q hq => ?_⟩)
    rw [List.mem_singleton.mp hq]
    exact h
  | _ => cases h

/-- The nodes of members are generic properties or named after handlers of the container. -/
theorem LaidOut.named (h : LaidOut g plan) {ts : List (HandlerTree C)} {steps : List Step}
    {ds : List Derivation} {a b : Nat} (hd : Derives g toks steps ds a b) :
    ∀ id body line parts, .rule id body line parts ∈ ds → ∀ p, plan[id]? = some p → p.Listed ts →
      ∀ n ∈ (Derivation.rule id body line parts).nodes,
        n.label = some propertyLabel ∨ ∃ u ∈ flattened ts, n.label = some u.name := by
  refine hd.forall_rules
    (P := fun id body line parts => ∀ p, plan[id]? = some p → p.Listed ts →
      ∀ n ∈ (Derivation.rule id body line parts).nodes,
        n.label = some propertyLabel ∨ ∃ u ∈ flattened ts, n.label = some u.name) ?_
  intro id body parts a b hbody hparts ih p hid hp n hn
  have hlayout := h.layout hid hbody
  have hlabelled : ∀ {label : String}, body.label? = some label → n.label = some label := by
    intro label hlabel
    rw [Derivation.nodes, Grammar.ruleNodes, hlabel] at hn
    rw [List.mem_singleton.mp hn]
    exact label_labeled _ _ _
  rcases hp.parts with rfl | ⟨u, hu, rfl⟩ | ⟨hplain, hgroups, hinner⟩
  · exact Or.inl (hlabelled hlayout.label?)
  · exact Or.inr ⟨u, hu, hlabelled hlayout.label?⟩
  · have hmatched : n ∈ (Derivation.rule id body (toks a).line parts).matched := by
      rw [hlayout.nodes hparts, Grammar.ruleNodes, hlayout.label?, hplain, hgroups] at hn
      exact hn
    rcases hlayout.mem_matched hparts hmatched with
      ⟨x, t, hx, hkept, -⟩ | ⟨id', body', line', parts', q, hmem, hq, hqp, hn⟩
    · rcases hlayout.kept hx hkept with rfl | ⟨t, rfl⟩
      · cases hp
      · cases hplain
    · exact ih id' body' line' parts' hmem q hq (hinner q hqp) n hn

section
variable (h : LaidOut g plan) {ts : List (HandlerTree C)} {id : RuleId}
  (hid : plan[id]? = some (.container ts)) (hbody : g.rule? id = some body) {line : Nat}
  {parts : List Derivation} {a b : Nat} (hparts : Derives g toks body.steps parts a b)
include h hid hbody hparts

/-- The nodes of a container are those of its members, the wrappers in it gathered. -/
theorem LaidOut.container_nodes : (Derivation.rule id body line parts).nodes =
    gatherAll line (wrapperGroups ts) (Derivation.rule id body line parts).matched := by
  have hlayout := h.layout hid hbody
  rw [hlayout.nodes hparts, Grammar.ruleNodes, hlayout.label?]
  rfl

theorem LaidOut.container_members : ∀ n ∈ (Derivation.rule id body line parts).matched,
    n.label = some propertyLabel ∨ ∃ u ∈ flattened ts, n.label = some u.name := by
  intro n hn
  have hlayout := h.layout hid hbody
  rcases hlayout.mem_matched hparts hn with
    ⟨x, t, hx, hkept, -⟩ | ⟨id', body', line', parts', q, hmem, hq, hqp, hn⟩
  · rcases hlayout.kept hx hkept with heq | ⟨t, heq⟩ <;> cases heq
  · obtain rfl := List.mem_singleton.mp hqp
    exact h.named hparts id' body' line' parts' hmem _ hq (Part.listed_itemOf _) n hn

end

theorem LaidOut.gathered (h : LaidOut g plan) {roots : List (HandlerTree C)}
    (hroots : WellNested roots) {t : HandlerTree C} (ht : t ∈ subtreesOf roots) {id : RuleId}
    (hid : plan[id]? = some (.container t.children)) (hbody : g.rule? id = some body) {line : Nat}
    {parts : List Derivation} {a b : Nat} (hparts : Derives g toks body.steps parts a b) :
    Gathered t.children (Derivation.rule id body line parts).matched
      (Derivation.rule id body line parts).nodes := by
  have hmembers : ∀ n ∈ (Derivation.rule id body line parts).matched,
      Mirrors (flattened t.children) n := by
    rw [← Part.inner_container]
    exact (h.layout hid hbody).mirrors_matched (Or.inr ⟨t, ht, rfl⟩) hparts
      (h.mirrors ⟨hroots.nodup, hroots.valid⟩ hparts)
  rw [h.container_nodes hid hbody hparts]
  exact ⟨h.container_members hid hbody hparts, fun w hw => hroots.count_wrapper ht hmembers hw,
    fun w hw hsole => hroots.holds_wrapper ht hmembers hw hsole⟩

/-! ## Counting matches -/

/-- The labels that the instances of a part give to nodes. -/
def Part.labels (p : Part C) : List String := p.label?.toList ++ p.groups.map Prod.fst

theorem Layout.own (h : Layout plan p body) {id : RuleId} {line : Nat} {parts : List Derivation}
    {a b : Nat} (hparts : Derives g toks body.steps parts a b) :
    (Derivation.rule id body line parts).own = p.labels := by
  rw [Derivation.own, h.label?, hparts.groups, h.groups]
  rfl

theorem countOwn_eq_countP {x : String} {P : Derivation → Bool} {instances : List Derivation}
    (h : ∀ i ∈ instances, i.own.count x = if P i then 1 else 0) :
    countOwn x instances = instances.countP P := by
  induction instances with
  | nil => rfl
  | cons i instances ih =>
    have hi := h i (List.mem_cons_self ..)
    have hrest := ih fun i hi => h i (List.mem_cons_of_mem _ hi)
    rw [Derivation.countOwn, List.flatMap_cons, List.count_append, List.countP_cons, ← hi, ← hrest,
      Nat.add_comm]
    rfl

section
variable {roots : List (HandlerTree C)} (hroots : WellNested roots) {t w : HandlerTree C}
  (ht : t ∈ subtreesOf roots) (hw : w ∈ nestedWrappers t.children)
include hroots ht hw

theorem WellNested.nested_not_root : w ∉ roots := by
  have hchild : ∃ t' ∈ subtreesOf roots, w ∈ t'.children := by
    rcases parent_of_nestedWrapper hw with hw | ⟨t', ht', hw⟩
    · exact ⟨t, ht, hw⟩
    · exact ⟨t', (children_sublist ht).subset ht', hw⟩
  obtain ⟨t', ht', hw⟩ := hchild
  have hparent := hroots.child t' ht' w hw
  intro hroot
  rw [hroots.root w hroot] at hparent
  cases hparent

/-- No part has the name of a nested wrapper for its label: wrappers stand in braces of others. -/
theorem Part.Within.label_ne (hp : p.Within roots) {l : String} (hl : p.label? = some l) :
    l ≠ w.name := by
  have hforest := mem_subtreesOf_of_nestedWrapper ht hw
  have hgeneric : ∀ {label : String}, label ∈ genericLabels → label ≠ w.name := by
    rintro label hlabel rfl
    exact not_generic_of_valid (hroots.valid w hforest) hlabel
  cases p with
  | property =>
    cases hl
    exact hgeneric (by simp [genericLabels])
  | keyed u =>
    cases hl
    intro hname
    rw [hroots.unique hp.1 hforest hname] at hp
    exact hp.2 (nestedWrappers_split hw).1
  | root u =>
    cases hl
    intro hname
    have hroot : u ∈ roots := hp
    rw [hroots.unique (subset_subtreesOf hroot) hforest hname] at hroot
    exact hroots.nested_not_root ht hw hroot
  | braces label? groups p =>
    rcases hp with heq | ⟨t', -, heq⟩
    · cases heq
      cases hl
      exact hgeneric (by simp [genericLabels])
    · cases heq
      cases hl
  | brackets label? p =>
    rcases hp with heq | ⟨hnone, -⟩
    · cases heq
      cases hl
      exact hgeneric (by simp [genericLabels])
    · cases hnone.symm.trans hl
  | _ => cases hl

open Classical in
/-- A part gives the name of a nested wrapper once if it is a container around it, else never. -/
theorem Part.Within.count_labels (hp : p.Within roots) : p.labels.count w.name =
    if ∃ ts, p = container ts ∧ w ∈ nestedWrappers ts then 1 else 0 := by
  have hlabel : p.label?.toList.count w.name = 0 :=
    List.count_eq_zero.mpr fun hmem =>
      hp.label_ne hroots ht hw (Option.mem_toList.mp hmem) rfl
  rw [Part.labels, List.count_append, hlabel, Nat.zero_add]
  by_cases hbody : ∃ ts, p = container ts ∧ w ∈ nestedWrappers ts
  · rw [if_pos hbody]
    obtain ⟨ts, rfl, hmem⟩ := hbody
    obtain ⟨t', ht', rfl⟩ := hp.exists_tree
    change ((wrapperGroups t'.children).map Prod.fst).count w.name = 1
    rw [map_fst_wrapperGroups]
    exact List.count_eq_one_of_mem (hroots.nodup_wrappers ht').1 (List.mem_map_of_mem hmem)
  · rw [if_neg hbody]
    refine List.count_eq_zero.mpr fun hmem => hbody ?_
    cases p with
    | braces label? groups p =>
      rcases hp with heq | ⟨t', ht', heq⟩
      · cases heq
        cases hmem
      · cases heq
        change w.name ∈ (wrapperGroups t'.children).map Prod.fst at hmem
        rw [map_fst_wrapperGroups] at hmem
        obtain ⟨w', hw', hname⟩ := List.mem_map.mp hmem
        have hforest := mem_subtreesOf_of_nestedWrapper ht hw
        obtain rfl := hroots.unique (mem_subtreesOf_of_nestedWrapper ht' hw') hforest hname
        exact ⟨t'.children, rfl, hw'⟩
    | _ => cases hmem

open Classical in
/-- The instances give the name of a wrapper as often as they match a container around it. -/
theorem LaidOut.countOwn (h : LaidOut g plan) {entry : RuleId} (hentry : plan[entry]? = some p)
    (hp : p.Within roots) {d : Derivation} {a b : Nat}
    (hd : Derives g toks [.rule entry] [d] a b) : Derivation.countOwn w.name d.instances =
      d.instances.countP fun i => ∃ ts, i.IsBody plan ts ∧ w ∈ nestedWrappers ts := by
  refine countOwn_eq_countP fun i hi => ?_
  obtain ⟨id, body, parts, a', b', rfl, hbody, hparts⟩ :=
    hd.of_instance i (List.mem_append_left _ hi)
  obtain ⟨q, hq, hwithin⟩ := h.within_instances hentry hp hd id body _ parts hi
  have hiff : (∃ ts, (Derivation.rule id body (toks a').line parts).IsBody plan ts ∧
      w ∈ nestedWrappers ts) ↔ ∃ ts, q = .container ts ∧ w ∈ nestedWrappers ts := by
    refine exists_congr fun ts => and_congr_left fun _ => ?_
    rw [IsBody, hq, Option.some_inj]
  rw [(h.layout hq hbody).own hparts, hwithin.count_labels hroots ht hw]
  simp only [decide_eq_true_eq, hiff]

end

end

/-! ## Generated grammars -/

open Classical in
/-- In the derivation of every parse with a generated grammar, each match of a container's members
gathers each wrapper nested in the container into one node, with what belongs to the wrapper. The
tree has a node for a wrapper, and a transform without failure runs its handler, once for each match
of a container around it. -/
theorem wrappers_gathered_once {r : Registry C} (hr : r.Reached) {gg : GeneratedGrammar C}
    (hgg : r.generate = .ok gg) (v : Vocabulary) (bytes : List UInt8) (calls : List Call)
    {tree : ParseTree} {s' : TokenStream}
    (hparse : gg.grammar.parse (serve calls (.ofBytes v bytes)).2 = .ok tree s') :
    ∃ roots plan d, Parses r gg (serve calls (.ofBytes v bytes)).2 tree roots plan d ∧
      (∀ i ∈ d.instances, ∀ ts, i.IsBody plan ts → Gathered ts i.matched i.nodes) ∧
      ∀ t ∈ subtreesOf roots, ∀ w ∈ nestedWrappers t.children,
        let bodies := d.instances.countP fun i => ∃ ts, i.IsBody plan ts ∧ w ∈ nestedWrappers ts
        tree.labels.count w.name = bodies ∧ ∀ c c', gg.table.transform tree c = .ok () c' →
          ∃ log, gg.table.traced.transform tree (c, []) = .ok () (c', log) ∧
            log.count w.name = bodies := by
  obtain ⟨roots, plan, d, hd⟩ := parses_of_parse hgg (classified_serve v bytes calls) hparse
  have hnested := hr.wellNested hd.sorted
  have hwithin := hd.laidOut.within_instances hd.entry Part.within_entryPart hd.derives
  refine ⟨roots, plan, d, hd, fun i hi ts hbody => ?_, fun t ht w hw => ?_⟩
  · obtain ⟨id, body, parts, a, b, rfl, hrule, hparts⟩ :=
      hd.derives.of_instance i (List.mem_append_left _ hi)
    obtain ⟨p, hp, hforest⟩ := hwithin _ _ _ _ hi
    obtain rfl : p = .container ts := Option.some.inj (hp.symm.trans hbody)
    obtain ⟨t, ht, rfl⟩ := hforest.exists_tree
    exact hd.laidOut.gathered hnested ht hp hrule hparts
  · intro bodies
    have hcount : tree.labels.count w.name = bodies := by
      have hown := hd.laidOut.countOwn hnested ht hw hd.entry Part.within_entryPart hd.derives
      rw [← Derivation.count_nodes, hd.nodes] at hown
      simpa using hown
    refine ⟨hcount, fun c c' hrun => ⟨_, HandlerTable.transform_traced hrun [], ?_⟩⟩
    have hhandled : gg.table.handles w.name = true := by
      rw [hd.table, HandlerTable.handles_ofList, ← map_handler_subtreesOf, List.map_map, List.map_map]
      exact List.mem_map_of_mem (f := HandlerTree.name) (mem_subtreesOf_of_nestedWrapper ht hw)
    rw [List.nil_append, List.count_filter hhandled, hcount]

open Registry in
theorem wrappers_gathered_once_sample : sampleRegistry.Reached ∧ ∃ gg tree s' log,
    sampleRegistry.generate = .ok gg ∧
    gg.grammar.parse (serve [] (.ofBytes .standard sampleSource)).2 = .ok tree s' ∧
    (∃ i : Derivation, ∃ ts : List (HandlerTree Unit), Gathered ts i.matched i.nodes ∧
      "meta" ∈ (nestedWrappers ts).map HandlerTree.name) ∧
    gg.table.transform tree () = .ok () () ∧
    gg.table.traced.transform tree ((), []) = .ok () ((), log) ∧ log.count "meta" = 1 := by
  have hsome : (sampleRegistry.parsed? sampleSource).any (fun (gg, tree) =>
      tree.labels.count "meta" == 1 && match gg.table.transform tree () with
        | .ok _ _ => true
        | .error _ _ => false) = true := by
    decide +kernel
  cases hparsed : sampleRegistry.parsed? sampleSource with
  | none => rw [hparsed] at hsome; cases hsome
  | some p =>
    obtain ⟨gg, tree⟩ := p
    rw [hparsed, Option.any_some, Bool.and_eq_true, beq_iff_eq] at hsome
    obtain ⟨hgg, s', hparse⟩ := parsed?_eq_some hparsed
    have hrun : gg.table.transform tree () = .ok () () := by
      cases hrun : gg.table.transform tree () with
      | ok _ _ => rfl
      | error e c =>
        rw [hrun] at hsome
        cases hsome.2
    obtain ⟨roots, plan, d, hd, hgathered, hcounts⟩ :=
      wrappers_gathered_once sampleRegistry_reached hgg .standard sampleSource [] hparse
    obtain rfl : roots = sampleRoots := Except.ok.inj (hd.sorted.symm.trans sampleRegistry_roots)
    obtain ⟨hcount, hlog⟩ := hcounts _ (List.mem_cons_self ..)
      (.node ⟨"meta", .wrapper, ["doc"], fun _ => pure ()⟩
        [.node ⟨"name", .primary, ["doc", "meta"], fun _ => pure ()⟩ []])
      (List.mem_append_left _ (List.mem_append_right _ (List.mem_singleton_self _)))
    obtain ⟨log, htraced, hlog⟩ := hlog () () hrun
    have hone : tree.labels.count "meta" = 1 := hsome.1
    have hbodies := hcount.symm.trans hone
    refine ⟨sampleRegistry_reached, gg, tree, s', log, hgg, hparse, ?_, hrun, htraced, ?_⟩
    · have hpos := Nat.one_pos
      rw [← hbodies] at hpos
      obtain ⟨i, hi, hbody⟩ := List.countP_pos_iff.mp hpos
      simp only [decide_eq_true_eq] at hbody
      obtain ⟨ts, hbody, hmem⟩ := hbody
      exact ⟨i, ts, hgathered i hi ts hbody, List.mem_map_of_mem hmem⟩
    · exact hlog.trans hbodies

end HandlerGrammar
