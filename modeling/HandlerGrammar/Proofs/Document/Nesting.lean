import HandlerGrammar.Proofs.Document.Parses

/-! # Trees mirror the nesting of handlers

The members of a nested wrapper are matched among those of the container around it and moved under
the wrapper's node afterwards, inner wrappers first. In the tree of a parse every node with the name
of a handler so stands below a node with the name of that handler's parent, and no other handler's
node in between.

* `Mirrors`: a node whose handlers hang as in a forest;
* `mirrors_gather`, `mirrors_wrapperGroups`: gathering turns flattened members into nested ones;
* `LaidOut.mirrors`: the nodes of every instance mirror the forest of its part;
* `Parses.mirrors`: the tree of a parse mirrors the forest;
* `nesting_mirrored`: for the trees of generated grammars, in terms of the registered handlers. -/
namespace HandlerGrammar
open Derivation HandlerTree ParseTree
set_option autoImplicit false

variable {C : Type}

/-- The labels of generic nodes. -/
def genericLabels : List String := [objectLabel, arrayLabel, propertyLabel]

theorem not_generic_of_valid {l : String} (h : Handler.isValidName l = true) : l ∉ genericLabels := by
  intro hl
  simp only [genericLabels, List.mem_cons, List.not_mem_nil, or_false] at hl
  rcases hl with rfl | rfl | rfl <;> exact absurd h (by decide)

theorem ne_property_of_valid {l : String} (h : Handler.isValidName l = true) : l ≠ propertyLabel :=
  fun heq => not_generic_of_valid h (by simp [heq, genericLabels])

/-- The node is named after one of the trees and holds nodes that mirror the children of this tree,
or it is named after no handler and no handler's node is below it. -/
inductive Mirrors : List (HandlerTree C) → ParseTree → Prop
  | generic {ts : List (HandlerTree C)} {n : ParseTree} :
      (∀ l, n.label = some l → l ∈ genericLabels) → (∀ c ∈ n.children, Mirrors [] c) → Mirrors ts n
  | handled {ts : List (HandlerTree C)} {t : HandlerTree C} {n : ParseTree} : t ∈ ts →
      n.label = some t.name → (∀ c ∈ n.children, Mirrors t.children c) → Mirrors ts n

theorem Mirrors.subset {ts us : List (HandlerTree C)} {n : ParseTree} (h : Mirrors ts n)
    (hsub : ts ⊆ us) : Mirrors us n := by
  cases h with
  | generic hlabel hchildren => exact .generic hlabel hchildren
  | handled ht hlabel hchildren => exact .handled (hsub ht) hlabel hchildren

/-! ## Gathering -/

/-- The names in a forest are valid, and all different. -/
def Distinct (ts : List (HandlerTree C)) : Prop :=
  ((subtreesOf ts).map HandlerTree.name).Nodup ∧
    ∀ t ∈ subtreesOf ts, Handler.isValidName t.name = true

theorem Distinct.mono {ts us : List (HandlerTree C)} (h : Distinct ts)
    (hsub : (subtreesOf us).Subperm (subtreesOf ts)) : Distinct us := by
  obtain ⟨vs, hperm, hvs⟩ := hsub
  refine ⟨(hperm.map _).nodup_iff.mp (h.1.sublist (hvs.map _)), fun t ht => h.2 t ?_⟩
  exact hvs.subset (hperm.mem_iff.mpr ht)

theorem mem_memberLabels {us : List (HandlerTree C)} {l : String} :
    l ∈ memberLabels us ↔ (∃ u ∈ us, u.name = l) ∨ us = [] ∧ l = propertyLabel := by
  unfold memberLabels
  cases us with
  | nil => simp
  | cons u us => simp [eq_comm]

theorem WellNested.distinct {roots : List (HandlerTree C)} (h : WellNested roots) : Distinct roots :=
  ⟨h.nodup, h.valid⟩

/-- Of the names in a forest a tree gathers those of its own children. -/
theorem Distinct.mem_children {ts : List (HandlerTree C)} (h : Distinct ts) {t w : HandlerTree C}
    (ht : t ∈ subtreesOf ts) (hw : w ∈ subtreesOf ts) (hmember : t.name ∈ memberLabels w.children) :
    t ∈ w.children := by
  rcases mem_memberLabels.mp hmember with ⟨u, hu, hname⟩ | ⟨-, hproperty⟩
  · have hsame := List.inj_on_of_nodup_map h.1 (mem_subtreesOf_child hw hu) ht hname
    exact hsame ▸ hu
  · exact absurd hproperty (ne_property_of_valid (h.2 t ht))

/-- Nodes for the children of a wrapper, gathered among nodes for other trees, make a node for the
wrapper. -/
theorem mirrors_gather {t : HandlerTree C} {rest : List (HandlerTree C)}
    (hdistinct : Distinct (t.children ++ rest)) {line : Nat} {nodes : List ParseTree}
    (h : ∀ n ∈ nodes, Mirrors (t.children ++ rest) n) :
    ∀ n ∈ gather t.name (memberLabels t.children) line nodes, Mirrors (t :: rest) n := by
  have hvalid : ∀ u ∈ t.children ++ rest, u.name ∉ genericLabels :=
    fun u hu => not_generic_of_valid (hdistinct.2 u (subset_subtreesOf hu))
  have hapart : ∀ u ∈ t.children, ∀ u' ∈ rest, u.name ≠ u'.name := by
    have hnodup := hdistinct.1
    rw [subtreesOf_append, List.map_append] at hnodup
    intro u hu u' hu' hname
    refine (List.nodup_append'.mp hnodup).2.2 (List.mem_map_of_mem (subset_subtreesOf hu)) ?_
    rw [hname]
    exact List.mem_map_of_mem (subset_subtreesOf hu')
  intro n hn
  rcases (mem_gather _ _ _ _).mp hn with rfl | ⟨hn, hstays⟩
  · refine .handled (List.mem_cons_self ..) rfl fun c hc => ?_
    obtain ⟨hc, hmember⟩ := List.mem_filter.mp hc
    obtain ⟨l, hl, hlabel⟩ := isMember_iff.mp hmember
    cases h c hc with
    | generic _ hchildren =>
      rename_i hgeneric
      exact .generic hgeneric hchildren
    | @handled _ u _ hu hname hchildren =>
      obtain rfl : l = u.name := Option.some.inj (hlabel.symm.trans hname)
      rcases mem_memberLabels.mp hl with ⟨u', hu', heq⟩ | ⟨-, heq⟩
      · rcases List.mem_append.mp hu with hu | hu
        · exact .handled hu hname hchildren
        · exact absurd heq (hapart u' hu' u hu)
      · exact absurd (by simp [heq, genericLabels]) (hvalid u hu)
  · cases h n hn with
    | generic hlabel hchildren => exact .generic hlabel hchildren
    | @handled _ u _ hu hname hchildren =>
      rcases List.mem_append.mp hu with hu | hu
      · have hmember : isMember (memberLabels t.children) n = true :=
          isMember_iff.mpr ⟨u.name, mem_memberLabels.mpr (Or.inl ⟨u, hu, rfl⟩), hname⟩
        rw [hstays] at hmember
        cases hmember
      · exact .handled (List.mem_cons_of_mem _ hu) hname hchildren

mutual
/-- When the wrappers in a container have been gathered, its nodes mirror what is nested in it. -/
theorem mirrors_wrapperGroups (ts rest : List (HandlerTree C)) (hdistinct : Distinct (ts ++ rest))
    {line : Nat} {nodes : List ParseTree} (h : ∀ n ∈ nodes, Mirrors (flattened ts ++ rest) n) :
    ∀ n ∈ gatherAll line (wrapperGroups ts) nodes, Mirrors (ts ++ rest) n := by
  match ts with
  | [] => exact h
  | t :: ts =>
    -- the groups of the first tree leave the members of the others alone
    have hfirst : ∀ n ∈ gatherAll line (wrapperGroup t) nodes, Mirrors (t :: (flattened ts ++ rest)) n := by
      refine mirrors_wrapperGroup t (flattened ts ++ rest) (hdistinct.mono ?_) fun n hn => ?_
      · rw [List.cons_append, subtreesOf, subtreesOf, subtreesOf_append, subtreesOf_append]
        exact (((subtreesOf_flattened ts).append_right _).append_left _).subperm
      · refine (h n hn).subset fun u hu => ?_
        rwa [flattened, List.append_assoc] at hu
    have hothers : ∀ n ∈ gatherAll line (wrapperGroups ts) (gatherAll line (wrapperGroup t) nodes),
        Mirrors (ts ++ t :: rest) n := by
      refine mirrors_wrapperGroups ts (t :: rest) (hdistinct.mono ?_) fun n hn => ?_
      · rw [subtreesOf_append, List.cons_append, subtreesOf, subtreesOf, subtreesOf_append]
        exact (List.perm_append_comm_assoc _ _ _).subperm
      · refine (hfirst n hn).subset fun u hu => ?_
        simp only [List.mem_cons, List.mem_append] at hu ⊢
        exact or_left_comm.mp hu
    rw [wrapperGroups, gatherAll_append]
    intro n hn
    refine (hothers n hn).subset fun u hu => ?_
    simp only [List.mem_cons, List.mem_append] at hu ⊢
    rw [or_assoc]
    exact or_left_comm.mp hu

theorem mirrors_wrapperGroup (t : HandlerTree C) (rest : List (HandlerTree C))
    (hdistinct : Distinct (t :: rest)) {line : Nat} {nodes : List ParseTree}
    (h : ∀ n ∈ nodes, Mirrors (unwrapped t ++ rest) n) :
    ∀ n ∈ gatherAll line (wrapperGroup t) nodes, Mirrors (t :: rest) n := by
  match t with
  | .node h' us =>
    unfold unwrapped at h
    unfold wrapperGroup
    split
    · next hmode =>
      rw [if_pos hmode] at h
      have hchildren : Distinct (us ++ rest) := by
        refine hdistinct.mono ?_
        rw [subtreesOf_append, subtreesOf, subtrees]
        exact (List.sublist_cons_self _ _).subperm
      rw [gatherAll_append]
      exact mirrors_gather (t := .node h' us) hchildren
        (mirrors_wrapperGroups us rest hchildren h)
    · next hmode =>
      rw [if_neg hmode] at h
      exact h
end

/-! ## Nodes of instances -/

namespace Part

/-- The trees that the nodes of a part are named after, generic nodes apart. -/
def scope : Part C → List (HandlerTree C)
  | braces _ _ (member ts) => ts
  | member ts => flattened ts
  | keyed t | root t => [t]
  | brackets _ p | items p | next p | rest p | optional p => p.scope
  | document ts => ts
  | _ => []

/-- The trees that the nodes are named after which a part matches. -/
def inner : Part C → List (HandlerTree C)
  | braces _ _ (member ts) => flattened ts
  | keyed t | root t => t.children
  | p => p.scope

theorem scope_container (ts : List (HandlerTree C)) : (container ts).scope = ts := by
  cases ts <;> rfl

theorem inner_container (ts : List (HandlerTree C)) : (container ts).inner = flattened ts := by
  cases ts <;> rfl

theorem scope_valueOf (t : HandlerTree C) : (valueOf t).scope ⊆ t.children := by
  unfold valueOf
  cases t.handler.mode with
  | primary => exact List.nil_subset _
  | wrapper | object =>
    dsimp only
    rw [scope_container]
    exact List.Subset.refl _
  | array =>
    dsimp only [scope]
    split
    · exact List.nil_subset _
    · rw [scope_container]
      exact List.Subset.refl _

theorem Within.scope_subset {roots : List (HandlerTree C)} {p q : Part C} (h : p.Within roots)
    (hq : q ∈ p.parts) : q.scope ⊆ p.inner := by
  cases p with
  | token x | rest p | optional p => cases hq
  | key | scalar =>
    simp only [Part.parts, alternatives, List.mem_cons, List.not_mem_nil, or_false] at hq
    rcases hq with rfl | rfl | rfl | rfl <;> exact List.nil_subset _
  | generic =>
    simp only [Part.parts, alternatives, List.mem_cons, List.not_mem_nil, or_false] at hq
    rcases hq with rfl | rfl | rfl <;> exact List.nil_subset _
  | property =>
    simp only [Part.parts, List.mem_cons, List.not_mem_nil, or_false] at hq
    rcases hq with rfl | rfl <;> exact List.nil_subset _
  | braces label? groups p =>
    obtain rfl := List.mem_singleton.mp hq
    rcases h with heq | ⟨t, -, heq⟩
    · cases heq
      exact List.nil_subset _
    · cases heq
      rw [← container, inner_container]
      cases t.children with
      | nil => exact List.nil_subset _
      | cons u us => exact List.Subset.refl _
  | brackets _ p | next p =>
    obtain rfl := List.mem_singleton.mp hq
    exact List.Subset.refl _
  | items p =>
    simp only [Part.parts, List.mem_cons, List.not_mem_nil, or_false] at hq
    rcases hq with rfl | rfl <;> exact List.Subset.refl _
  | member ts =>
    rcases mem_offers hq with rfl | ⟨u, hu, rfl⟩
    · exact List.nil_subset _
    · exact List.cons_subset.mpr ⟨hu, List.nil_subset _⟩
  | keyed t | root t =>
    obtain rfl := List.mem_singleton.mp hq
    exact scope_valueOf t
  | document ts =>
    obtain ⟨t, ht, rfl⟩ := List.mem_map.mp hq
    exact List.cons_subset.mpr ⟨ht, List.nil_subset _⟩

/-- If what a part matches mirrors the forest, so do the nodes that it makes. -/
theorem Within.mirrors {roots : List (HandlerTree C)} {p : Part C} (h : p.Within roots)
    (hroots : Distinct roots) {body : Rule} (hlabel : body.label? = p.label?) {line : Nat}
    {nodes : List ParseTree} (hnodes : ∀ n ∈ nodes, Mirrors p.inner n) :
    ∀ n ∈ Grammar.ruleNodes body line (gatherAll line p.groups nodes), Mirrors p.scope n := by
  have hplain : body.label? = none →
      Grammar.ruleNodes body line (gatherAll line p.groups nodes) = gatherAll line p.groups nodes := by
    intro hnone
    rw [Grammar.ruleNodes, hnone]
  have hlabelled : ∀ {label : String} {n : ParseTree}, body.label? = some label → p.groups = [] →
      n ∈ Grammar.ruleNodes body line (gatherAll line p.groups nodes) →
      n.label = some label ∧ ∀ c ∈ n.children, Mirrors p.inner c := by
    intro label n hsome hgroups hn
    rw [Grammar.ruleNodes, hsome, hgroups] at hn
    obtain rfl := List.mem_singleton.mp hn
    exact ⟨label_labeled _ _ _, fun c hc => hnodes c (children_labeled _ _ _ hc)⟩
  have hgeneric : ∀ {label : String} {ts : List (HandlerTree C)}, label ∈ genericLabels →
      body.label? = some label → p.groups = [] → p.inner = [] →
      ∀ n ∈ Grammar.ruleNodes body line (gatherAll line p.groups nodes), Mirrors ts n := by
    intro label ts hmem hsome hgroups hinner n hn
    obtain ⟨hn, hchildren⟩ := hlabelled hsome hgroups hn
    rw [hinner] at hchildren
    refine .generic (fun l hl => ?_) hchildren
    rw [hn] at hl
    cases hl
    exact hmem
  cases p with
  | braces label? groups p =>
    rcases h with heq | ⟨t, ht, heq⟩
    · cases heq
      exact hgeneric (by simp [genericLabels]) hlabel rfl rfl
    · cases heq
      rw [hplain hlabel, ← container, scope_container]
      rw [← container, inner_container] at hnodes
      have hdistinct : Distinct (t.children ++ []) := by
        rw [List.append_nil]
        exact hroots.mono (children_sublist ht).subperm
      intro n hn
      have hgathered : Mirrors (t.children ++ []) n := by
        refine mirrors_wrapperGroups t.children [] hdistinct ?_ n hn
        rw [List.append_nil]
        exact hnodes
      rw [List.append_nil] at hgathered
      exact hgathered
  | brackets label? p =>
    rcases h with heq | ⟨hnone, -⟩
    · cases heq
      exact hgeneric (by simp [genericLabels]) hlabel rfl rfl
    · rw [hplain (hlabel.trans hnone)]
      exact hnodes
  | property => exact hgeneric (by simp [genericLabels]) hlabel rfl rfl
  | keyed t | root t =>
    intro n hn
    obtain ⟨hn, hchildren⟩ := hlabelled hlabel rfl hn
    exact .handled (List.mem_singleton_self t) hn hchildren
  | _ =>
    rw [hplain hlabel]
    exact hnodes

end Part

section
variable {g : Grammar} {plan : List (Part C)} {roots : List (HandlerTree C)} {toks : Nat → Token}

/-- What an instance matched mirrors the forest if the nodes of the instances in it do. -/
theorem Layout.mirrors_matched {p : Part C} {body : Rule} (h : Layout plan p body)
    (hp : p.Within roots) {id : RuleId} {line : Nat} {parts : List Derivation} {a b : Nat}
    (hparts : Derives g toks body.steps parts a b)
    (hinner : ∀ id' body' line' parts', .rule id' body' line' parts' ∈ parts →
      ∀ q, plan[id']? = some q → q.Within roots →
        ∀ n ∈ (Derivation.rule id' body' line' parts').nodes, Mirrors q.scope n) :
    ∀ n ∈ (Derivation.rule id body line parts).matched, Mirrors p.inner n := by
  intro n hn
  rcases h.mem_matched hparts hn with
    ⟨_, t, -, -, rfl⟩ | ⟨id', body', line', parts', q, hmem, hq, hqp, hn⟩
  · exact .generic (fun l hl => nomatch hl) fun c hc => nomatch hc
  · exact (hinner id' body' line' parts' hmem q hq (hp.parts q hqp) n hn).subset
      (hp.scope_subset hqp)

/-- The nodes of every rule matched mirror the forest of its part. -/
theorem LaidOut.mirrors (h : LaidOut g plan) (hroots : Distinct roots) {steps : List Step}
    {ds : List Derivation} {a b : Nat} (hd : Derives g toks steps ds a b) :
    ∀ id body line parts, .rule id body line parts ∈ ds → ∀ p, plan[id]? = some p →
      p.Within roots → ∀ n ∈ (Derivation.rule id body line parts).nodes, Mirrors p.scope n := by
  refine hd.forall_rules
    (P := fun id body line parts => ∀ p, plan[id]? = some p → p.Within roots →
      ∀ n ∈ (Derivation.rule id body line parts).nodes, Mirrors p.scope n) ?_
  intro id body parts a b hbody hparts ih p hid hp
  have hlayout := h.layout hid hbody
  rw [hlayout.nodes hparts]
  exact hp.mirrors hroots hlayout.label? (hlayout.mirrors_matched hp hparts ih)

/-- The tree of a parse mirrors the forest, from a root on. -/
theorem Parses.mirrors {r : Registry C} {gg : GeneratedGrammar C} {s : TokenStream}
    {tree : ParseTree} {d : Derivation} (h : Parses r gg s tree roots plan d)
    (hroots : Distinct roots) :
    Mirrors roots tree ∧ ∃ t ∈ roots, tree.label = some t.name := by
  have hderives := h.derives
  obtain ⟨n, hnodes, hlabel⟩ := h.laidOut.entry_nodes h.entry hderives
  obtain rfl : tree = n := List.singleton_inj.mp (h.nodes.symm.trans hnodes)
  have hall := h.laidOut.mirrors hroots hderives
  have hmirrors : ∀ n ∈ d.nodes, Mirrors (entryPart roots).scope n := by
    cases hderives with
    | rule hbody hparts hnil =>
      cases hnil
      exact hall _ _ _ _ (List.mem_singleton_self _) _ h.entry Part.within_entryPart
  have hscope : (entryPart roots).scope = roots := by
    match roots with
    | [] => rfl
    | [t] => rfl
    | t :: t' :: roots => rfl
  rw [hscope, hnodes] at hmirrors
  exact ⟨hmirrors tree (List.mem_singleton_self tree), hlabel⟩

end

/-! ## Nearest handlers -/

/-- Where a node occurs, the nearest handler above it is the parent of whatever it may be named
after, and only the root of the tree has none above it. -/
theorem Occurs.nearest {roots : List (HandlerTree C)} (hroots : WellNested roots)
    {isHandler : String → Bool} (hnames : ∀ t ∈ subtreesOf roots, isHandler t.name = true)
    (hgeneric : ∀ l ∈ genericLabels, isHandler l = false) {tree : ParseTree}
    (hlabel : ∃ t ∈ roots, tree.label = some t.name) (htree : Mirrors roots tree)
    {path : List String} {u : ParseTree} (h : Occurs [tree] path u) :
    (u = tree ∧ path = [] ∨ (path.find? isHandler).isSome = true) ∧
      ∃ ts, Mirrors ts u ∧
        ∀ t ∈ ts, t ∈ subtreesOf roots ∧ path.find? isHandler = t.handler.parent? := by
  induction h with
  | top hmem =>
    rw [List.mem_singleton.mp hmem]
    refine ⟨Or.inl ⟨rfl, rfl⟩, roots, htree, fun t ht => ⟨subset_subtreesOf ht, ?_⟩⟩
    exact (hroots.root t ht).symm
  | @child path n c hn hc ih =>
    obtain ⟨habove, ts, hmirrors, hts⟩ := ih
    cases hmirrors with
    | generic hgen hchildren =>
      have hpath : (n.label.toList ++ path).find? isHandler = path.find? isHandler := by
        cases hl : n.label with
        | none => rfl
        | some l =>
          have hno := hgeneric l (hgen l hl)
          simp [hno]
      have hnot : n ≠ tree := by
        rintro rfl
        obtain ⟨t, ht, hname⟩ := hlabel
        have htrue := hnames t (subset_subtreesOf ht)
        rw [hgeneric _ (hgen _ hname)] at htrue
        cases htrue
      refine ⟨Or.inr ?_, [], hchildren c hc, fun t ht => nomatch ht⟩
      rw [hpath]
      exact habove.resolve_left fun ⟨heq, _⟩ => hnot heq
    | @handled _ t _ ht hname hchildren =>
      have hmem := (hts t ht).1
      have hpath : (n.label.toList ++ path).find? isHandler = some t.name := by
        simp [hname, hnames t hmem]
      rw [hpath]
      refine ⟨Or.inr rfl, t.children, hchildren c hc, fun t' ht' => ?_⟩
      exact ⟨mem_subtreesOf_child hmem ht', (hroots.child t hmem t' ht').symm⟩

/-- In the tree of every parse with a generated grammar, the labels are names of handlers or
generic, and the nearest handler above a node with a handler's name is its parent; a node with the
name of a handler without a parent is the tree itself. -/
theorem nesting_mirrored {r : Registry C} (hr : r.Reached) {gg : GeneratedGrammar C}
    (hgg : r.generate = .ok gg) (v : Vocabulary) (bytes : List UInt8) (calls : List Call)
    {tree : ParseTree} {s' : TokenStream}
    (hparse : gg.grammar.parse (serve calls (.ofBytes v bytes)).2 = .ok tree s')
    {path : List String} {u : ParseTree} (hu : Occurs [tree] path u) :
    let handlers := handlersOf r.trees
    let isHandler := fun l => handlers.any (·.name == l)
    (∀ l, u.label = some l → isHandler l = true ∨ l ∈ genericLabels) ∧
      ∀ h ∈ handlers, u.label = some h.name →
        path.find? isHandler = h.parent? ∧ (h.parent? = none → u = tree ∧ path = []) := by
  intro handlers isHandler
  obtain ⟨roots, plan, d, hd⟩ := parses_of_parse hgg (classified_serve v bytes calls) hparse
  have hroots := hd.sorted
  have hnested := hr.wellNested hroots
  obtain ⟨hmirrors, hroot⟩ := hd.mirrors ⟨hnested.nodup, hnested.valid⟩
  have hdeclared : ∀ t ∈ subtreesOf roots, ∃ h ∈ handlers,
      h.name = t.name ∧ h.parent? = t.handler.parent? := fun t ht => hr.declared hroots ht
  have hnames : ∀ t ∈ subtreesOf roots, isHandler t.name = true := by
    intro t ht
    obtain ⟨h, hh, hname, -⟩ := hdeclared t ht
    exact List.any_eq_true.mpr ⟨h, hh, beq_iff_eq.mpr hname⟩
  have hgeneric : ∀ l ∈ genericLabels, isHandler l = false := by
    intro l hl
    refine Bool.eq_false_iff.mpr fun htrue => ?_
    obtain ⟨h, hh, hname⟩ := List.any_eq_true.mp htrue
    refine not_generic_of_valid (hr.valid_names h hh) ?_
    rw [beq_iff_eq.mp hname]
    exact hl
  obtain ⟨habove, ts, hts, hparents⟩ := Occurs.nearest hnested hnames hgeneric hroot
    hmirrors hu
  cases hts with
  | generic hgen _ =>
    refine ⟨fun l hl => Or.inr (hgen l hl), fun h hh hl => ?_⟩
    exact absurd (hgen _ hl) (not_generic_of_valid (hr.valid_names h hh))
  | @handled _ t _ ht hname _ =>
    obtain ⟨hmem, hparent⟩ := hparents t ht
    refine ⟨fun l hl => Or.inl ?_, fun h hh hl => ?_⟩
    · rw [← Option.some.inj (hname.symm.trans hl)]
      exact hnames t hmem
    · obtain ⟨h', hh', hname', hparent'⟩ := hdeclared t hmem
      have hsame : h = h' :=
        List.inj_on_of_nodup_map hr.nodup_names hh hh'
          ((Option.some.inj (hl.symm.trans hname)).trans hname'.symm)
      rw [hsame, hparent', hparent]
      refine ⟨rfl, fun hnone => habove.resolve_right fun hsome => ?_⟩
      rw [hparent, hnone] at hsome
      cases hsome

/-! ## An example -/

theorem ParseTree.child?_eq_some {t c : ParseTree} {label : String} (h : t.child? label = some c) :
    c ∈ t.children ∧ c.label = some label := by
  unfold ParseTree.child? at h
  have hlabel := List.find?_some h
  exact ⟨List.mem_of_find?_eq_some h, beq_iff_eq.mp hlabel⟩

open Registry in
theorem nesting_mirrored_sample : sampleRegistry.Reached ∧ ∃ gg tree s' u,
    sampleRegistry.generate = .ok gg ∧
    gg.grammar.parse (serve [] (.ofBytes .standard sampleSource)).2 = .ok tree s' ∧
    Occurs [tree] ["meta", "doc"] u ∧ u.label = some "name" ∧
    ∀ h ∈ handlersOf sampleRegistry.trees, u.label = some h.name → h.parent? = some "meta" := by
  have hsome : (sampleRegistry.parsed? sampleSource).any (fun (_, tree) =>
      tree.label == some "doc" && ((tree.child? "meta").bind (·.child? "name")).isSome) = true := by
    decide +kernel
  cases hparsed : sampleRegistry.parsed? sampleSource with
  | none => rw [hparsed] at hsome; cases hsome
  | some p =>
    obtain ⟨gg, tree⟩ := p
    rw [hparsed, Option.any_some, Bool.and_eq_true, beq_iff_eq] at hsome
    obtain ⟨u, hu⟩ := Option.isSome_iff_exists.mp hsome.2
    obtain ⟨m, hm, hu⟩ := Option.bind_eq_some_iff.mp hu
    obtain ⟨hm, hmeta⟩ := child?_eq_some hm
    obtain ⟨hu, hname⟩ := child?_eq_some hu
    obtain ⟨hgg, s', hparse⟩ := parsed?_eq_some hparsed
    have hoccurs : Occurs [tree] ["meta", "doc"] u := by
      have h := ((Occurs.top (List.mem_singleton_self tree)).child hm).child hu
      rw [hmeta, hsome.1] at h
      exact h
    refine ⟨sampleRegistry_reached, gg, tree, s', u, hgg, hparse, hoccurs, hname, fun h hh hl => ?_⟩
    have hnearest := (nesting_mirrored sampleRegistry_reached hgg .standard sampleSource [] hparse
      hoccurs).2 h hh hl
    rw [← hnearest.1]
    decide +kernel

end HandlerGrammar
