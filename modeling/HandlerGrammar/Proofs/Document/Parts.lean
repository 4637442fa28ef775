import HandlerGrammar.Proofs.Document.Drafting
import HandlerGrammar.Proofs.Matching.Assembly
import HandlerGrammar.Proofs.Registry.Sorting

/-! # The parts of a forest's documents

From the entry on, the rules of a generated grammar describe parts that belong to its forest, and
each makes the nodes of its instances as its part says.

* `Part.label?`, `Part.groups`: the label under which a part stands, the groups it gathers;
* `Layout.nodes`: the nodes of an instance from those that it matched;
* `Part.Within`: the parts that belong to a forest, `Within.parts`: with them what they consist of. -/
namespace HandlerGrammar
open Derivation HandlerTree ParseTree
set_option autoImplicit false

variable {C : Type}

/-! ## Nodes by part -/

namespace Part

def label? : Part C → Option String
  | property => some propertyLabel
  | keyed t | root t => some t.name
  | braces label? _ _ | brackets label? _ => label?
  | _ => none

def groups : Part C → List (String × List String)
  | braces _ groups _ => groups
  | _ => []

end Part

theorem group?_gathers (groups : List (String × List String)) :
    (groups.map fun group => Step.gather group.1 group.2).filterMap Step.group? = groups := by
  induction groups with
  | nil => rfl
  | cons group groups ih =>
    rw [List.map_cons, List.filterMap_cons, ih]
    rfl

section
variable {plan : List (Part C)} {p : Part C} {body : Rule}

theorem Layout.label? (h : Layout plan p body) : body.label? = p.label? := by
  cases h with
  | choice hne _ => cases p <;> first | rfl | exact absurd rfl hne
  | _ => rfl

theorem Layout.groups (h : Layout plan p body) :
    body.steps.filterMap Step.group? = p.groups := by
  cases h with
  | choice hne _ => cases p <;> first | rfl | exact absurd rfl hne
  | @braces label? groups p items hitems =>
    rw [List.filterMap_append, group?_gathers]
    rfl
  | _ => rfl

theorem Layout.gathersLast (h : Layout plan p body) : GathersLast body.steps := by
  have hfront : ∀ {steps : List Step}, (∀ s ∈ steps, s.group? = none) → GathersLast steps := by
    intro steps hsteps
    refine List.pairwise_of_forall_mem_list fun s hs s' _ hsome => ?_
    rw [hsteps s hs] at hsome
    cases hsome
  cases h with
  | braces _ =>
    refine List.pairwise_append.mpr ⟨hfront (by simp [Step.group?]), ?_, ?_⟩
    · exact List.pairwise_map.mpr (List.pairwise_of_forall fun _ _ _ => rfl)
    · intro s _ s' hs' _
      obtain ⟨group, -, rfl⟩ := List.mem_map.mp hs'
      rfl
  | _ => exact hfront (by simp [Step.group?, Rule.plain, Rule.labeled])

/-- The nodes of an instance: those matched, gathered and put under the label of the part. -/
theorem Layout.nodes (h : Layout plan p body) {g : Grammar} {toks : Nat → Token} {id : RuleId}
    {line : Nat} {parts : List Derivation} {a b : Nat} (hd : Derives g toks body.steps parts a b) :
    (Derivation.rule id body line parts).nodes =
      Grammar.ruleNodes body line
        (gatherAll line p.groups (Derivation.rule id body line parts).matched) := by
  have hassemble := hd.assemble h.gathersLast line []
  rw [h.groups, List.nil_append] at hassemble
  rw [Derivation.nodes, hassemble]
  rfl

/-- What an instance matched: leaves for tokens that it keeps, and nodes of the parts of its part. -/
theorem Layout.mem_matched (h : Layout plan p body) {g : Grammar} {toks : Nat → Token} {id : RuleId}
    {line : Nat} {parts : List Derivation} {a b : Nat}
    (hd : Derives g toks body.steps parts a b) {n : ParseTree}
    (hn : n ∈ (Derivation.rule id body line parts).matched) :
    (∃ x t, .terminal x ∈ body.steps ∧ x.isKept = true ∧ n = .leaf none t) ∨
      ∃ id' body' line' parts' q,
        Derivation.rule id' body' line' parts' ∈ parts ∧ plan[id']? = some q ∧ q ∈ p.parts ∧
          n ∈ (Derivation.rule id' body' line' parts').nodes := by
  obtain ⟨d, hmem, hn⟩ := List.mem_flatMap.mp hn
  cases d with
  | token x t =>
    rw [produced] at hn
    split at hn
    · next hkept => exact Or.inl ⟨x, t, hd.tested x t hmem, hkept, List.mem_singleton.mp hn⟩
    · cases hn
  | rule id' body' line' parts' =>
    obtain ⟨q, hq, hqp⟩ := h.references id' (hd.referenced _ _ _ _ hmem)
    exact Or.inr ⟨id', body', line', parts', q, hmem, hq, hqp, hn⟩
  | gather _ _ => cases hn

end

/-! ## Parts that belong to a forest -/

namespace HandlerTree

mutual
theorem subtreesOf_flattened (ts : List (HandlerTree C)) :
    (subtreesOf (flattened ts)).Sublist (subtreesOf ts) := by
  match ts with
  | [] => exact List.Sublist.refl _
  | t :: ts =>
    rw [flattened, subtreesOf_append]
    exact (subtreesOf_unwrapped t).append (subtreesOf_flattened ts)

theorem subtreesOf_unwrapped (t : HandlerTree C) :
    (subtreesOf (unwrapped t)).Sublist t.subtrees := by
  match t with
  | .node h children =>
    unfold unwrapped
    split
    · exact (subtreesOf_flattened children).trans (List.sublist_cons_self _ _)
    · rw [subtreesOf, subtreesOf, List.append_nil]
end

mutual
theorem mode_of_mem_flattened {ts : List (HandlerTree C)} {t : HandlerTree C}
    (h : t ∈ flattened ts) : t.handler.mode ≠ .wrapper := by
  match ts with
  | [] => cases h
  | t' :: ts =>
    rcases List.mem_append.mp h with h | h
    · exact mode_of_mem_unwrapped h
    · exact mode_of_mem_flattened h

theorem mode_of_mem_unwrapped {t u : HandlerTree C} (h : u ∈ unwrapped t) :
    u.handler.mode ≠ .wrapper := by
  match t with
  | .node handler children =>
    unfold unwrapped at h
    split at h
    · exact mode_of_mem_flattened h
    · next hmode =>
      rw [List.mem_singleton.mp h]
      exact hmode
end

end HandlerTree

namespace Part

/-- The part belongs to the documents of the forest. -/
def Within (roots : List (HandlerTree C)) : Part C → Prop
  | member ts => ∃ t ∈ subtreesOf roots, ts = t.children
  | keyed t => t ∈ subtreesOf roots ∧ t.handler.mode ≠ .wrapper
  | root t => t ∈ roots
  | document ts => ts = roots
  | braces label? groups p => braces label? groups p = object ∨
      ∃ t ∈ subtreesOf roots, braces label? groups p = container t.children
  | brackets label? p => brackets label? p = array ∨ label? = none ∧ p.Within roots
  | items p | next p | rest p | optional p => p.Within roots
  | _ => True

variable {roots : List (HandlerTree C)}

theorem container_inj {ts us : List (HandlerTree C)} (h : container ts = container us) : ts = us := by
  have hitem := (Part.braces.inj h).2.2
  cases ts with
  | nil =>
    cases us with
    | nil => rfl
    | cons u us => cases hitem
  | cons t ts =>
    cases us with
    | nil => cases hitem
    | cons u us => exact Part.member.inj hitem

theorem within_valueOf {t : HandlerTree C} (h : t ∈ subtreesOf roots) : (valueOf t).Within roots := by
  unfold valueOf
  cases t.handler.mode with
  | primary => exact trivial
  | wrapper | object => exact Or.inr ⟨t, h, rfl⟩
  | array =>
    refine Or.inr ⟨rfl, ?_⟩
    split
    · exact trivial
    · exact Or.inr ⟨t, h, rfl⟩

theorem within_itemOf {t : HandlerTree C} (h : t ∈ subtreesOf roots) :
    (itemOf t.children).Within roots := by
  unfold itemOf
  split
  · exact trivial
  · exact ⟨t, h, rfl⟩

theorem Within.parts {p : Part C} (h : p.Within roots) : ∀ q ∈ p.parts, q.Within roots := by
  intro q hq
  cases p with
  | token x | rest p | optional p => cases hq
  | key | scalar =>
    simp only [Part.parts, alternatives, List.mem_cons, List.not_mem_nil, or_false] at hq
    rcases hq with rfl | rfl | rfl | rfl <;> exact trivial
  | generic =>
    simp only [Part.parts, alternatives, List.mem_cons, List.not_mem_nil, or_false] at hq
    rcases hq with rfl | rfl | rfl
    · exact Or.inl rfl
    · exact Or.inl rfl
    · exact trivial
  | property =>
    simp only [Part.parts, List.mem_cons, List.not_mem_nil, or_false] at hq
    rcases hq with rfl | rfl <;> exact trivial
  | braces label? groups p =>
    obtain rfl := List.mem_singleton.mp hq
    rcases h with heq | ⟨t, ht, heq⟩
    · cases heq
      exact trivial
    · cases heq
      exact within_itemOf ht
  | brackets label? p =>
    obtain rfl := List.mem_singleton.mp hq
    rcases h with heq | ⟨-, h⟩
    · cases heq
      exact trivial
    · exact h
  | items p =>
    simp only [Part.parts, List.mem_cons, List.not_mem_nil, or_false] at hq
    rcases hq with rfl | rfl <;> exact h
  | next p =>
    obtain rfl := List.mem_singleton.mp hq
    exact h
  | member ts =>
    obtain ⟨t, ht, rfl⟩ := h
    rcases mem_offers hq with rfl | ⟨u, hu, rfl⟩
    · exact trivial
    · have hsub := (subtreesOf_flattened t.children).trans (children_sublist ht)
      exact ⟨hsub.subset (subset_subtreesOf hu), mode_of_mem_flattened hu⟩
  | keyed t =>
    obtain rfl := List.mem_singleton.mp hq
    exact within_valueOf h.1
  | root t =>
    obtain rfl := List.mem_singleton.mp hq
    exact within_valueOf (subset_subtreesOf h)
  | document ts =>
    obtain rfl : ts = roots := h
    obtain ⟨t, ht, rfl⟩ := List.mem_map.mp hq
    exact ht

theorem Within.exists_tree {ts : List (HandlerTree C)} (h : (container ts).Within roots) :
    ∃ t ∈ subtreesOf roots, ts = t.children := by
  rcases h with heq | ⟨t, ht, heq⟩
  · cases heq
  · exact ⟨t, ht, container_inj heq⟩

theorem within_entryPart : (HandlerTree.entryPart roots).Within roots := by
  match roots with
  | [] => exact rfl
  | [t] => exact List.mem_singleton_self t
  | t :: t' :: roots => exact rfl

end Part

/-- All instances in a derivation of a part that belongs to a forest are of such parts. -/
theorem LaidOut.within_instances {g : Grammar} {plan : List (Part C)} (h : LaidOut g plan)
    {roots : List (HandlerTree C)} {toks : Nat → Token} {entry : RuleId} {p : Part C}
    (hentry : plan[entry]? = some p) (hp : p.Within roots) {d : Derivation} {a b : Nat}
    (hd : Derives g toks [.rule entry] [d] a b) :
    ∀ id body line parts, .rule id body line parts ∈ d.instances →
      ∃ q, plan[id]? = some q ∧ q.Within roots := by
  intro id body line parts hmem
  have hall := hd.forall_instances (K := fun id => ∃ q, plan[id]? = some q ∧ q.Within roots)
    (fun id body ⟨q, hq, hwithin⟩ hbody id' hid' => by
      obtain ⟨q', hq', hpart⟩ := (h.layout hq hbody).references id' hid'
      exact ⟨q', hq', hwithin.parts q' hpart⟩)
    (fun id hid => by
      rw [List.mem_singleton.mp hid]
      exact ⟨p, hentry, hp⟩)
  exact hall id body line parts (List.mem_append_left _ hmem)

end HandlerGrammar
