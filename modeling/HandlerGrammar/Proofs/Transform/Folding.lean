import HandlerGrammar.Proofs.Transform.Runs

/-! # A transform as a fold

The handlers that a tree asks for stand in one list, each behind those of the nodes below its own. A
transform is the left fold over this list: it goes on from the context that the last handler left and
ends with the list or with the first failure.

* `ParseTree.mem_postorder`: the nodes of a tree in post-order are the nodes of the tree;
* `Visit`, `HandlerTable.visits`: the handlers to run, with their nodes;
* `Visit.foldlM_eq_ok`, `Visit.foldlM_eq_error`: how a run of them ends;
* `transform_folds`: a transform in these terms. -/
namespace HandlerGrammar
open ParseTree
set_option autoImplicit false

variable {C : Type}

namespace ParseTree

mutual
theorem mem_postorder_self (t : ParseTree) : t ∈ t.postorder := by
  match t with
  | leaf label token => exact List.mem_singleton_self _
  | branch label line children => exact List.mem_append_right _ (List.mem_singleton_self _)

theorem postorder_of_child {t u c : ParseTree} (hu : u ∈ t.postorder) (hc : c ∈ u.children) :
    c ∈ t.postorder := by
  match t with
  | leaf label token =>
    rw [List.mem_singleton.mp hu] at hc
    cases hc
  | branch label line children =>
    rcases List.mem_append.mp hu with hu | hu
    · exact List.mem_append_left _ (postorderAll_of_child hu hc)
    · rw [List.mem_singleton.mp hu] at hc
      exact List.mem_append_left _ (postorderAll_of_mem hc)

theorem postorderAll_of_child {ts : List ParseTree} {u c : ParseTree} (hu : u ∈ postorderAll ts)
    (hc : c ∈ u.children) : c ∈ postorderAll ts := by
  match ts with
  | [] => cases hu
  | t :: ts =>
    rcases List.mem_append.mp hu with hu | hu
    · exact List.mem_append_left _ (postorder_of_child hu hc)
    · exact List.mem_append_right _ (postorderAll_of_child hu hc)

theorem postorderAll_of_mem {ts : List ParseTree} {t : ParseTree} (h : t ∈ ts) :
    t ∈ postorderAll ts := by
  match ts with
  | [] => cases h
  | t' :: ts =>
    rcases List.mem_cons.mp h with rfl | h
    · exact List.mem_append_left _ (mem_postorder_self t)
    · exact List.mem_append_right _ (postorderAll_of_mem h)
end

/-- What occurs below the children of a node occurs below the node. -/
theorem Occurs.of_children {t u : ParseTree} {path : List String} (h : Occurs t.children path u) :
    ∃ path', Occurs [t] path' u := by
  induction h with
  | top hu => exact ⟨_, (Occurs.top (List.mem_singleton_self t)).child hu⟩
  | child _ hc ih =>
    obtain ⟨path', hu⟩ := ih
    exact ⟨_, hu.child hc⟩

theorem Occurs.mono {ts us : List ParseTree} {u : ParseTree} {path : List String}
    (h : Occurs ts path u) (hsub : ts ⊆ us) : Occurs us path u := by
  induction h with
  | top hu => exact .top (hsub hu)
  | child _ hc ih => exact .child ih hc

mutual
theorem occurs_of_postorder {t u : ParseTree} (h : u ∈ t.postorder) :
    ∃ path, Occurs [t] path u := by
  match t with
  | leaf label token => exact ⟨[], .top h⟩
  | branch label line children =>
    rcases List.mem_append.mp h with h | h
    · obtain ⟨path, hu⟩ := occurs_of_postorderAll h
      exact Occurs.of_children (t := branch label line children) hu
    · exact ⟨[], .top h⟩

theorem occurs_of_postorderAll {ts : List ParseTree} {u : ParseTree} (h : u ∈ postorderAll ts) :
    ∃ path, Occurs ts path u := by
  match ts with
  | [] => cases h
  | t :: ts =>
    rcases List.mem_append.mp h with h | h
    · obtain ⟨path, hu⟩ := occurs_of_postorder h
      exact ⟨path, hu.mono (List.cons_subset.mpr ⟨List.mem_cons_self .., List.nil_subset _⟩)⟩
    · obtain ⟨path, hu⟩ := occurs_of_postorderAll h
      exact ⟨path, hu.mono (List.subset_cons_self _ _)⟩
end

theorem Occurs.mem_postorderAll {ts : List ParseTree} {path : List String} {u : ParseTree}
    (h : Occurs ts path u) : u ∈ postorderAll ts := by
  induction h with
  | top hu => exact postorderAll_of_mem hu
  | child _ hc ih => exact postorderAll_of_child ih hc

theorem mem_postorder {t u : ParseTree} : u ∈ t.postorder ↔ ∃ path, Occurs [t] path u := by
  refine ⟨occurs_of_postorder, ?_⟩
  rintro ⟨path, h⟩
  have hu := h.mem_postorderAll
  rwa [postorderAll, postorderAll, List.append_nil] at hu

end ParseTree

/-! ## Handlers to run -/

/-- A handler that is run on a node, under the node's label. -/
structure Visit (C : Type) where
  name : String
  action : Action C
  node : ParseTree

namespace Visit

/-- Run the handler. A failure is put down to its name and the line of the node. -/
def run (v : Visit C) : EStateM HandlerFailure C Unit := fun c =>
  match v.action v.node c with
  | .ok _ c' => .ok () c'
  | .error reason c' => .error ⟨v.name, v.node.line, reason⟩ c'

/-- The handlers succeed one after the other, from the first context to the last. -/
def Completes : List (Visit C) → C → C → Prop
  | [], c, c' => c' = c
  | v :: vs, c, c' => ∃ next, v.action v.node c = .ok () next ∧ Completes vs next c'

end Visit

namespace HandlerTable

/-- The handler for the node's own label, if there is one. -/
def visit? (table : HandlerTable C) (t : ParseTree) : Option (Visit C) :=
  t.label.bind fun name => (table.action? name).map fun action => ⟨name, action, t⟩

/-- The handlers that a tree asks for: those of the nodes below a node before its own, and those of
neighbours from left to right. -/
def visits (table : HandlerTable C) (t : ParseTree) : List (Visit C) :=
  t.postorder.filterMap table.visit?

section
variable (table : HandlerTable C)

theorem visit?_eq_some {t : ParseTree} {v : Visit C} : table.visit? t = some v ↔
    v.node = t ∧ t.label = some v.name ∧ table.action? v.name = some v.action := by
  obtain ⟨name, action, node⟩ := v
  unfold visit?
  rw [Option.bind_eq_some_iff]
  constructor
  · rintro ⟨name', hname, hmap⟩
    obtain ⟨action', haction, heq⟩ := Option.map_eq_some_iff.mp hmap
    obtain ⟨rfl, rfl, rfl⟩ := Visit.mk.inj heq
    exact ⟨rfl, hname, haction⟩
  · rintro ⟨rfl, hname, haction⟩
    exact ⟨name, hname, Option.map_eq_some_iff.mpr ⟨action, haction, rfl⟩⟩

theorem mem_visits {t : ParseTree} {v : Visit C} : v ∈ table.visits t ↔
    (∃ path, Occurs [t] path v.node) ∧ v.node.label = some v.name ∧
      table.action? v.name = some v.action := by
  unfold visits
  rw [List.mem_filterMap, ← mem_postorder]
  constructor
  · rintro ⟨u, hu, hv⟩
    obtain ⟨rfl, hname, haction⟩ := (table.visit?_eq_some).mp hv
    exact ⟨hu, hname, haction⟩
  · rintro ⟨hu, hname, haction⟩
    exact ⟨v.node, hu, (table.visit?_eq_some).mpr ⟨rfl, hname, haction⟩⟩

theorem map_name_visits (t : ParseTree) :
    (table.visits t).map Visit.name = t.labels.filter table.handles := by
  rw [visits, labels_eq_postorder]
  induction t.postorder with
  | nil => rfl
  | cons u us ih =>
    rw [List.flatMap_cons, List.filter_append, ← ih, List.filterMap_cons, visit?]
    cases hlabel : u.label with
    | none => rfl
    | some name => cases haction : table.action? name <;> simp [handles, haction]

theorem handle_eq_visit? (t : ParseTree) : table.handle t =
    match table.visit? t with
    | none => pure ()
    | some v => v.run := by
  funext c
  unfold handle visit?
  cases t.label with
  | none => rfl
  | some name =>
    dsimp only [Option.bind_some]
    cases table.action? name with
    | none => rfl
    | some action => rfl

theorem runAll_eq_foldlM (ts : List ParseTree) :
    table.runAll ts = (ts.filterMap table.visit?).foldlM (fun _ v => v.run) () := by
  induction ts with
  | nil => rfl
  | cons t ts ih =>
    rw [runAll, ih, handle_eq_visit?, List.filterMap_cons]
    cases table.visit? t with
    | none => rfl
    | some v => rfl

theorem transform_eq_foldlM (t : ParseTree) :
    table.transform t = (table.visits t).foldlM (fun _ v => v.run) () :=
  (table.transform_eq_runAll t).trans (table.runAll_eq_foldlM t.postorder)

end
end HandlerTable

/-! ## How a run ends -/

namespace Visit

theorem run_eq_ok {v : Visit C} {c c' : C} :
    v.run c = .ok () c' ↔ v.action v.node c = .ok () c' := by
  unfold run
  cases v.action v.node c <;> simp

theorem run_eq_error {v : Visit C} {c c' : C} {e : HandlerFailure} :
    v.run c = .error e c' ↔
      v.action v.node c = .error e.reason c' ∧ e.name = v.name ∧ e.line = v.node.line := by
  obtain ⟨name, line, reason⟩ := e
  unfold run
  cases v.action v.node c with
  | ok u next => simp
  | error reason' next =>
    simp only [EStateM.Result.error.injEq, HandlerFailure.mk.injEq]
    constructor
    · rintro ⟨⟨rfl, rfl, rfl⟩, rfl⟩
      exact ⟨⟨rfl, rfl⟩, rfl, rfl⟩
    · rintro ⟨⟨rfl, rfl⟩, rfl, rfl⟩
      exact ⟨⟨rfl, rfl, rfl⟩, rfl⟩

theorem foldlM_cons (v : Visit C) (vs : List (Visit C)) (c : C) :
    (v :: vs).foldlM (fun _ v => v.run) () c =
      match v.run c with
      | .ok _ next => vs.foldlM (fun _ v => v.run) () next
      | .error e c' => .error e c' := by
  change EStateM.bind v.run (fun _ => vs.foldlM (fun _ v => v.run) ()) c = _
  unfold EStateM.bind
  cases v.run c <;> rfl

theorem foldlM_eq_ok {vs : List (Visit C)} {c c' : C} :
    vs.foldlM (fun _ v => v.run) () c = .ok () c' ↔ Completes vs c c' := by
  induction vs generalizing c with
  | nil =>
    change EStateM.Result.ok () c = .ok () c' ↔ c' = c
    simp [eq_comm]
  | cons v vs ih =>
    rw [foldlM_cons, Completes]
    simp only [← run_eq_ok]
    cases v.run c with
    | ok u next => simp [ih]
    | error e next => simp

theorem foldlM_eq_error {vs : List (Visit C)} {c c' : C} {e : HandlerFailure} :
    vs.foldlM (fun _ v => v.run) () c = .error e c' ↔
      ∃ before v after reached, vs = before ++ v :: after ∧ Completes before c reached ∧
        v.action v.node reached = .error e.reason c' ∧ e.name = v.name ∧ e.line = v.node.line := by
  induction vs generalizing c with
  | nil =>
    constructor
    · intro h
      cases h
    · rintro ⟨before, v, after, reached, h, -⟩
      cases before <;> cases h
  | cons v vs ih =>
    rw [foldlM_cons]
    cases hrun : v.run c with
    | error e' next =>
      constructor
      · intro h
        cases h
        exact ⟨[], v, vs, c, rfl, rfl, run_eq_error.mp hrun⟩
      · rintro ⟨before, w, after, reached, heq, hbefore, hfails⟩
        cases before with
        | nil =>
          cases heq
          obtain rfl : reached = c := hbefore
          rw [← run_eq_error, hrun] at hfails
          exact hfails
        | cons _ before =>
          cases heq
          obtain ⟨next', hnext, -⟩ := hbefore
          rw [← run_eq_ok, hrun] at hnext
          cases hnext
    | ok u next =>
      rw [run_eq_ok] at hrun
      dsimp only
      rw [ih]
      constructor
      · rintro ⟨before, w, after, reached, rfl, hbefore, hfails⟩
        exact ⟨v :: before, w, after, reached, rfl, ⟨next, hrun, hbefore⟩, hfails⟩
      · rintro ⟨before, w, after, reached, heq, hbefore, hfails⟩
        cases before with
        | nil =>
          cases heq
          obtain rfl : reached = c := hbefore
          rw [hrun] at hfails
          cases hfails.1
        | cons _ before =>
          cases heq
          obtain ⟨next', hnext, hbefore⟩ := hbefore
          rw [hrun] at hnext
          cases hnext
          exact ⟨before, w, after, reached, rfl, hbefore, hfails⟩

end Visit

open Visit in
/-- A transform is the left fold over the handlers that the tree asks for, those of the nodes below a
node first. These are the handlers of exactly the nodes of the tree whose labels have one, in the
order in which the labels are listed. It succeeds exactly if all of them do, and fails exactly if one
fails behind others that succeed, with the name of that one, the line of its node and the context
that it left. -/
theorem transform_folds (table : HandlerTable C) (t : ParseTree) :
    table.transform t = (table.visits t).foldlM (fun _ v => v.run) () ∧
    (table.visits t).map Visit.name = t.labels.filter table.handles ∧
    (∀ v, v ∈ table.visits t ↔ (∃ path, Occurs [t] path v.node) ∧ v.node.label = some v.name ∧
      table.action? v.name = some v.action) ∧
    (∀ c c', table.transform t c = .ok () c' ↔ Completes (table.visits t) c c') ∧
    ∀ c e c', table.transform t c = .error e c' ↔
      ∃ before v after reached, table.visits t = before ++ v :: after ∧
        Completes before c reached ∧ v.action v.node reached = .error e.reason c' ∧
        e.name = v.name ∧ e.line = v.node.line := by
  have hfold := table.transform_eq_foldlM t
  refine ⟨hfold, table.map_name_visits t, fun v => table.mem_visits, fun c c' => ?_,
    fun c e c' => ?_⟩
  · rw [hfold]
    exact foldlM_eq_ok
  · rw [hfold]
    exact foldlM_eq_error

end HandlerGrammar
