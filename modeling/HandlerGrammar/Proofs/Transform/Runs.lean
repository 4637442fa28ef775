import HandlerGrammar.HandlerTable
import HandlerGrammar.Proofs.Tree.Gathering
import Mathlib.Data.String.Basic

/-! # Which handlers run

A transform visits the nodes of a tree, each after those below it, and runs the handlers that it
finds for their labels.

* `ParseTree.postorder`, `transform_eq_runAll`: a transform is a run over the nodes in this order;
* `traced`: the same table with a log of the handlers run;
* `transform_traced`: what a transform without failure logs;
* `handles_ofList`, `action?_ofList`: the names that a table handles, and with what. -/
namespace HandlerGrammar
open ParseTree
set_option autoImplicit false

variable {C : Type}

namespace ParseTree

mutual
/-- The nodes of a tree, each after those below it. -/
def postorder : ParseTree → List ParseTree
  | leaf label token => [leaf label token]
  | branch label line children => postorderAll children ++ [branch label line children]

def postorderAll : List ParseTree → List ParseTree
  | [] => []
  | t :: ts => postorder t ++ postorderAll ts
end

mutual
theorem labels_eq_postorder (t : ParseTree) : t.labels = t.postorder.flatMap (·.label.toList) := by
  match t with
  | leaf label token => simp [postorder, ParseTree.label]
  | branch label line children =>
    have h := labels_eq_postorderAll children
    simp [postorder, h, ParseTree.label]

theorem labels_eq_postorderAll (ts : List ParseTree) :
    ts.flatMap labels = (postorderAll ts).flatMap (·.label.toList) := by
  match ts with
  | [] => rfl
  | t :: ts =>
    have ht := labels_eq_postorder t
    have hts := labels_eq_postorderAll ts
    simp only [List.flatMap_cons, postorderAll, List.flatMap_append, ht, hts]
end

end ParseTree

namespace HandlerTable

/-- Run the handlers of the nodes in order, up to the first failure. -/
def runAll (table : HandlerTable C) : List ParseTree → EStateM HandlerFailure C Unit
  | [] => pure ()
  | t :: ts => do
    table.handle t
    runAll table ts

section
variable (table : HandlerTable C)

theorem runAll_cons (t : ParseTree) (ts : List ParseTree) (c : C) :
    table.runAll (t :: ts) c =
      match table.handle t c with
      | .ok _ c' => table.runAll ts c'
      | .error e c' => .error e c' := by
  change EStateM.bind (table.handle t) (fun _ => table.runAll ts) c = _
  unfold EStateM.bind
  cases table.handle t c <;> rfl

theorem runAll_append (ts us : List ParseTree) :
    table.runAll (ts ++ us) = table.runAll ts >>= fun _ => table.runAll us := by
  induction ts with
  | nil => rfl
  | cons t ts ih =>
    funext c
    rw [List.cons_append, runAll_cons, ih]
    change _ = EStateM.bind (table.runAll (t :: ts)) _ c
    rw [EStateM.bind, runAll_cons]
    cases table.handle t c <;> rfl

theorem runAll_singleton (t : ParseTree) : table.runAll [t] = table.handle t := by
  funext c
  rw [runAll_cons]
  cases table.handle t c <;> rfl

mutual
theorem transform_eq_runAll (t : ParseTree) : table.transform t = table.runAll t.postorder := by
  match t with
  | .leaf label token => exact (table.runAll_singleton _).symm
  | .branch label line children =>
    have h := transformAll_eq_runAll children
    rw [transform, h, postorder, runAll_append, runAll_singleton]

theorem transformAll_eq_runAll (ts : List ParseTree) :
    table.transformAll ts = table.runAll (postorderAll ts) := by
  match ts with
  | [] => rfl
  | t :: ts =>
    have ht := transform_eq_runAll t
    have hts := transformAll_eq_runAll ts
    rw [transformAll, ht, hts, postorderAll, runAll_append]
end

end

/-! ## Logs -/

/-- An action that also logs a name. -/
def logged (name : String) (action : Action C) : Action (C × List String) := fun t (c, log) =>
  match action t c with
  | .ok _ c' => .ok () (c', log ++ [name])
  | .error reason c' => .error reason (c', log ++ [name])

/-- The table whose actions log the names under which they are run. -/
def traced (table : HandlerTable C) : HandlerTable (C × List String) :=
  ⟨table.entries.map fun e => (e.1, logged e.1 e.2)⟩

section
variable {table : HandlerTable C}

theorem action?_traced (name : String) :
    table.traced.action? name = (table.action? name).map (logged name) := by
  unfold action? traced
  induction table.entries with
  | nil => rfl
  | cons e es ih =>
    obtain ⟨n, action⟩ := e
    simp only [List.map_cons, List.lookup_cons]
    cases h : name == n with
    | true => rw [beq_iff_eq.mp h]; rfl
    | false => exact ih

/-- The handler of a node, if there is one, runs and is logged. -/
theorem handle_traced {t : ParseTree} {c c' : C} {u : Unit} (h : table.handle t c = .ok u c')
    (log : List String) : table.traced.handle t (c, log) =
      .ok () (c', log ++ t.label.toList.filter table.handles) := by
  unfold handle at h ⊢
  cases hlabel : t.label with
  | none =>
    rw [hlabel] at h
    cases h
    simp
  | some name =>
    rw [hlabel] at h
    dsimp only at h ⊢
    rw [action?_traced]
    cases haction : table.action? name with
    | none =>
      rw [haction] at h
      cases h
      simp [handles, haction]
    | some action =>
      rw [haction] at h
      dsimp only at h
      simp only [Option.map_some, logged, Option.toList_some]
      cases hrun : action t c with
      | error reason c'' => rw [hrun] at h; cases h
      | ok u' c'' =>
        rw [hrun] at h
        cases h
        simp [handles, haction]

theorem runAll_traced {ts : List ParseTree} {c c' : C} {u : Unit} (h : table.runAll ts c = .ok u c')
    (log : List String) : table.traced.runAll ts (c, log) =
      .ok () (c', log ++ (ts.flatMap (·.label.toList)).filter table.handles) := by
  induction ts generalizing c log with
  | nil =>
    cases h
    simp only [List.flatMap_nil, List.filter_nil, List.append_nil]
    rfl
  | cons t ts ih =>
    rw [runAll_cons] at h
    cases hfirst : table.handle t c with
    | error e c'' => rw [hfirst] at h; cases h
    | ok u' c'' =>
      rw [hfirst] at h
      rw [runAll_cons, handle_traced hfirst]
      dsimp only
      rw [ih h, List.flatMap_cons, List.filter_append, List.append_assoc]

/-- A transform without failure runs the handlers for all labels of the tree that have one. -/
theorem transform_traced {t : ParseTree} {c c' : C} {u : Unit} (h : table.transform t c = .ok u c')
    (log : List String) : table.traced.transform t (c, log) =
      .ok () (c', log ++ t.labels.filter table.handles) := by
  rw [transform_eq_runAll] at h ⊢
  rw [runAll_traced h, labels_eq_postorder]

end

/-! ## The names handled -/

theorem lookup_insertEntry (name x : String) (action : Action C) (es : List (String × Action C)) :
    (insertEntry name action es).lookup x = if x = name then some action else es.lookup x := by
  have hcons : ∀ (n : String) (a : Action C) (es : List (String × Action C)),
      ((n, a) :: es).lookup x = if x = n then some a else es.lookup x := by
    intro n a es
    rw [List.lookup_cons]
    by_cases hx : x = n
    · simp [hx]
    · rw [if_neg hx, beq_false_of_ne hx]
  induction es with
  | nil => exact hcons name action []
  | cons e es ih =>
    obtain ⟨n, a⟩ := e
    unfold insertEntry
    dsimp only
    by_cases hlt : name < n
    · rw [if_pos hlt, hcons]
    · rw [if_neg hlt]
      by_cases hgt : n < name
      · have hne : n ≠ name := ne_of_lt hgt
        rw [if_pos hgt, hcons, ih, hcons]
        by_cases hx : x = n
        · rw [if_pos hx, if_pos hx, if_neg (hx ▸ hne)]
        · rw [if_neg hx, if_neg hx]
      · have heq : name = n := le_antisymm (le_of_not_gt hgt) (le_of_not_gt hlt)
        rw [if_neg hgt, hcons, hcons, heq]
        by_cases hx : x = n
        · rw [if_pos hx, if_pos hx]
        · rw [if_neg hx, if_neg hx, if_neg hx]

theorem handles_ofList (entries : List (String × Action C)) (x : String) :
    (ofList entries).handles x = true ↔ x ∈ entries.map Prod.fst := by
  have h : ∀ es : List (String × Action C),
      ((entries.foldl (fun es e => insertEntry e.1 e.2 es) es).lookup x).isSome = true ↔
        x ∈ entries.map Prod.fst ∨ (es.lookup x).isSome = true := by
    induction entries with
    | nil => simp
    | cons e entries ih =>
      intro es
      rw [List.foldl_cons, ih, lookup_insertEntry]
      by_cases hx : x = e.1
      · simp [hx]
      · simp [hx]
  have hempty := h []
  simpa [ofList, handles, action?] using hempty

/-- Each of different names is handled by its own action. -/
theorem action?_ofList {entries : List (String × Action C)} (hnodup : (entries.map Prod.fst).Nodup)
    (x : String) (action : Action C) :
    (ofList entries).action? x = some action ↔ (x, action) ∈ entries := by
  have h : ∀ es : List (String × Action C),
      (entries.foldl (fun es e => insertEntry e.1 e.2 es) es).lookup x = some action ↔
        (x, action) ∈ entries ∨ x ∉ entries.map Prod.fst ∧ es.lookup x = some action := by
    induction entries with
    | nil => simp
    | cons e entries ih =>
      obtain ⟨name, own⟩ := e
      obtain ⟨hfresh, hrest⟩ := List.nodup_cons.mp hnodup
      intro es
      rw [List.foldl_cons, ih hrest, lookup_insertEntry]
      by_cases hx : x = name
      · subst hx
        have hfresh : x ∉ entries.map Prod.fst := hfresh
        have hother : (x, action) ∉ entries := fun hmem =>
          hfresh (List.mem_map.mpr ⟨(x, action), hmem, rfl⟩)
        simp [hother, hfresh, eq_comm]
      · simp [hx]
  have hempty := h []
  simpa [ofList, action?] using hempty

end HandlerTable
end HandlerGrammar
