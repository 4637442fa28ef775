import HandlerGrammar.Proofs.Registry.Sorting

/-! # Calls that fail

A call that fails changes nothing that a later call could tell: a rejected batch leaves the registry
as it is, and a failed sort at most takes repeated entries out of chains, which every later sort
would do as well. So the calls that failed can be left out of a history.

* `Registry.collapsed`: a registry without the repeated entries that it may still have;
* `Call`, `runCalls`, `accepted`: histories of calls, with their answers and the calls that succeed;
* `Call.answer_collapsed`, `Call.collapsed_left`: calls do not depend on repeated entries;
* `Call.collapsed_of_error`: a failed call changes nothing else;
* `accepted_calls`: a history and the one of its successful calls. -/
namespace HandlerGrammar
open HandlerTree
set_option autoImplicit false

variable {C : Type}

namespace HandlerTree

mutual
/-- The tree with the repeated entries of all chains in it left out. -/
def collapseAll : HandlerTree C → HandlerTree C
  | node h children => node h.collapseChain (collapseEach children)

def collapseEach : List (HandlerTree C) → List (HandlerTree C)
  | [] => []
  | t :: ts => collapseAll t :: collapseEach ts
end

theorem collapseChain_collapseChain (t : HandlerTree C) :
    t.collapseChain.collapseChain = t.collapseChain := by
  cases t
  simp [collapseChain]

theorem collapseEach_map_collapseChain (ts : List (HandlerTree C)) :
    collapseEach (ts.map collapseChain) = collapseEach ts := by
  induction ts with
  | nil => rfl
  | cons t ts ih =>
    cases t
    simp [collapseEach, collapseAll, collapseChain, ih]

theorem map_name_collapseChain (ts : List (HandlerTree C)) :
    (ts.map collapseChain).map name = ts.map name := by
  rw [List.map_map]
  refine List.map_congr_left fun t _ => ?_
  cases t
  rfl

end HandlerTree

namespace Registry

/-! ## Histories -/

/-- The answer to a call. -/
def answer {α : Type} : EStateM.Result BuildError (Registry C) α → Except BuildError α
  | .ok a _ => .ok a
  | .error e _ => .error e

inductive Call (C : Type) where
  | register (batch : List (Handler C))
  | sort

namespace Call

def run : Call C → EStateM BuildError (Registry C) Unit
  | register batch => Registry.register batch
  | sort => Registry.sort

/-- The handlers that a call registers. -/
def batch : Call C → List (Handler C)
  | register batch => batch
  | sort => []

end Call

/-- The answers to calls, and the registry after them. -/
def runCalls : List (Call C) → Registry C → List (Except BuildError Unit) × Registry C
  | [], r => ([], r)
  | c :: cs, r =>
    let rest := runCalls cs (left (c.run r))
    (answer (c.run r) :: rest.1, rest.2)

/-- The calls that do not fail. -/
def accepted : List (Call C) → Registry C → List (Call C)
  | [], _ => []
  | c :: cs, r =>
    let rest := accepted cs (left (c.run r))
    if (answer (c.run r)).isOk then c :: rest else rest

/-! ## What calls depend on -/

/-- The registry without the repeated entries of what it holds. -/
def collapsed (r : Registry C) : Registry C :=
  if r.isSorted then r else { r with trees := r.trees.map collapseChain }

theorem isSorted_collapsed (r : Registry C) : r.collapsed.isSorted = r.isSorted := by
  unfold collapsed
  split <;> rfl

theorem collapsed_collapsed (r : Registry C) : r.collapsed.collapsed = r.collapsed := by
  obtain ⟨trees, isSorted⟩ := r
  cases isSorted with
  | true => rfl
  | false =>
    simp only [collapsed, Bool.false_eq_true, if_false, List.map_map, Function.comp_def,
      collapseChain_collapseChain]

theorem collapseEach_trees_collapsed (r : Registry C) :
    collapseEach r.collapsed.trees = collapseEach r.trees := by
  unfold collapsed
  split
  · rfl
  · exact collapseEach_map_collapseChain r.trees

theorem map_collapseChain_insertAll (batch : List (Handler C)) (ts : List (HandlerTree C)) :
    (insertAll batch ts).map collapseChain =
      insertAll (batch.map Handler.collapseChain) (ts.map collapseChain) := by
  induction batch generalizing ts with
  | nil => rfl
  | cons h batch ih =>
    change (insertAll batch ((HandlerTree.node h []).insertByName ts)).map collapseChain = _
    rw [ih, insertByName_map_collapseChain]
    rfl

theorem sort_collapsed (r : Registry C) : sort r.collapsed = sort r := by
  obtain ⟨trees, isSorted⟩ := r
  cases isSorted with
  | true => rfl
  | false =>
    simp only [sort, collapsed, Bool.false_eq_true, if_false, List.map_map, Function.comp_def,
      collapseChain_collapseChain]

/-- Names do not change with chains, so a batch meets the same objections, and what it adds comes to
the same places. -/
theorem register_collapsed (batch : List (Handler C)) (r : Registry C) :
    answer (register batch r.collapsed) = answer (register batch r) ∧
      (left (register batch r.collapsed)).collapsed = (left (register batch r)).collapsed := by
  obtain ⟨trees, isSorted⟩ := r
  cases isSorted with
  | true => exact ⟨rfl, rfl⟩
  | false =>
    simp only [register, collapsed, Bool.false_eq_true, if_false, map_name_collapseChain]
    cases checkNames (trees.map HandlerTree.name) batch with
    | error e =>
      refine ⟨rfl, ?_⟩
      simp only [left, Bool.false_eq_true, if_false, List.map_map, Function.comp_def,
        collapseChain_collapseChain]
    | ok u =>
      refine ⟨rfl, ?_⟩
      simp only [left, Bool.false_eq_true, if_false, map_collapseChain_insertAll, List.map_map,
        Function.comp_def, collapseChain_collapseChain]

theorem Call.answer_collapsed (c : Call C) (r : Registry C) :
    answer (c.run r.collapsed) = answer (c.run r) := by
  cases c with
  | register batch => exact (register_collapsed batch r).1
  | sort => exact congrArg answer (sort_collapsed r)

theorem Call.collapsed_left (c : Call C) (r : Registry C) :
    (left (c.run r.collapsed)).collapsed = (left (c.run r)).collapsed := by
  cases c with
  | register batch => exact (register_collapsed batch r).2
  | sort => exact congrArg (fun result => (left result).collapsed) (sort_collapsed r)

theorem generate_collapsed (r : Registry C) : r.collapsed.generate = r.generate := by
  have hroots : r.collapsed.roots = r.roots := by
    rw [roots, roots, isSorted_collapsed, sort_collapsed]
    split
    · next hsorted => rw [collapsed, if_pos hsorted]
    · rfl
  rw [generate, generate, hroots]

/-! ## Calls that fail -/

theorem register_error {batch : List (Handler C)} {r r' : Registry C} {e : BuildError}
    (h : register batch r = .error e r') : r' = r := by
  unfold register at h
  split at h
  · cases h
    rfl
  · cases hcheck : checkNames (r.trees.map HandlerTree.name) batch with
    | error e' =>
      rw [hcheck] at h
      cases h
      rfl
    | ok u =>
      rw [hcheck] at h
      cases h

theorem Call.collapsed_of_error {c : Call C} {r r' : Registry C} {e : BuildError} (hr : Sound r)
    (h : c.run r = .error e r') : r'.collapsed = r.collapsed := by
  cases c with
  | register batch => rw [register_error h]
  | sort =>
    cases hr with
    | sorted _ =>
      cases h
      rfl
    | @holding hs hcollected =>
      have h : Registry.sort (holding hs) = .error e r' := h
      by_cases hwell : WellFormed hs
      · rw [hcollected.sort_ok hwell] at h
        cases h
      · obtain ⟨e', -, herror⟩ := hcollected.sort_error hwell
        rw [herror] at h
        cases h
        have hcollapsed : holding (hs.map Handler.collapseChain) = (holding hs).collapsed :=
          congrArg (Registry.mk · false) (collapse_leaves hs).symm
        rw [hcollapsed, collapsed_collapsed]

theorem Sound.run {r : Registry C} (h : Sound r) (c : Call C) : Sound (left (c.run r)) := by
  cases c with
  | register batch => exact h.register batch
  | sort => exact h.sort

/-- Registries that differ in repeated entries only answer a history and what succeeds in it alike,
and still differ in no more. -/
theorem runCalls_accepted {calls : List (Call C)} {r r' : Registry C} (hr : Sound r)
    (heq : r'.collapsed = r.collapsed) :
    (runCalls (accepted calls r) r').1 = (runCalls calls r).1.filter Except.isOk ∧
      (runCalls (accepted calls r) r').2.collapsed = (runCalls calls r).2.collapsed := by
  induction calls generalizing r r' with
  | nil => exact ⟨rfl, heq⟩
  | cons c calls ih =>
    have hsound := hr.run c
    simp only [accepted, runCalls]
    cases hrun : c.run r with
    | error e next =>
      -- the registry after the failed call stands for the one before it
      rw [hrun] at hsound
      change Sound next at hsound
      exact ih hsound (heq.trans (Call.collapsed_of_error hr hrun).symm)
    | ok u next =>
      rw [hrun] at hsound
      change Sound next at hsound
      have hanswer : answer (c.run r') = .ok u := by
        rw [← c.answer_collapsed, heq, c.answer_collapsed, hrun]
        rfl
      have hnext : (left (c.run r')).collapsed = next.collapsed := by
        rw [← c.collapsed_left, heq, c.collapsed_left, hrun]
        rfl
      obtain ⟨hanswers, hstate⟩ := ih hsound hnext
      refine ⟨?_, hstate⟩
      change answer (c.run r') :: (runCalls (accepted calls next) (left (c.run r'))).1 =
        .ok u :: (runCalls calls next).1.filter Except.isOk
      rw [hanswer, hanswers]

/-! ## What is held -/

theorem runCalls_sorted {r : Registry C} (hsorted : r.isSorted = true) (calls : List (Call C)) :
    (runCalls calls r).2 = r := by
  induction calls with
  | nil => rfl
  | cons c calls ih =>
    have hleft : left (c.run r) = r := by
      cases c with
      | register batch =>
        change left (register batch r) = r
        rw [register, if_pos hsorted]
        rfl
      | sort =>
        change left (Registry.sort r) = r
        rw [Registry.sort, if_pos hsorted]
        rfl
    change (runCalls calls (left (c.run r))).2 = r
    rw [hleft, ih]

theorem map_collapseChain_collapse (hs : List (Handler C)) :
    (hs.map Handler.collapseChain).map Handler.collapseChain = hs.map Handler.collapseChain := by
  rw [List.map_map]
  exact List.map_congr_left fun h _ => h.collapseChain_collapseChain

/-- As long as nothing is sorted, a registry holds what the successful calls registered. -/
theorem runCalls_holding {calls : List (Call C)} {hs : List (Handler C)} (hcollected : Collected hs)
    (hopen : (runCalls calls (holding hs)).2.isSorted = false) :
    ∃ hs', Collected hs' ∧ (runCalls calls (holding hs)).2 = holding hs' ∧
      (hs'.map Handler.collapseChain).Perm
        (((accepted calls (holding hs)).flatMap Call.batch ++ hs).map Handler.collapseChain) := by
  induction calls generalizing hs with
  | nil => exact ⟨hs, hcollected, rfl, .refl _⟩
  | cons c calls ih =>
    simp only [accepted, runCalls] at hopen ⊢
    cases c with
    | register batch =>
      simp only [Call.run, register_holding] at hopen ⊢
      cases hcheck : checkNames (hs.map (·.name)) batch with
      | error e =>
        rw [hcheck] at hopen
        exact ih hcollected hopen
      | ok u =>
        obtain ⟨added, hcollected', hperm, heq⟩ := hcollected.insertAll hcheck
        rw [hcheck, heq] at hopen
        rw [heq]
        obtain ⟨hs', hcollected', hholds, hperm'⟩ := ih hcollected' hopen
        refine ⟨hs', hcollected', hholds, hperm'.trans (List.Perm.map _ ?_)⟩
        refine (hperm.append_left _).trans ?_
        change (_ ++ (batch ++ hs)).Perm ((batch ++ _) ++ hs)
        rw [List.append_assoc]
        exact List.perm_append_comm_assoc _ _ _
    | sort =>
      by_cases hwell : WellFormed hs
      · have hrun : (Call.sort.run (holding hs) : EStateM.Result _ _ _) = _ := hcollected.sort_ok hwell
        rw [hrun] at hopen
        rw [left, runCalls_sorted rfl] at hopen
        cases hopen
      · obtain ⟨e, -, herror⟩ := hcollected.sort_error hwell
        have hrun : Call.sort.run (holding hs) = .error e (holding (hs.map Handler.collapseChain)) :=
          herror
        rw [hrun] at hopen ⊢
        obtain ⟨hs', hcollected', hholds, hperm⟩ := ih hcollected.collapse hopen
        refine ⟨hs', hcollected', hholds, hperm.trans ?_⟩
        rw [List.map_append, List.map_append, map_collapseChain_collapse]
        exact .refl _

/-- What failed in a history can be left out: the other calls answer as before, and the registry
after them is the same but for repeated entries in chains, which the grammar that it generates does
not tell. So a rejected batch leaves nothing behind, and as long as nothing is sorted, sorting
succeeds as soon as what the successful calls registered is well formed. -/
theorem accepted_calls (calls : List (Call C)) :
    let whole := runCalls calls .empty
    let kept := runCalls (accepted calls .empty) .empty
    kept.1 = whole.1.filter Except.isOk ∧ kept.2.isSorted = whole.2.isSorted ∧
    kept.2.generate = whole.2.generate ∧ collapseEach kept.2.trees = collapseEach whole.2.trees ∧
    (∀ batch e r', register batch whole.2 = .error e r' → r' = whole.2) ∧
    (whole.2.isSorted = false → ((∃ r', sort whole.2 = .ok () r') ↔
      WellFormed ((accepted calls .empty).flatMap Call.batch))) := by
  intro whole kept
  obtain ⟨hanswers, hstate⟩ : kept.1 = whole.1.filter Except.isOk ∧
      kept.2.collapsed = whole.2.collapsed := runCalls_accepted (.holding .nil) rfl
  refine ⟨hanswers, ?_, ?_, ?_, fun batch e r' => register_error, fun hopen => ?_⟩
  · rw [← isSorted_collapsed, hstate, isSorted_collapsed]
  · rw [← generate_collapsed, hstate, generate_collapsed]
  · rw [← collapseEach_trees_collapsed, hstate, collapseEach_trees_collapsed]
  · obtain ⟨hs, hcollected, hholds, hperm⟩ := runCalls_holding .nil hopen
    rw [List.append_nil] at hperm
    have hwell : WellFormed hs ↔ WellFormed ((accepted calls .empty).flatMap Call.batch) := by
      rw [← wellFormed_collapse, wellFormed_perm hperm]
      exact wellFormed_collapse
    change (∃ r', sort (runCalls calls (holding [])).2 = .ok () r') ↔ _
    rw [hholds, ← hwell]
    refine ⟨?_, fun h => ⟨_, hcollected.sort_ok h⟩⟩
    rintro ⟨r', hok⟩
    exact (hcollected.sort_ok_iff.mp hok).1

/-- A failed sort is made good by what was missing. -/
example : (runCalls [.register [⟨"size", .primary, ["doc"], fun _ => pure ()⟩], .sort,
      .register [⟨"doc", .object, [], fun _ => pure ()⟩], .sort] (Registry.empty : Registry Unit)).1 =
    [.ok (), .error (.unknownAncestor "size" "doc"), .ok (), .ok ()] := rfl

end Registry
end HandlerGrammar
