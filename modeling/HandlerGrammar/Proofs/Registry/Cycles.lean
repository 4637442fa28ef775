import HandlerGrammar.Registry.Ancestry
import Mathlib.Data.List.Chain
import Mathlib.Data.List.Nodup
import Mathlib.Data.List.Perm.Basic
import Mathlib.Logic.Relation

/-! # Cycles of parents

Following parents from a name either comes to a name without a parent or goes round a cycle. The
search finds a cycle exactly if there is one.

* `Under`: the name that follows another;
* `IsCycle`: what is reported as a cycle, `Rooted`: names from which there is an end;
* `Walk`, `Search`: walks and the search with no bound on their steps;
* `Walk.isCycle`, `Walk.rooted`: what one walk finds, `walk_climb`: the steps allowed suffice for it;
* `findCycle_some`, `findCycle_none`: what the search finds;
* `findCycle_exact`: all this together. -/
namespace HandlerGrammar
set_option autoImplicit false

variable {parents : List (String × String)}

/-- The first name has the second for its parent. -/
def Under (parents : List (String × String)) (a b : String) : Prop := parents.lookup a = some b

/-- The names go round a cycle of parents once, back to the first. -/
structure IsCycle (parents : List (String × String)) (names : List String) : Prop where
  linked : names.IsChain (Under parents)
  nodup : names.dropLast.Nodup
  closed : ∃ name inner, names = name :: inner ++ [name]

/-- Following parents from the name comes to an end. -/
inductive Rooted (parents : List (String × String)) : String → Prop
  | root {name : String} : parents.lookup name = none → Rooted parents name
  | under {name parent : String} : Under parents name parent → Rooted parents parent →
      Rooted parents name

theorem transGen_of_isChain {a b : String} {names : List String}
    (h : (a :: names ++ [b]).IsChain (Under parents)) :
    Relation.TransGen (Under parents) a b := by
  induction names generalizing a with
  | nil => exact .single (List.isChain_pair.mp h)
  | cons c names ih =>
    obtain ⟨hac, hrest⟩ := List.isChain_cons_cons.mp h
    exact .head hac (ih hrest)

theorem IsCycle.returns {names : List String} (h : IsCycle parents names) :
    ∃ name ∈ names, Relation.TransGen (Under parents) name name := by
  obtain ⟨name, inner, rfl⟩ := h.closed
  exact ⟨name, List.mem_cons_self .., transGen_of_isChain h.linked⟩

theorem Rooted.not_returns {name : String} (h : Rooted parents name) :
    ¬ Relation.TransGen (Under parents) name name := by
  induction h with
  | root hnone =>
    intro hcycle
    obtain ⟨parent, hparent, -⟩ := Relation.TransGen.head'_iff.mp hcycle
    rw [Under, hnone] at hparent
    cases hparent
  | @under name parent hparent _ ih =>
    intro hcycle
    obtain ⟨next, hnext, hback⟩ := Relation.TransGen.head'_iff.mp hcycle
    obtain rfl : parent = next := Option.some.inj (hparent.symm.trans hnext)
    exact ih (.tail' hback hparent)

/-! ## One walk -/

theorem mem_keys_of_lookup {name parent : String} (h : parents.lookup name = some parent) :
    name ∈ parents.map (·.1) := by
  induction parents with
  | nil => cases h
  | cons entry parents ih =>
    obtain ⟨key, value⟩ := entry
    rw [List.lookup_cons] at h
    cases hkey : name == key with
    | true =>
      rw [beq_iff_eq.mp hkey]
      exact List.mem_cons_self ..
    | false =>
      rw [hkey] at h
      exact List.mem_cons_of_mem _ (ih h)

theorem dropWhile_of_mem {path : List String} {name : String} (h : name ∈ path) :
    ∃ before inner, path = before ++ name :: inner ∧
      path.dropWhile (· ≠ name) = name :: inner := by
  induction path with
  | nil => cases h
  | cons first path ih =>
    by_cases hfirst : first = name
    · subst hfirst
      exact ⟨[], path, rfl, List.dropWhile_cons_of_neg (by simp)⟩
    · obtain ⟨before, inner, hpath, hdrop⟩ := ih ((List.mem_cons.mp h).resolve_left (Ne.symm hfirst))
      refine ⟨first :: before, inner, by rw [hpath]; rfl, ?_⟩
      rw [List.dropWhile_cons_of_pos (by simpa using hfirst), hdrop]

/-- A walk that comes back to a name on its way gives the cycle from there on. -/
theorem isCycle_of_return {path : List String} {name : String}
    (hlinked : (path ++ [name]).IsChain (Under parents)) (hnodup : path.Nodup) (hmem : name ∈ path) :
    IsCycle parents (path.dropWhile (· ≠ name) ++ [name]) := by
  obtain ⟨before, inner, rfl, hdrop⟩ := dropWhile_of_mem hmem
  rw [hdrop]
  rw [List.append_assoc] at hlinked
  refine ⟨hlinked.right_of_append, ?_, name, inner, rfl⟩
  rw [List.dropLast_concat]
  exact hnodup.of_append_right

section
variable {cleared : List String}

/-- The walk from a name, with `path` behind it, and what it comes to: it goes on from parent to
parent until it meets a cleared name, a name of its own path or a name without a parent. -/
inductive Walk (parents : List (String × String)) (cleared : List String) :
    List String → String → Except (List String) (List String) → Prop
  | cleared {path : List String} {name : String} : name ∈ cleared →
      Walk parents cleared path name (.ok path)
  | returned {path : List String} {name : String} : name ∉ cleared → name ∈ path →
      Walk parents cleared path name (.error (path.dropWhile (· ≠ name) ++ [name]))
  | ended {path : List String} {name : String} : name ∉ cleared → name ∉ path →
      parents.lookup name = none → Walk parents cleared path name (.ok (path ++ [name]))
  | on {path : List String} {name parent : String} {outcome : Except (List String) (List String)} :
      name ∉ cleared → name ∉ path → Under parents name parent →
      Walk parents cleared (path ++ [name]) parent outcome → Walk parents cleared path name outcome

theorem Walk.unique {path : List String} {name : String}
    {outcome outcome' : Except (List String) (List String)}
    (h : Walk parents cleared path name outcome) (h' : Walk parents cleared path name outcome') :
    outcome = outcome' := by
  induction h with
  | cleared hmem =>
    cases h' with
    | cleared _ => rfl
    | returned hnot _ | ended hnot _ _ | on hnot _ _ _ => exact absurd hmem hnot
  | returned hnot hmem =>
    cases h' with
    | cleared h => exact absurd h hnot
    | returned _ _ => rfl
    | ended _ hfresh _ | on _ hfresh _ _ => exact absurd hmem hfresh
  | ended hnot hfresh hnone =>
    cases h' with
    | cleared h => exact absurd h hnot
    | returned _ h => exact absurd h hfresh
    | ended _ _ _ => rfl
    | on _ _ hparent _ => cases hnone.symm.trans hparent
  | on hnot hfresh hparent _ ih =>
    cases h' with
    | cleared h => exact absurd h hnot
    | returned _ h => exact absurd h hfresh
    | ended _ _ hnone => cases hnone.symm.trans hparent
    | on _ _ hparent' h =>
      obtain rfl := Option.some.inj (hparent.symm.trans hparent')
      exact ih h

theorem nodup_concat {path : List String} {name : String} (hnodup : path.Nodup)
    (hfresh : name ∉ path) : (path ++ [name]).Nodup :=
  List.nodup_append'.mpr ⟨hnodup, List.nodup_singleton name, by simpa using hfresh⟩

theorem Walk.isCycle {path : List String} {name : String} {cycle : List String}
    (h : Walk parents cleared path name (.error cycle))
    (hlinked : (path ++ [name]).IsChain (Under parents)) (hnodup : path.Nodup) :
    IsCycle parents cycle := by
  generalize houtcome : Except.error cycle = outcome at h
  induction h with
  | cleared _ | ended _ _ _ => cases houtcome
  | returned _ hmem =>
    cases houtcome
    exact isCycle_of_return hlinked hnodup hmem
  | @on path name parent _ _ hfresh hparent _ ih =>
    refine ih (List.isChain_append.mpr ⟨hlinked, List.isChain_singleton parent, ?_⟩)
      (nodup_concat hnodup hfresh) houtcome
    intro last hlast next hnext
    rw [List.getLast?_concat] at hlast
    cases hlast
    cases hnext
    exact hparent

/-- The names that a walk without a cycle passes are rooted. -/
theorem Walk.rooted (hcleared : ∀ name ∈ cleared, Rooted parents name) {path : List String}
    {name : String} {path' : List String} (h : Walk parents cleared path name (.ok path')) :
    Rooted parents name ∧ ∃ rest, path' = path ++ rest ∧ ∀ n ∈ rest, Rooted parents n := by
  generalize houtcome : Except.ok path' = outcome at h
  induction h with
  | cleared hmem =>
    cases houtcome
    exact ⟨hcleared _ hmem, [], (List.append_nil _).symm, fun _ hn => absurd hn List.not_mem_nil⟩
  | returned _ _ => cases houtcome
  | ended _ _ hnone =>
    cases houtcome
    exact ⟨.root hnone, [_], rfl, fun n hn => List.mem_singleton.mp hn ▸ .root hnone⟩
  | on _ _ hparent _ ih =>
    obtain ⟨hrooted, rest, rfl, hrest⟩ := ih houtcome
    refine ⟨.under hparent hrooted, _ :: rest, List.append_assoc .., ?_⟩
    exact List.forall_mem_cons.mpr ⟨.under hparent hrooted, hrest⟩

/-- The steps allowed suffice, since the names on the way are different and have parents. -/
theorem walk_climb {steps : Nat} {path : List String} {name : String} (hnodup : path.Nodup)
    (hkeys : path ⊆ parents.map (·.1)) (hsteps : steps + path.length = parents.length + 1) :
    Walk parents cleared path name (climb parents cleared steps path name) := by
  induction steps generalizing path name with
  | zero =>
    have hlen := hnodup.length_le_of_subset hkeys
    rw [List.length_map] at hlen
    omega
  | succ steps ih =>
    unfold climb
    split
    · next hmem => exact .cleared (List.contains_iff_mem.mp hmem)
    · next hnot =>
      rw [List.contains_iff_mem] at hnot
      split
      · next hmem => exact .returned hnot (List.contains_iff_mem.mp hmem)
      · next hfresh =>
        rw [List.contains_iff_mem] at hfresh
        cases hparent : parents.lookup name with
        | none => exact .ended hnot hfresh hparent
        | some parent =>
          refine .on hnot hfresh hparent (ih (nodup_concat hnodup hfresh) ?_ ?_)
          · exact List.append_subset.mpr
              ⟨hkeys, List.cons_subset.mpr ⟨mem_keys_of_lookup hparent, List.nil_subset _⟩⟩
          · rw [List.length_append, List.length_singleton]
            omega

/-! ## The search -/

/-- The search from the given names on and what it comes to: it stops at the first walk that finds a
cycle, and clears the names that the others pass. -/
inductive Search (parents : List (String × String)) :
    List String → List String → Option (List String) → Prop
  | done {cleared : List String} : Search parents cleared [] none
  | found {cleared starts cycle : List String} {start : String} :
      Walk parents cleared [] start (.error cycle) →
      Search parents cleared (start :: starts) (some cycle)
  | next {cleared starts path : List String} {start : String} {result : Option (List String)} :
      Walk parents cleared [] start (.ok path) → Search parents (cleared ++ path) starts result →
      Search parents cleared (start :: starts) result

theorem Search.unique {starts : List String} {result result' : Option (List String)}
    (h : Search parents cleared starts result) (h' : Search parents cleared starts result') :
    result = result' := by
  induction h with
  | done =>
    cases h'
    rfl
  | found hwalk =>
    cases h' with
    | found hwalk' => rw [Except.error.inj (hwalk.unique hwalk')]
    | next hwalk' _ => cases hwalk.unique hwalk'
  | next hwalk _ ih =>
    cases h' with
    | found hwalk' => cases hwalk.unique hwalk'
    | next hwalk' h =>
      obtain rfl := Except.ok.inj (hwalk.unique hwalk')
      exact ih h

theorem search_findCycleFrom (starts : List String) :
    Search parents cleared starts (findCycleFrom parents cleared starts) := by
  induction starts generalizing cleared with
  | nil => exact .done
  | cons start starts ih =>
    have hwalk : Walk parents cleared [] start (climb parents cleared (parents.length + 1) [] start) :=
      walk_climb List.nodup_nil (List.nil_subset _) rfl
    unfold findCycleFrom
    cases hclimb : climb parents cleared (parents.length + 1) [] start with
    | error cycle =>
      rw [hclimb] at hwalk
      exact .found hwalk
    | ok path =>
      rw [hclimb] at hwalk
      exact .next hwalk ih

theorem Search.isCycle {starts cycle : List String}
    (h : Search parents cleared starts (some cycle)) : IsCycle parents cycle := by
  generalize hresult : some cycle = result at h
  induction h with
  | done => cases hresult
  | @found cleared starts _ start hwalk =>
    cases hresult
    exact hwalk.isCycle (List.isChain_singleton start) List.nodup_nil
  | next _ _ ih => exact ih hresult

theorem Search.rooted (hcleared : ∀ name ∈ cleared, Rooted parents name) {starts : List String}
    (h : Search parents cleared starts none) : ∀ start ∈ starts, Rooted parents start := by
  generalize hresult : none = result at h
  induction h with
  | done => exact fun _ hmem => absurd hmem List.not_mem_nil
  | found _ => cases hresult
  | next hwalk _ ih =>
    obtain ⟨hstart, rest, rfl, hrest⟩ := hwalk.rooted hcleared
    refine List.forall_mem_cons.mpr ⟨hstart, ih (fun name hname => ?_) hresult⟩
    rcases List.mem_append.mp hname with hname | hname
    · exact hcleared name hname
    · exact hrest name hname

end

theorem findCycle_some {cycle : List String} (h : findCycle parents = some cycle) :
    IsCycle parents cycle := by
  have hsearch : Search parents [] _ (findCycle parents) := search_findCycleFrom _
  rw [h] at hsearch
  exact hsearch.isCycle

theorem findCycle_none (h : findCycle parents = none) (name : String) : Rooted parents name := by
  have hsearch : Search parents [] _ (findCycle parents) := search_findCycleFrom _
  rw [h] at hsearch
  cases hparent : parents.lookup name with
  | none => exact .root hparent
  | some parent =>
    exact hsearch.rooted (fun _ hmem => absurd hmem List.not_mem_nil) name
      (mem_keys_of_lookup hparent)

/-- On every map of parents the search comes to its end, with the result that is computed and no
other. It finds a cycle exactly if following parents from some name comes back to that name. What it
finds starts and ends with the same name and has no other name twice, and each entry has the next
one for its parent. -/
theorem findCycle_exact (parents : List (String × String)) :
    (∀ result, Search parents [] (parents.map (·.1)) result ↔ result = findCycle parents) ∧
    ((∃ cycle, findCycle parents = some cycle) ↔
      ∃ name, Relation.TransGen (Under parents) name name) ∧
    ∀ cycle, findCycle parents = some cycle → IsCycle parents cycle := by
  have hsearch : Search parents [] (parents.map (·.1)) (findCycle parents) := search_findCycleFrom _
  refine ⟨fun result => ⟨fun h => h.unique hsearch, fun h => h ▸ hsearch⟩, ⟨?_, ?_⟩,
    fun cycle => findCycle_some⟩
  · rintro ⟨cycle, hcycle⟩
    obtain ⟨name, -, hreturns⟩ := (findCycle_some hcycle).returns
    exact ⟨name, hreturns⟩
  · rintro ⟨name, hreturns⟩
    cases hcycle : findCycle parents with
    | some cycle => exact ⟨cycle, rfl⟩
    | none => exact absurd hreturns (findCycle_none hcycle name).not_returns

/-- A chain that ends, a name above it, and a name that leads into a cycle. -/
def tangledParents : List (String × String) :=
  [("a", "b"), ("b", "root"), ("c", "a"), ("d", "e"), ("e", "f"), ("f", "e")]

theorem findCycle_exact_sample : findCycle tangledParents = some ["e", "f", "e"] ∧
    IsCycle tangledParents ["e", "f", "e"] ∧
    ∃ name, Relation.TransGen (Under tangledParents) name name := by
  have hfound : findCycle tangledParents = some ["e", "f", "e"] := by decide
  obtain ⟨-, hiff, hcycle⟩ := findCycle_exact tangledParents
  exact ⟨hfound, hcycle _ hfound, hiff.mp ⟨_, hfound⟩⟩

end HandlerGrammar
