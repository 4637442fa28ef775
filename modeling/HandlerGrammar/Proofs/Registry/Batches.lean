import HandlerGrammar.Proofs.Registry.History
import HandlerGrammar.Proofs.Transform.Folding

/-! # The order of registering

A registry keeps handlers in the order of their names, so it does not tell in which order they came,
nor in which batches. Whether all of them can be registered depends on their names alone.

* `Admissible`, `registerAll_ok_iff`: handlers that can be registered, in whatever batches;
* `Collected.eq_of_perm`, `registerAll_eq`: what is held once they are;
* `generate_of_accepted`: the same for histories in which some calls fail;
* `generate_of_registered`: sorting, generating and running after batches in another order. -/
namespace HandlerGrammar
open HandlerTree
set_option autoImplicit false

variable {C : Type}

namespace Registry

/-! ## What can be registered -/

/-- Handlers with valid names that are all different. -/
structure Admissible (hs : List (Handler C)) : Prop where
  valid : ∀ h ∈ hs, Handler.isValidName h.name = true
  distinct : (hs.map (·.name)).Nodup

theorem Admissible.of_perm {hs hs' : List (Handler C)} (hperm : hs'.Perm hs) (h : Admissible hs) :
    Admissible hs' where
  valid g hg := h.valid g (hperm.mem_iff.mp hg)
  distinct := (hperm.map (·.name)).nodup_iff.mpr h.distinct

theorem Collected.admissible {hs : List (Handler C)} (h : Collected hs) : Admissible hs :=
  ⟨h.valid, h.nodup⟩

/-- To what is held, batches can be added exactly if all of it together is admissible. -/
theorem Collected.registerAll_ok_iff {hs : List (Handler C)} (h : Collected hs)
    (batches : List (List (Handler C))) :
    (∃ r, registerAll batches (holding hs) = .ok () r) ↔ Admissible (batches.flatten ++ hs) := by
  induction batches generalizing hs with
  | nil => exact iff_of_true ⟨holding hs, rfl⟩ h.admissible
  | cons batch batches ih =>
    have hrun : registerAll (batch :: batches) (holding hs) =
        EStateM.bind (register batch) (fun _ => registerAll batches) (holding hs) := rfl
    have hmoved : (batches.flatten ++ (batch ++ hs)).Perm ((batch :: batches).flatten ++ hs) := by
      rw [List.flatten_cons, List.append_assoc]
      exact List.perm_append_comm_assoc _ _ _
    rw [hrun, EStateM.bind, register_holding]
    cases hcheck : checkNames (hs.map (·.name)) batch with
    | error e =>
      -- a batch that is refused clashes with what is held, so the whole is not admissible
      refine iff_of_false (fun hok => ?_) fun hadmissible => ?_
      · obtain ⟨r, hr⟩ := hok
        cases hr
      · have hall := hadmissible.of_perm hmoved
        have hdistinct := hall.distinct
        rw [List.map_append, List.map_append] at hdistinct
        have hpass := (checkNames_ok_iff h.nodup).mpr
          ⟨fun g hg => hall.valid g (by simp [hg]), (List.nodup_append.mp hdistinct).2.1⟩
        rw [hcheck] at hpass
        cases hpass
    | ok u =>
      obtain ⟨hs', hcollected', hperm, heq⟩ := h.insertAll hcheck
      have hboth := (hperm.append_left batches.flatten).trans hmoved
      dsimp only
      rw [heq]
      exact (ih hcollected').trans ⟨Admissible.of_perm hboth.symm, Admissible.of_perm hboth⟩

/-- Whether batches can all be registered depends on nothing but the handlers in them. -/
theorem registerAll_ok_iff (batches : List (List (Handler C))) :
    (∃ r, registerAll batches .empty = .ok () r) ↔ Admissible batches.flatten := by
  have h := Collected.nil.registerAll_ok_iff batches
  rwa [List.append_nil] at h

/-! ## What is held -/

theorem Collected.eq_of_perm {hs hs' : List (Handler C)} (h : Collected hs) (h' : Collected hs')
    (hperm : hs'.Perm hs) : hs' = hs := by
  have hordered := List.pairwise_map.mp h.ordered
  have hordered' := List.pairwise_map.mp h'.ordered
  apply List.Perm.eq_of_pairwise _ hordered' hordered hperm
  intro g g' _ _ hlt hgt
  exact absurd (String.lt_trans hlt hgt) (String.lt_irrefl g.name)

theorem registerAll_eq {batches batches' : List (List (Handler C))}
    (hperm : batches'.flatten.Perm batches.flatten) {r r' : Registry C}
    (hr : registerAll batches .empty = .ok () r) (hr' : registerAll batches' .empty = .ok () r') :
    ∃ hs, Collected hs ∧ hs.Perm batches.flatten ∧ r = holding hs ∧ r' = holding hs := by
  obtain ⟨hs, hcollected, hheld, rfl⟩ := registerAll_ok .nil hr
  obtain ⟨hs', hcollected', hheld', rfl⟩ := registerAll_ok .nil hr'
  rw [List.append_nil] at hheld hheld'
  have heq := hcollected.eq_of_perm hcollected' (hheld'.trans (hperm.trans hheld.symm))
  exact ⟨hs, hcollected, hheld, rfl, by rw [heq]⟩

/-- Also among calls that fail, the order of what is registered makes no difference to the grammar. -/
theorem generate_of_accepted {calls calls' : List (Call C)}
    (hopen : (runCalls calls .empty).2.isSorted = false)
    (hopen' : (runCalls calls' .empty).2.isSorted = false)
    (hperm : ((accepted calls' .empty).flatMap Call.batch).Perm
      ((accepted calls .empty).flatMap Call.batch)) :
    (runCalls calls' .empty).2.generate = (runCalls calls .empty).2.generate := by
  obtain ⟨hs, hcollected, hholds, hheld⟩ := runCalls_holding .nil hopen
  obtain ⟨hs', hcollected', hholds', hheld'⟩ := runCalls_holding .nil hopen'
  rw [List.append_nil] at hheld hheld'
  have heq := hcollected.collapse.eq_of_perm hcollected'.collapse
    (hheld'.trans ((hperm.map _).trans hheld.symm))
  have hcollapsed : ∀ hs : List (Handler C), (holding hs).collapsed =
      holding (hs.map Handler.collapseChain) :=
    fun hs => congrArg (Registry.mk · false) (collapse_leaves hs)
  have h : (runCalls calls .empty).2 = holding hs := hholds
  have h' : (runCalls calls' .empty).2 = holding hs' := hholds'
  rw [h, h', ← generate_collapsed, hcollapsed, heq, ← hcollapsed, generate_collapsed]

/-! ## Other orders, other batches -/

/-- The same handlers in another order and in other batches can be registered as well, and what is
held is the same: the handlers in the order of their names. So sorting gives the same forest or the same error,
generating the same grammar and handlers, and on whatever stream the parse is the same and the same
handlers run in the same order. -/
theorem generate_of_registered {batches batches' : List (List (Handler C))}
    (hperm : batches'.flatten.Perm batches.flatten) {r : Registry C}
    (hr : registerAll batches .empty = .ok () r) :
    (∃ r', registerAll batches' .empty = .ok () r') ∧
    ∀ r', registerAll batches' .empty = .ok () r' →
      (∃ hs, hs.Perm batches.flatten ∧ (hs.map (·.name)).Pairwise (· < ·) ∧ r = holding hs ∧
        r' = holding hs) ∧
      sort r' = sort r ∧ r'.generate = r.generate ∧
      ∀ gen gen', r.generate = .ok gen → r'.generate = .ok gen' →
        gen'.grammar = gen.grammar ∧ gen'.table = gen.table ∧
        (∀ tree, gen'.table.visits tree = gen.table.visits tree) ∧
        ∀ (s : TokenStream) (c : C), gen'.run (s, c) = gen.run (s, c) := by
  refine ⟨?_, fun r' hr' => ?_⟩
  · have hadmissible := (registerAll_ok_iff batches).mp ⟨r, hr⟩
    exact (registerAll_ok_iff batches').mpr (hadmissible.of_perm hperm)
  · obtain ⟨hs, hcollected, hheld, hholds, hholds'⟩ := registerAll_eq hperm hr hr'
    have heq : r' = r := hholds'.trans hholds.symm
    subst heq
    refine ⟨⟨hs, hheld, hcollected.ordered, hholds, hholds⟩, rfl, rfl, fun gen gen' hgen hgen' => ?_⟩
    obtain rfl : gen' = gen := Except.ok.inj (hgen'.symm.trans hgen)
    exact ⟨rfl, rfl, fun _ => rfl, fun _ _ => rfl⟩

/-- The handlers of `sampleBatch` from the root on, in three batches. -/
def sampleBatches : List (List (Handler Unit)) :=
  [[⟨"doc", .object, [], fun _ => pure ()⟩], [⟨"meta", .wrapper, ["doc"], fun _ => pure ()⟩,
    ⟨"name", .primary, ["doc", "meta"], fun _ => pure ()⟩],
    [⟨"size", .primary, ["doc"], fun _ => pure ()⟩]]

theorem generate_of_registered_sample :
    sampleBatches.flatten.Perm [sampleBatch].flatten ∧
    registerAll [sampleBatch] .empty = .ok () sampleRegistry ∧
    ∃ r', registerAll sampleBatches .empty = .ok () r' ∧ r'.generate = sampleRegistry.generate := by
  have hperm : sampleBatches.flatten.Perm [sampleBatch].flatten := List.reverse_perm sampleBatch
  have hregistered : registerAll [sampleBatch] .empty = .ok () sampleRegistry := rfl
  obtain ⟨⟨r', hr'⟩, hsame⟩ := generate_of_registered hperm hregistered
  exact ⟨hperm, hregistered, r', hr', (hsame r' hr').2.2.1⟩

end Registry
end HandlerGrammar
