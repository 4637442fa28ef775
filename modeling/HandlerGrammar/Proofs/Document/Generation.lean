import HandlerGrammar.Proofs.Document.Acceptance
import HandlerGrammar.Proofs.Document.Transcript
import HandlerGrammar.Proofs.Parsing.Session
import HandlerGrammar.Proofs.Transform.Runs

/-! # Generating never fails

A registry with handlers in it that sorts generates a grammar. Drafting declares each of its rules
once and gives it one body, the numbers that it uses all belong to rules, and no rule leads back to
itself, so every parse comes to its end.

* `grammar_transcript`: the arena calls from which a grammar is made;
* `generate_total`: all that is certain of a generated grammar. -/
namespace HandlerGrammar
open HandlerTree ArenaCall
set_option autoImplicit false

variable {C : Type}

theorem grammar_of_generate {r : Registry C} {roots : List (HandlerTree C)}
    (hroots : r.roots = .ok roots) {gg : GeneratedGrammar C} (h : r.generate = .ok gg) :
    HandlerTree.grammar roots = .ok gg.grammar := by
  rw [Registry.generate, hroots] at h
  change (HandlerTree.grammar roots >>= _) = _ at h
  cases hg : HandlerTree.grammar roots with
  | error e =>
    rw [hg] at h
    cases h
  | ok g =>
    rw [hg] at h
    cases h
    rfl

/-- A grammar of documents is the arena that drafting filled, and there each declared rule got its
body once. -/
theorem grammar_transcript {roots : List (HandlerTree C)} {g : Grammar}
    (h : HandlerTree.grammar roots = .ok g) : ∃ calls entry d,
      Transcript (HandlerTree.entry roots) .empty calls entry d ∧ d.arena.build entry = .ok g ∧
      ∀ id ∈ declared 0 calls, definitions id calls = 1 := by
  unfold HandlerTree.grammar at h
  cases hrun : HandlerTree.entry roots .empty with
  | error e d =>
    rw [hrun] at h
    cases h
  | ok entry d =>
    rw [hrun] at h
    obtain ⟨calls, hcalls⟩ := transcribed_entry roots _ _ _ hrun
    exact ⟨calls, entry, d, hcalls, h, definitions_of_build hcalls.performs h⟩

/-- From a registry with handlers that sorts, a grammar is generated. Each rule that drafting
declares gets its body by one call, all numbers belong to rules, the handlers are the registered
ones, each with its own action, and since no rule leads back to itself no parse goes on for ever. -/
theorem generate_total {r : Registry C} (hr : r.Reached) {roots : List (HandlerTree C)}
    (hroots : r.roots = .ok roots) (hne : r.trees ≠ []) : ∃ gg, r.generate = .ok gg ∧
      (∃ calls entry d, Transcript (HandlerTree.entry roots) .empty calls entry d ∧
        d.arena.build entry = .ok gg.grammar ∧ ∀ id ∈ declared 0 calls, definitions id calls = 1) ∧
      (gg.grammar.entry < gg.grammar.rules.length ∧ ∀ named ∈ gg.grammar.rules,
        ∀ step ∈ named.rule.steps, ∀ id ∈ step.references, id < gg.grammar.rules.length) ∧
      (∀ name action, gg.table.action? name = some action ↔
        ∃ h ∈ handlersOf r.trees, h.name = name ∧ h.action = action) ∧
      gg.grammar.Acyclic ∧
      ∀ v bytes before e s',
        gg.grammar.parse (attend before (.ofBytes v bytes)).2 = .error e s' → e ≠ .diverged := by
  obtain ⟨gg, plan, hgg, hlaid, -, htable⟩ :=
    generate_laidOut hroots (hr.roots_ne_nil hroots hne)
  obtain ⟨calls, entry, d, hcalls, hbuild, honce⟩ :=
    grammar_transcript (grammar_of_generate hroots hgg)
  refine ⟨gg, hgg, ⟨calls, entry, d, hcalls, hbuild, honce⟩, Arena.lt_of_build hbuild, ?_,
    hlaid.acyclic, fun v bytes before e s' h => ?_⟩
  · intro name action
    have hnodup : (((handlersOf roots).map fun h => (h.name, h.action)).map Prod.fst).Nodup := by
      rw [((hr.actions_perm hroots).map Prod.fst).nodup_iff, List.map_map]
      exact hr.nodup_names
    rw [htable, HandlerTable.action?_ofList hnodup, (hr.actions_perm hroots).mem_iff, List.mem_map]
    simp
  · exact hlaid.acyclic.parse_ends (classified_attend v bytes before) h

open Registry in
theorem generate_total_sample : sampleRegistry.Reached ∧ sampleRegistry.roots = .ok sampleRoots ∧
    sampleRegistry.trees ≠ [] ∧ ∃ gg, sampleRegistry.generate = .ok gg ∧ gg.grammar.Acyclic := by
  have hne : sampleRegistry.trees ≠ [] := by decide +kernel
  obtain ⟨gg, hgg, -, -, -, hacyclic, -⟩ :=
    generate_total sampleRegistry_reached sampleRegistry_roots hne
  exact ⟨sampleRegistry_reached, sampleRegistry_roots, hne, gg, hgg, hacyclic⟩

end HandlerGrammar
