import HandlerGrammar.Proofs.Matching.Recording
import Mathlib.Data.List.Induction
import Mathlib.Data.List.Nodup

/-! # The frontier of a list of tests

The frontier forgets the tests that are passed and those that fail behind another failed test. What
is left are the expectations at the furthest position at which a test failed, each of them once.

* `tally`: the frontier behind a list of tests;
* `position_le_tally`, `exists_failed_at`: it stands at the furthest failed test;
* `expectedAt`, `expected_tally`: it holds what was expected there;
* `passed_of_expected_nil`: it holds nothing only if no test failed. -/
namespace HandlerGrammar
set_option autoImplicit false

/-- The frontier behind tests made in this order. -/
def tally (tests : List Test) : Frontier :=
  tests.foldl (fun f t => if t.passed then f else f.expect t.position t.expectation) .start

/-- What the tests that failed at a position expected there, each once, first one first. -/
def expectedAt (tests : List Test) (k : Nat) : List String :=
  ((tests.filter fun t => !t.passed && t.position == k).map (·.expectation)).eraseDups

theorem tally_passed {t : Test} (h : t.passed = true) (tests : List Test) :
    tally (tests ++ [t]) = tally tests := by
  rw [tally, List.foldl_concat, if_pos h, tally]

theorem tally_failed {t : Test} (h : t.passed = false) (tests : List Test) :
    tally (tests ++ [t]) = (tally tests).expect t.position t.expectation := by
  rw [tally, List.foldl_concat, if_neg (by simp [h]), tally]

theorem position_le_tally {tests : List Test} : ∀ t ∈ tests, t.passed = false →
    t.position ≤ (tally tests).position := by
  induction tests using List.reverseRecOn with
  | nil => exact fun t ht => absurd ht List.not_mem_nil
  | append_singleton tests last ih =>
    intro t ht hfailed
    have hle : (tally tests).position ≤ (tally (tests ++ [last])).position := by
      cases hlast : last.passed with
      | true => exact Nat.le_of_eq (by rw [tally_passed hlast])
      | false =>
        rw [tally_failed hlast, Frontier.position_expect]
        exact Nat.le_max_left _ _
    rcases List.mem_append.mp ht with ht | ht
    · exact Nat.le_trans (ih t ht hfailed) hle
    · obtain rfl := List.mem_singleton.mp ht
      rw [tally_failed hfailed, Frontier.position_expect]
      exact Nat.le_max_right _ _

theorem expectedAt_other {t : Test} {k : Nat} (h : t.passed = true ∨ t.position ≠ k)
    (tests : List Test) : expectedAt (tests ++ [t]) k = expectedAt tests k := by
  have hout : (!t.passed && t.position == k) = false := by
    rcases h with h | h
    · rw [h]
      rfl
    · rw [beq_eq_false_iff_ne.mpr h, Bool.and_false]
  rw [expectedAt, List.filter_append, List.filter_cons_of_neg (by simp [hout]), List.filter_nil,
    List.append_nil, expectedAt]

theorem eraseDups_concat (ws : List String) (w : String) : (ws ++ [w]).eraseDups =
    if ws.eraseDups.contains w then ws.eraseDups else ws.eraseDups ++ [w] := by
  rw [List.eraseDups_append]
  by_cases h : w ∈ ws
  · simp [h, List.removeAll, List.mem_eraseDups]
  · simp [h, List.removeAll, List.mem_eraseDups, List.eraseDups_cons]

theorem expectedAt_failed {t : Test} (h : t.passed = false) (tests : List Test) :
    expectedAt (tests ++ [t]) t.position =
      if (expectedAt tests t.position).contains t.expectation then expectedAt tests t.position
      else expectedAt tests t.position ++ [t.expectation] := by
  have hin : [t].filter (fun u => !u.passed && u.position == t.position) = [t] :=
    List.filter_cons_of_pos (by simp [h])
  unfold expectedAt
  rw [List.filter_append, hin, List.map_append]
  exact eraseDups_concat _ _

theorem expectedAt_beyond {tests : List Test} {k : Nat} (h : (tally tests).position < k) :
    expectedAt tests k = [] := by
  have hnone : tests.filter (fun t => !t.passed && t.position == k) = [] := by
    refine List.filter_eq_nil_iff.mpr fun t ht hin => ?_
    simp only [Bool.and_eq_true, Bool.not_eq_true', beq_iff_eq] at hin
    have hle := position_le_tally t ht hin.1
    omega
  rw [expectedAt, hnone]
  rfl

/-- The frontier holds what was expected at its position. -/
theorem expected_tally (tests : List Test) :
    (tally tests).expected = expectedAt tests (tally tests).position := by
  induction tests using List.reverseRecOn with
  | nil => rfl
  | append_singleton tests t ih =>
    cases h : t.passed with
    | true => rw [tally_passed h, ih, expectedAt_other (Or.inl h)]
    | false =>
      rw [tally_failed h, Frontier.position_expect]
      unfold Frontier.expect
      split
      · next hlt =>
        rw [ih, Nat.max_eq_left (Nat.le_of_lt hlt), expectedAt_other (Or.inr (Nat.ne_of_lt hlt))]
      · next hle =>
        have hmax : max (tally tests).position t.position = t.position := by omega
        rw [hmax, expectedAt_failed h]
        split
        · next hlt => rw [expectedAt_beyond hlt]; rfl
        · next hge =>
          have heq : (tally tests).position = t.position := by omega
          rw [ih, heq]
          split
          · rw [ih, heq]
          · rfl

/-- No expectation is recorded twice. -/
theorem nodup_tally (tests : List Test) : (tally tests).expected.Nodup := by
  induction tests using List.reverseRecOn with
  | nil => exact List.nodup_nil
  | append_singleton tests t ih =>
    cases h : t.passed with
    | true => rwa [tally_passed h]
    | false =>
      rw [tally_failed h]
      unfold Frontier.expect
      split
      · exact ih
      · split
        · exact List.nodup_singleton _
        · split
          · exact ih
          · next hnew =>
            refine List.nodup_append.mpr ⟨ih, List.nodup_singleton _, fun w hw u hu heq => hnew ?_⟩
            obtain rfl := List.mem_singleton.mp hu
            exact List.contains_iff_mem.mpr (heq ▸ hw)

/-- Nothing is expected only if no test failed. -/
theorem passed_of_expected_nil {tests : List Test} (h : (tally tests).expected = []) :
    tally tests = .start ∧ ∀ t ∈ tests, t.passed = true := by
  induction tests using List.reverseRecOn with
  | nil => exact ⟨rfl, fun t ht => absurd ht List.not_mem_nil⟩
  | append_singleton tests last ih =>
    cases hlast : last.passed with
    | true =>
      rw [tally_passed hlast] at h ⊢
      obtain ⟨hstart, hpassed⟩ := ih h
      refine ⟨hstart, fun t ht => ?_⟩
      rcases List.mem_append.mp ht with ht | ht
      · exact hpassed t ht
      · rwa [List.mem_singleton.mp ht]
    | false =>
      exfalso
      rw [tally_failed hlast] at h
      unfold Frontier.expect at h
      split at h
      · next hlt =>
        rw [(ih h).1] at hlt
        exact absurd hlt (Nat.not_lt_zero _)
      · split at h
        · cases h
        · split at h
          · next hcontains =>
            rw [h] at hcontains
            cases hcontains
          · simp at h

/-- What is expected at the frontier was expected by a test that failed there. -/
theorem exists_failed_at {tests : List Test} {k : Nat} (h : expectedAt tests k ≠ []) :
    ∃ t ∈ tests, t.passed = false ∧ t.position = k := by
  obtain ⟨w, hw⟩ := List.exists_mem_of_ne_nil _ h
  obtain ⟨t, ht, -⟩ := List.mem_map.mp (List.mem_eraseDups.mp hw)
  obtain ⟨ht, hin⟩ := List.mem_filter.mp ht
  simp only [Bool.and_eq_true, Bool.not_eq_true', beq_iff_eq] at hin
  exact ⟨t, ht, hin⟩

end HandlerGrammar
