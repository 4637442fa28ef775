import Mathlib.Computability.Language

/-! # Longest words at the start of a text

A class of lexemes is a language, put together from characters by sums, products and stars. How long
the longest word is that a text begins with is found out along the way in which the language is put
together.

* `Pattern.oneOf`, `literal`, `manyOf`, `someOf`, `opt`: the parts of a pattern;
* `Longest`: the longest word of a language that a text begins with, if there is one;
* `Avoids`, `StartsIn`: what the words of a language begin with;
* `Longest.add`, `Longest.oneOf_mul`, `Longest.manyOf_mul` and so on: one rule for each way to put
  languages together. -/
namespace HandlerGrammar
open Computability
set_option autoImplicit false

/-! ## Patterns -/

namespace Pattern

/-- One character of a kind. -/
def oneOf (p : Char → Bool) : Language Char := {w | ∃ c, p c = true ∧ w = [c]}

/-- A text as it stands. -/
def literal (t : List Char) : Language Char := {t}

/-- Any number of characters of a kind. -/
def manyOf (p : Char → Bool) : Language Char := (oneOf p)∗

/-- One or more characters of a kind. -/
def someOf (p : Char → Bool) : Language Char := oneOf p * manyOf p

/-- One of several texts. -/
def anyOf (ts : List (List Char)) : Language Char := {w | w ∈ ts}

def opt (L : Language Char) : Language Char := 1 + L

variable {p : Char → Bool} {L : Language Char} {w : List Char}

theorem mem_literal {t : List Char} : w ∈ literal t ↔ w = t := Iff.rfl

theorem mem_oneOf_mul : w ∈ oneOf p * L ↔ ∃ c v, w = c :: v ∧ p c = true ∧ v ∈ L := by
  rw [Language.mem_mul]
  constructor
  · rintro ⟨_, ⟨c, hc, rfl⟩, v, hv, rfl⟩
    exact ⟨c, v, rfl, hc, hv⟩
  · rintro ⟨c, v, rfl, hc, hv⟩
    exact ⟨[c], ⟨c, hc, rfl⟩, v, hv, rfl⟩

theorem mem_literal_mul {t : List Char} : w ∈ literal t * L ↔ ∃ v ∈ L, w = t ++ v := by
  rw [Language.mem_mul]
  constructor
  · rintro ⟨_, rfl, v, hv, rfl⟩
    exact ⟨v, hv, rfl⟩
  · rintro ⟨v, hv, rfl⟩
    exact ⟨t, rfl, v, hv, rfl⟩

/-- A star in front of a language is left or gone round once more. -/
theorem kstar_mul (K L : Language Char) : K∗ * L = L + K * (K∗ * L) := by
  calc K∗ * L = (1 + K * K∗) * L := by rw [Language.one_add_self_mul_kstar_eq_kstar]
    _ = L + K * (K∗ * L) := by rw [add_mul, one_mul, mul_assoc]

theorem manyOf_mul (p : Char → Bool) (L : Language Char) :
    manyOf p * L = L + oneOf p * (manyOf p * L) := kstar_mul (oneOf p) L

theorem someOf_mul (p : Char → Bool) (L : Language Char) :
    someOf p * L = oneOf p * (manyOf p * L) := mul_assoc _ _ _

theorem opt_mul (K L : Language Char) : opt K * L = L + K * L := by
  rw [opt, add_mul, one_mul]

end Pattern

open Pattern

/-! ## Beginnings -/

/-- No word of the language begins with a character of the kind. -/
def Avoids (p : Char → Bool) (L : Language Char) : Prop :=
  ∀ w ∈ L, ∀ c ∈ w.head?, p c = false

/-- All words of the language begin with a character of the kind. -/
def StartsIn (p : Char → Bool) (L : Language Char) : Prop :=
  ∀ w ∈ L, ∃ c ∈ w.head?, p c = true

section
variable {p q : Char → Bool} {K L M : Language Char}

theorem avoids_one : Avoids p 1 := by
  intro w hw c hc
  rw [(Language.mem_one w).mp hw] at hc
  cases hc

theorem Avoids.add (hK : Avoids p K) (hL : Avoids p L) : Avoids p (K + L) := by
  intro w hw
  exact ((Language.mem_add K L w).mp hw).elim (hK w) (hL w)

theorem StartsIn.avoids (h : StartsIn q L) (hpq : ∀ c, q c = true → p c = false) : Avoids p L := by
  intro w hw c hc
  obtain ⟨d, hd, hq⟩ := h w hw
  obtain rfl := Option.mem_unique hc hd
  exact hpq c hq

theorem startsIn_oneOf : StartsIn p (oneOf p) := by
  rintro w ⟨c, hc, rfl⟩
  exact ⟨c, rfl, hc⟩

theorem startsIn_literal {c : Char} {t : List Char} (hc : p c = true) :
    StartsIn p (literal (c :: t)) := by
  rintro w rfl
  exact ⟨c, rfl, hc⟩

theorem startsIn_anyOf {ts : List (List Char)} (h : ∀ t ∈ ts, t.head?.any p = true) :
    StartsIn p (anyOf ts) :=
  fun w hw => (Option.any_eq_true p w.head?).mp (h w hw)

theorem startsIn_oneOf_mul : StartsIn p (oneOf p * L) := by
  intro w hw
  obtain ⟨c, v, rfl, hc, -⟩ := mem_oneOf_mul.mp hw
  exact ⟨c, rfl, hc⟩

theorem startsIn_someOf_mul : StartsIn p (someOf p * L) := by
  rw [someOf_mul]
  exact startsIn_oneOf_mul

theorem startsIn_literal_mul {c : Char} {t : List Char} : StartsIn (· == c) (literal (c :: t) * L) := by
  intro w hw
  obtain ⟨v, -, rfl⟩ := mem_literal_mul.mp hw
  exact ⟨c, rfl, beq_self_eq_true c⟩

theorem StartsIn.mono (h : StartsIn p L) (hpq : ∀ c, p c = true → q c = true) : StartsIn q L := by
  intro w hw
  obtain ⟨c, hc, hp⟩ := h w hw
  exact ⟨c, hc, hpq c hp⟩

theorem StartsIn.add (hL : StartsIn p L) (hM : StartsIn p M) : StartsIn p (L + M) := by
  intro w hw
  exact ((Language.mem_add L M w).mp hw).elim (hL w) (hM w)

theorem StartsIn.opt_mul (hK : StartsIn p K) (hL : StartsIn p L) : StartsIn p (opt K * L) := by
  rw [Pattern.opt_mul]
  refine hL.add fun w hw => ?_
  obtain ⟨u, hu, v, -, rfl⟩ := Language.mem_mul.mp hw
  obtain ⟨c, hc, hp⟩ := hK u hu
  exact ⟨c, List.mem_head?_append_of_mem_head? hc, hp⟩

end

/-! ## Longest words -/

/-- The length of the longest word of the language that the text begins with, if there is one. -/
def Longest (L : Language Char) (cs : List Char) : Option Nat → Prop
  | none => ∀ w ∈ L, ¬ w <+: cs
  | some n => (∃ w ∈ L, w <+: cs ∧ w.length = n) ∧ ∀ w ∈ L, w <+: cs → w.length ≤ n

section
variable {p q : Char → Bool} {L M : Language Char} {cs : List Char} {c : Char} {r r' : Option Nat}

theorem Longest.unique (h : Longest L cs r) (h' : Longest L cs r') : r = r' := by
  cases r with
  | none =>
    cases r' with
    | none => rfl
    | some n =>
      obtain ⟨w, hw, hpre, -⟩ := h'.1
      exact absurd hpre (h w hw)
  | some n =>
    obtain ⟨w, hw, hpre, hn⟩ := h.1
    cases r' with
    | none => exact absurd hpre (h' w hw)
    | some m =>
      obtain ⟨v, hv, hpre', hm⟩ := h'.1
      have hle := h'.2 w hw hpre
      have hge := h.2 v hv hpre'
      exact congrArg some (by omega)

theorem longest_one : Longest 1 cs (some 0) := by
  refine ⟨⟨[], Language.nil_mem_one, List.nil_prefix, rfl⟩, fun w hw _ => ?_⟩
  rw [(Language.mem_one w).mp hw, List.length_nil]

theorem longest_literal {t : List Char} : Longest (literal t) (t ++ cs) (some t.length) := by
  refine ⟨⟨t, rfl, List.prefix_append t cs, rfl⟩, fun w hw _ => ?_⟩
  rw [mem_literal.mp hw]

theorem longest_literal_of_not {t : List Char} (h : ¬ t <+: cs) : Longest (literal t) cs none := by
  intro w hw
  rwa [mem_literal.mp hw]

theorem StartsIn.longest (h : StartsIn p L) (hcs : ∀ c ∈ cs.head?, p c = false) :
    Longest L cs none := by
  intro w hw hpre
  obtain ⟨c, hc, hp⟩ := h w hw
  obtain ⟨v, rfl⟩ := hpre
  rw [hcs c (List.mem_head?_append_of_mem_head? hc)] at hp
  cases hp

/-- A further language with no longer words makes no difference. -/
theorem Longest.add (h : Longest L cs r) (hM : ∀ w ∈ M, w <+: cs → ∃ n ∈ r, w.length ≤ n) :
    Longest (L + M) cs r := by
  cases r with
  | none =>
    intro w hw hpre
    rcases (Language.mem_add L M w).mp hw with hw | hw
    · exact h w hw hpre
    · obtain ⟨n, hn, -⟩ := hM w hw hpre
      cases hn
  | some n =>
    obtain ⟨⟨v, hv, hpre, hn⟩, hle⟩ := h
    refine ⟨⟨v, (Language.mem_add L M v).mpr (Or.inl hv), hpre, hn⟩, fun w hw hpre => ?_⟩
    rcases (Language.mem_add L M w).mp hw with hw | hw
    · exact hle w hw hpre
    · obtain ⟨m, hm, hle⟩ := hM w hw hpre
      obtain rfl := Option.some.inj hm
      exact hle

theorem Longest.add_none (h : Longest L cs r) (hM : Longest M cs none) : Longest (L + M) cs r :=
  h.add fun w hw hpre => absurd hpre (hM w hw)

theorem Longest.none_add (hL : Longest L cs none) (h : Longest M cs r) : Longest (L + M) cs r :=
  add_comm M L ▸ h.add_none hL

theorem Longest.oneOf_mul (hc : p c = true) (h : Longest L cs r) :
    Longest (oneOf p * L) (c :: cs) (r.map (· + 1)) := by
  cases r with
  | none =>
    intro w hw hpre
    obtain ⟨d, v, rfl, -, hv⟩ := mem_oneOf_mul.mp hw
    exact h v hv (List.cons_prefix_cons.mp hpre).2
  | some n =>
    obtain ⟨⟨v, hv, hpre, hn⟩, hle⟩ := h
    refine ⟨⟨c :: v, mem_oneOf_mul.mpr ⟨c, v, rfl, hc, hv⟩,
      List.cons_prefix_cons.mpr ⟨rfl, hpre⟩, congrArg (· + 1) hn⟩, fun w hw hpre => ?_⟩
    obtain ⟨d, v, rfl, -, hv⟩ := mem_oneOf_mul.mp hw
    exact Nat.succ_le_succ (hle v hv (List.cons_prefix_cons.mp hpre).2)

theorem longest_oneOf_mul_of_not (hcs : ∀ c ∈ cs.head?, p c = false) :
    Longest (oneOf p * L) cs none := startsIn_oneOf_mul.longest hcs

theorem Longest.literal_mul {t : List Char} (h : Longest L cs r) :
    Longest (literal t * L) (t ++ cs) (r.map (· + t.length)) := by
  cases r with
  | none =>
    intro w hw hpre
    obtain ⟨v, hv, rfl⟩ := mem_literal_mul.mp hw
    exact h v hv ((List.prefix_append_right_inj t).mp hpre)
  | some n =>
    obtain ⟨⟨v, hv, hpre, hn⟩, hle⟩ := h
    have hlength : (t ++ v).length = n + t.length := by rw [List.length_append, hn, Nat.add_comm]
    refine ⟨⟨t ++ v, mem_literal_mul.mpr ⟨v, hv, rfl⟩, (List.prefix_append_right_inj t).mpr hpre,
      hlength⟩, fun w hw hpre => ?_⟩
    obtain ⟨v, hv, rfl⟩ := mem_literal_mul.mp hw
    have hv := hle v hv ((List.prefix_append_right_inj t).mp hpre)
    rw [List.length_append, Nat.add_comm]
    exact Nat.add_le_add_right hv t.length

theorem longest_literal_mul_of_not {t : List Char} (ht : ¬ t <+: cs) :
    Longest (literal t * L) cs none := by
  intro w hw hpre
  obtain ⟨v, -, rfl⟩ := mem_literal_mul.mp hw
  exact ht ((List.prefix_append t v).trans hpre)

theorem Longest.opt (h : Longest L cs r) : Longest (opt L) cs (some (r.getD 0)) := by
  cases r with
  | none => exact longest_one.add_none h
  | some n =>
    rw [Pattern.opt, add_comm]
    refine h.add fun w hw _ => ⟨n, rfl, ?_⟩
    rw [(Language.mem_one w).mp hw]
    exact Nat.zero_le n

/-- Characters of a kind are taken as far as they go, if what follows begins otherwise. -/
theorem Longest.manyOf_mul (hL : Avoids p L) (h : Longest L (cs.dropWhile p) r) :
    Longest (manyOf p * L) cs (r.map (· + (cs.takeWhile p).length)) := by
  induction cs with
  | nil =>
    rw [Pattern.manyOf_mul]
    have hsame : r.map (· + ([].takeWhile p).length) = r := by cases r <;> rfl
    rw [hsame]
    exact h.add_none (longest_oneOf_mul_of_not (by simp))
  | cons c cs ih =>
    rw [Pattern.manyOf_mul]
    by_cases hc : p c = true
    · rw [List.dropWhile_cons_of_pos hc] at h
      have hmore := (ih h).oneOf_mul hc
      have hsame : (r.map (· + (cs.takeWhile p).length)).map (· + 1) =
          r.map (· + ((c :: cs).takeWhile p).length) := by
        rw [List.takeWhile_cons_of_pos hc, Option.map_map]
        rfl
      rw [hsame] at hmore
      -- the language alone finds no more than the empty word here, and only where it has one behind
      refine add_comm _ L ▸ hmore.add fun w hw hpre => ?_
      have hnil : w = [] := by
        cases w with
        | nil => rfl
        | cons d w =>
          have hd := hL _ hw d rfl
          rw [(List.cons_prefix_cons.mp hpre).1, hc] at hd
          cases hd
      subst hnil
      cases r with
      | none => exact absurd List.nil_prefix (h [] hw)
      | some n => exact ⟨_, rfl, Nat.zero_le _⟩
    · rw [Bool.not_eq_true] at hc
      rw [List.dropWhile_cons_of_neg (by simp [hc])] at h
      have hsame : r.map (· + ((c :: cs).takeWhile p).length) = r := by
        rw [List.takeWhile_cons_of_neg (by simp [hc])]
        cases r <;> rfl
      rw [hsame]
      exact h.add_none (longest_oneOf_mul_of_not (by simpa using hc))

theorem Longest.someOf_mul (hL : Avoids p L) (h : Longest L (cs.dropWhile p) r) :
    Longest (someOf p * L) cs
      (if (cs.takeWhile p).length = 0 then none else r.map (· + (cs.takeWhile p).length)) := by
  rw [Pattern.someOf_mul]
  cases cs with
  | nil => exact longest_oneOf_mul_of_not (by simp)
  | cons c cs =>
    by_cases hc : p c = true
    · rw [List.dropWhile_cons_of_pos hc] at h
      have hmore := (h.manyOf_mul hL).oneOf_mul hc
      rw [Option.map_map] at hmore
      rw [List.takeWhile_cons_of_pos hc, List.length_cons, if_neg (Nat.succ_ne_zero _)]
      exact hmore
    · rw [List.takeWhile_cons_of_neg hc, if_pos List.length_nil]
      exact longest_oneOf_mul_of_not (by simpa using hc)

/-- Without anything behind them. -/
theorem longest_manyOf : Longest (manyOf p) cs (some (cs.takeWhile p).length) := by
  have h : Longest (manyOf p * 1) cs _ := longest_one.manyOf_mul avoids_one
  rw [mul_one] at h
  simpa using h

theorem longest_someOf : Longest (someOf p) cs
    (if (cs.takeWhile p).length = 0 then none else some (cs.takeWhile p).length) := by
  have h : Longest (someOf p * 1) cs _ := longest_one.someOf_mul avoids_one
  rw [mul_one] at h
  simpa using h

theorem Longest.opt_mul_cons (hL : StartsIn q L) (hpq : ∀ c, p c = true → q c = false)
    (hc : p c = true) (h : Longest L cs r) :
    Longest (Pattern.opt (oneOf p) * L) (c :: cs) (r.map (· + 1)) := by
  rw [Pattern.opt_mul]
  exact (hL.longest (by simpa using hpq c hc)).none_add (h.oneOf_mul hc)

theorem Longest.opt_mul_of_not (hcs : ∀ c ∈ cs.head?, p c = false) (h : Longest L cs r) :
    Longest (Pattern.opt (oneOf p) * L) cs r := by
  rw [Pattern.opt_mul]
  exact h.add_none (longest_oneOf_mul_of_not hcs)

end
end HandlerGrammar
