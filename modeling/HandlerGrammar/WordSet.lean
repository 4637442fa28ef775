/-! # Finite sets of words

A set is kept as its members in increasing order, so that sets with the same members are equal
and listing a set lists it sorted. -/
namespace HandlerGrammar
set_option autoImplicit false

/-- Put `w` at its place in an increasing list that need not hold it yet. -/
def insertWord (w : String) : List String → List String
  | [] => [w]
  | v :: vs =>
    if w < v then w :: v :: vs
    else if v < w then v :: insertWord w vs
    else v :: vs

theorem mem_insertWord {w x : String} {vs : List String} :
    x ∈ insertWord w vs ↔ x = w ∨ x ∈ vs := by
  induction vs with
  | nil => simp [insertWord]
  | cons v vs ih =>
    unfold insertWord
    split
    · simp
    · split
      · simp only [List.mem_cons, ih]
        exact or_left_comm
      · have h : w = v := String.le_antisymm (String.not_lt.mp ‹¬v < w›) (String.not_lt.mp ‹¬w < v›)
        simp [h]

theorem insertWord_ascending {w : String} {vs : List String} (h : vs.Pairwise (· < ·)) :
    (insertWord w vs).Pairwise (· < ·) := by
  induction vs with
  | nil => simp [insertWord]
  | cons v vs ih =>
    obtain ⟨hv, hvs⟩ := List.pairwise_cons.mp h
    unfold insertWord
    split
    · refine List.pairwise_cons.mpr ⟨fun x hx => ?_, h⟩
      rcases List.mem_cons.mp hx with rfl | hx
      · assumption
      · exact String.lt_trans ‹w < v› (hv x hx)
    · split
      · refine List.pairwise_cons.mpr ⟨fun x hx => ?_, ih hvs⟩
        rcases mem_insertWord.mp hx with rfl | hx
        · assumption
        · exact hv x hx
      · exact h

/-- A finite set of words. -/
structure WordSet where
  words : List String
  ascending : words.Pairwise (· < ·)
  deriving DecidableEq

namespace WordSet

def empty : WordSet := ⟨[], List.Pairwise.nil⟩

def contains (s : WordSet) (w : String) : Bool := s.words.contains w

def insert (s : WordSet) (w : String) : WordSet :=
  ⟨insertWord w s.words, insertWord_ascending s.ascending⟩

def erase (s : WordSet) (w : String) : WordSet :=
  ⟨s.words.filter (· ≠ w), s.ascending.filter _⟩

def insertAll (s : WordSet) (ws : List String) : WordSet := ws.foldl insert s

def ofList (ws : List String) : WordSet := empty.insertAll ws

@[simp] theorem contains_empty (w : String) : empty.contains w = false := rfl

@[simp] theorem contains_insert (s : WordSet) (w x : String) :
    (s.insert w).contains x = (x == w || s.contains x) := by
  rw [Bool.eq_iff_iff]
  simp [contains, insert, mem_insertWord]

@[simp] theorem contains_erase (s : WordSet) (w x : String) :
    (s.erase w).contains x = (x != w && s.contains x) := by
  rw [Bool.eq_iff_iff]
  simp [contains, erase, and_comm]

theorem contains_insertAll (s : WordSet) (ws : List String) (x : String) :
    (s.insertAll ws).contains x = (ws.contains x || s.contains x) := by
  induction ws generalizing s with
  | nil => simp [insertAll]
  | cons w ws ih =>
    have h : (s.insertAll (w :: ws)) = (s.insert w).insertAll ws := rfl
    rw [h, ih, contains_insert, List.contains_cons, Bool.or_left_comm, Bool.or_assoc]

end WordSet
end HandlerGrammar
