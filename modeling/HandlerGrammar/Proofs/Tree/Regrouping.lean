import HandlerGrammar.Proofs.Tree.Opening

/-! # Gathering in one pass

Nodes can be gathered in one pass over them. Those that stay and those that are moved are collected
in two lists; the new branch goes where the first list ended when the first node was moved, or
behind all of it if none was. The place is taken down while the list still grows, but it grows only
behind that place, so what is in front of it is what was in front of the first node moved.

* `Pass`, `Pass.take`, `Pass.finish`: a pass over nodes;
* `Sorts`: what a pass has collected, preserved by `Sorts.take`;
* `gatherInOnePass_eq`: the pass gathers;
* `Gathering`, `gathering_gather`: where the new branch stands, what it holds and what stays;
* `openedAll_gatherAll_perm`: no node is lost or doubled by gathering. -/
namespace HandlerGrammar
namespace ParseTree
set_option autoImplicit false

/-! ## A pass over nodes -/

/-- The nodes that stay and those that are moved so far, and how many stayed when the first one was
moved. -/
structure Pass where
  kept : List ParseTree
  moved : List ParseTree
  place? : Option Nat

namespace Pass

def start : Pass := ⟨[], [], none⟩

/-- Go on to the next node. -/
def take (members : List String) (s : Pass) (t : ParseTree) : Pass :=
  if isMember members t then
    { s with moved := s.moved ++ [t], place? := some (s.place?.getD s.kept.length) }
  else
    { s with kept := s.kept ++ [t] }

/-- Put the new branch in its place. -/
def finish (label : String) (line : Nat) (s : Pass) : List ParseTree :=
  s.kept.insertIdx (s.place?.getD s.kept.length)
    (branch (some label) ((s.moved.head?.map ParseTree.line).getD line) s.moved)

end Pass

def gatherInOnePass (label : String) (members : List String) (line : Nat) (nodes : List ParseTree) :
    List ParseTree :=
  (nodes.foldl (Pass.take members) .start).finish label line

/-- What a pass has collected from the nodes seen: all of them while none was a member, and from the
first member on members and other nodes apart. -/
inductive Sorts (members : List String) : List ParseTree → Pass → Prop
  | none {seen : List ParseTree} : (∀ t ∈ seen, isMember members t = false) →
      Sorts members seen ⟨seen, [], none⟩
  | some {before rest : List ParseTree} {first : ParseTree} :
      (∀ t ∈ before, isMember members t = false) → isMember members first = true →
      Sorts members (before ++ first :: rest)
        ⟨before ++ rest.filter (!isMember members ·), first :: rest.filter (isMember members),
          some before.length⟩

section
variable {members : List String}

theorem Sorts.take {seen : List ParseTree} {s : Pass} (h : Sorts members seen s) (t : ParseTree) :
    Sorts members (seen ++ [t]) (s.take members t) := by
  by_cases ht : isMember members t = true
  · cases h with
    | none hseen =>
      have hfirst : Sorts members (seen ++ t :: []) _ := .some hseen ht
      simpa [Pass.take, ht] using hfirst
    | @some before rest first hbefore hfirst =>
      have hnext : Sorts members (before ++ first :: (rest ++ [t])) _ := .some hbefore hfirst
      simpa [Pass.take, ht] using hnext
  · cases h with
    | none hseen =>
      have hstay : ∀ x ∈ seen ++ [t], isMember members x = false := by
        simpa [or_imp, forall_and, ht] using hseen
      simpa [Pass.take, ht] using Sorts.none hstay
    | @some before rest first hbefore hfirst =>
      have hnext : Sorts members (before ++ first :: (rest ++ [t])) _ := .some hbefore hfirst
      simpa [Pass.take, ht] using hnext

theorem Sorts.foldl {seen : List ParseTree} {s : Pass} (h : Sorts members seen s)
    (nodes : List ParseTree) :
    Sorts members (seen ++ nodes) (nodes.foldl (Pass.take members) s) := by
  induction nodes generalizing seen s with
  | nil => simpa using h
  | cons t nodes ih => simpa using ih (h.take t)

theorem sorts_pass (members : List String) (nodes : List ParseTree) :
    Sorts members nodes (nodes.foldl (Pass.take members) .start) := by
  have hstart : Sorts members [] .start := .none (by simp)
  simpa using hstart.foldl nodes

/-! ## The new branch -/

theorem filter_member_eq_nil {nodes : List ParseTree}
    (h : ∀ t ∈ nodes, isMember members t = false) : nodes.filter (isMember members) = [] :=
  List.filter_eq_nil_iff.mpr (by simpa using h)

theorem filter_not_member_eq_self {nodes : List ParseTree}
    (h : ∀ t ∈ nodes, isMember members t = false) : nodes.filter (!isMember members ·) = nodes :=
  List.filter_eq_self.mpr (by simpa using h)

variable {label : String} {line : Nat}

theorem gather_of_none {nodes : List ParseTree} (h : ∀ t ∈ nodes, isMember members t = false) :
    gather label members line nodes = nodes ++ [branch (some label) line []] := by
  have hbefore : nodes.takeWhile (!isMember members ·) = nodes :=
    List.takeWhile_eq_self_iff.mpr (by simpa using h)
  have hafter : nodes.dropWhile (!isMember members ·) = [] :=
    List.dropWhile_eq_nil_iff.mpr (by simpa using h)
  simp [gather, filter_member_eq_nil h, hbefore, hafter]

/-- The new branch takes the place of the first member, and holds it with those that follow. -/
theorem gather_of_some {before rest : List ParseTree} {first : ParseTree}
    (hbefore : ∀ t ∈ before, isMember members t = false) (hfirst : isMember members first = true) :
    gather label members line (before ++ first :: rest) =
      before ++ branch (some label) first.line (first :: rest.filter (isMember members)) ::
        rest.filter (!isMember members ·) := by
  have hstay : ∀ t ∈ before, (!isMember members t) = true := by simpa using hbefore
  simp only [gather, List.filter_append, filter_member_eq_nil hbefore,
    List.takeWhile_append_of_pos hstay, List.dropWhile_append_of_pos hstay]
  simp [hfirst]

theorem insertIdx_length_append {α : Type} (before after : List α) (x : α) :
    (before ++ after).insertIdx before.length x = before ++ x :: after := by
  induction before with
  | nil => rfl
  | cons y before ih => simp [List.insertIdx_succ_cons, ih]

theorem gatherInOnePass_eq (label : String) (members : List String) (line : Nat)
    (nodes : List ParseTree) :
    gatherInOnePass label members line nodes = gather label members line nodes := by
  have hpass := sorts_pass members nodes
  unfold gatherInOnePass
  generalize nodes.foldl (Pass.take members) .start = s at hpass
  cases hpass with
  | none hseen => simp [Pass.finish, gather_of_none hseen, List.insertIdx_length_self]
  | some hbefore hfirst =>
    rw [gather_of_some hbefore hfirst]
    exact insertIdx_length_append _ _ _

/-- `result` is made of `nodes` by moving the members, in their order, into one new branch. What
stays keeps its order; the new branch stands before what stays behind the first member, and last if
there is no member. -/
structure Gathering (label : String) (members : List String) (line : Nat)
    (nodes before after result : List ParseTree) : Prop where
  result : result = before ++ branch (some label)
    (((nodes.filter (isMember members)).head?.map ParseTree.line).getD line)
    (nodes.filter (isMember members)) :: after
  stay : before ++ after = nodes.filter (!isMember members ·)
  perm : (before ++ nodes.filter (isMember members) ++ after).Perm nodes
  place : nodes.filter (isMember members) = [] ∧ after = [] ∨
    ∃ first rest, nodes = before ++ first :: rest ∧ isMember members first = true ∧
      after = rest.filter (!isMember members ·)

theorem gathering_gather (label : String) (members : List String) (line : Nat)
    (nodes : List ParseTree) :
    ∃ before after, Gathering label members line nodes before after
      (gather label members line nodes) := by
  have hperm : ∀ before after : List ParseTree,
      before ++ after = nodes.filter (!isMember members ·) →
        (before ++ nodes.filter (isMember members) ++ after).Perm nodes := by
    intro before after hstay
    apply (List.perm_append_comm.append_right after).trans
    rw [List.append_assoc, hstay]
    exact List.filter_append_perm _ _
  have hpass := sorts_pass members nodes
  generalize nodes.foldl (Pass.take members) .start = s at hpass
  cases hpass with
  | none hseen =>
    have hmoved := filter_member_eq_nil hseen
    have hstay : nodes ++ [] = nodes.filter (!isMember members ·) := by
      rw [List.append_nil, filter_not_member_eq_self hseen]
    refine ⟨nodes, [], ?_, hstay, hperm _ _ hstay, Or.inl ⟨hmoved, rfl⟩⟩
    simp [gather_of_none hseen, hmoved]
  | @some before rest first hbefore hfirst =>
    have hstay : before ++ rest.filter (!isMember members ·) =
        (before ++ first :: rest).filter (!isMember members ·) := by
      simp [filter_not_member_eq_self hbefore, hfirst]
    refine ⟨before, _, ?_, hstay, hperm _ _ hstay, Or.inr ⟨first, rest, rfl, hfirst, rfl⟩⟩
    simp [gather_of_some hbefore hfirst, filter_member_eq_nil hbefore, hfirst]

example (x : Token) :
    (gather "empty" ["c"] 1 (gather "group" ["b"] 1
      [leaf (some "b") x, leaf (some "a") x, leaf (some "b") x])).map ParseTree.label =
    [some "group", some "a", some "empty"] := rfl

/-! ## Opening what was gathered -/

section
variable {labels : List String} {nodes : List ParseTree}

theorem openedAll_eq_self (h : ∀ t ∈ nodes, isMember labels t = false) :
    openedAll labels nodes = nodes := by
  rw [openedAll_eq_flatMap, List.flatMap_congr fun t ht => opened_of_not_member (h t ht)]
  simp

theorem openedAll_gather_perm (hlabel : label ∈ labels) :
    (openedAll labels (gather label members line nodes)).Perm (openedAll labels nodes) := by
  have hperm : (gather label members line nodes).Perm
      (group label members line nodes :: nodes.filter (!isMember members ·)) := gather_perm
  have hgather := hperm.flatMap_right (opened labels)
  rw [List.flatMap_cons, opened_group hlabel, ← List.flatMap_append] at hgather
  rw [openedAll_eq_flatMap, openedAll_eq_flatMap]
  exact hgather.trans ((List.filter_append_perm _ _).flatMap_right _)

theorem openedAll_gatherAll_perm {groups : List (String × List String)}
    (hlabels : ∀ g ∈ groups, g.1 ∈ labels) :
    (openedAll labels (gatherAll line groups nodes)).Perm (openedAll labels nodes) := by
  induction groups generalizing nodes with
  | nil => exact .refl _
  | cons g groups ih =>
    obtain ⟨hlabel, hlabels⟩ := List.forall_mem_cons.mp hlabels
    exact (ih hlabels).trans (openedAll_gather_perm hlabel)

end
end
end ParseTree
end HandlerGrammar
