import HandlerGrammar.Proofs.Tree.Gathering

/-! # The order of gathered nodes

Gathering brings the nodes with certain labels together at the place of the first of them. When the
new branches are opened again, the nodes come out in the order in which they were unless some of those
that were gathered had others between them.

* `SideBySide`, `together`: members of a list with no others between them, and how to make them so;
* `opened`: the nodes that were gathered, in the order of the tree;
* `holder`: the label of the outermost branch around a node after several gatherings;
* `openedAll_gatherAll`: several gatherings bring together what each branch holds;
* `arrange_eq_self`: the order remains exactly if all that was side by side. -/
namespace HandlerGrammar
set_option autoImplicit false

/-! ## Bringing members of a list together -/

section
variable {α β : Type}

/-- No other member stands between two of which `P` holds. -/
def SideBySide (P : α → Prop) (l : List α) : Prop :=
  ∃ before moved after, l = before ++ moved ++ after ∧
    (∀ x ∈ before, ¬ P x) ∧ (∀ x ∈ moved, P x) ∧ ∀ x ∈ after, ¬ P x

/-- The members of which `p` holds, brought together at the place of the first of them. -/
def together (p : α → Bool) (l : List α) : List α :=
  l.takeWhile (!p ·) ++ l.filter p ++ (l.dropWhile (!p ·)).filter (!p ·)

theorem SideBySide.cons {P : α → Prop} {l : List α} (h : SideBySide P l) {x : α} (hx : ¬ P x) :
    SideBySide P (x :: l) := by
  obtain ⟨before, moved, after, rfl, hbefore, hmoved, hafter⟩ := h
  exact ⟨x :: before, moved, after, rfl, List.forall_mem_cons.mpr ⟨hx, hbefore⟩, hmoved, hafter⟩

theorem SideBySide.congr {P Q : α → Prop} {l : List α} (h : ∀ x ∈ l, (P x ↔ Q x)) :
    SideBySide P l ↔ SideBySide Q l := by
  have hmap : ∀ {P Q : α → Prop}, (∀ x ∈ l, (P x ↔ Q x)) → SideBySide P l → SideBySide Q l := by
    rintro P Q h ⟨before, moved, after, rfl, hbefore, hmoved, hafter⟩
    refine ⟨before, moved, after, rfl, fun x hx hq => ?_, fun x hx => ?_, fun x hx hq => ?_⟩
    · exact hbefore x hx ((h x (by simp [hx])).mpr hq)
    · exact (h x (by simp [hx])).mp (hmoved x hx)
    · exact hafter x hx ((h x (by simp [hx])).mpr hq)
  exact ⟨hmap h, hmap fun x hx => (h x hx).symm⟩

variable {p q : α → Bool} {l : List α}

theorem together_cons_of_not {x : α} (hx : p x = false) :
    together p (x :: l) = x :: together p l := by
  simp [together, hx]

theorem together_cons {x : α} (hx : p x = true) :
    together p (x :: l) = (x :: l).filter p ++ (x :: l).filter (!p ·) := by
  simp [together, hx]

theorem together_append {before : List α} (hbefore : ∀ x ∈ before, p x = false) :
    together p (before ++ l) = before ++ together p l := by
  induction before with
  | nil => rfl
  | cons x before ih =>
    obtain ⟨hx, hbefore⟩ := List.forall_mem_cons.mp hbefore
    rw [List.cons_append, together_cons_of_not hx, ih hbefore]
    rfl

theorem together_perm (p : α → Bool) (l : List α) : (together p l).Perm l := by
  induction l with
  | nil => exact .refl _
  | cons x l ih =>
    cases hx : p x with
    | false =>
      rw [together_cons_of_not hx]
      exact ih.cons x
    | true =>
      rw [together_cons hx]
      exact List.filter_append_perm p _

theorem sideBySide_together (p : α → Bool) (l : List α) :
    SideBySide (p · = true) (together p l) := by
  refine ⟨_, _, _, rfl, fun x hx => ?_, fun x hx => (List.mem_filter.mp hx).2, fun x hx => ?_⟩
  · have hnot := List.mem_takeWhile_imp hx
    simpa using hnot
  · have hnot := (List.mem_filter.mp hx).2
    simpa using hnot

/-- What is side by side is together. -/
theorem SideBySide.together_eq (h : SideBySide (p · = true) l) : together p l = l := by
  obtain ⟨before, moved, after, rfl, hbefore, hmoved, hafter⟩ := h
  have hafter : ∀ x ∈ after, p x = false := fun x hx => Bool.eq_false_iff.mpr (hafter x hx)
  rw [List.append_assoc, together_append fun x hx => Bool.eq_false_iff.mpr (hbefore x hx)]
  refine congrArg (before ++ ·) ?_
  cases moved with
  | nil =>
    have hall := together_append (l := []) hafter
    rw [List.append_nil] at hall
    exact hall.trans (List.append_nil after)
  | cons x moved =>
    have hmovedNot : (x :: moved).filter (!p ·) = [] :=
      List.filter_eq_nil_iff.mpr fun y hy => by simp [hmoved y hy]
    have hafterNot : after.filter (!p ·) = after :=
      List.filter_eq_self.mpr fun y hy => by simp [hafter y hy]
    rw [List.cons_append, together_cons (hmoved x (List.mem_cons_self ..)), ← List.cons_append,
      List.filter_append, List.filter_append, List.filter_eq_self.mpr hmoved,
      List.filter_eq_nil_iff.mpr fun y hy => by simp [hafter y hy], hmovedNot, hafterNot]
    simp

/-- Bringing others together does not part what is side by side, if all of it is moved. -/
theorem SideBySide.together_of_moved {P : α → Prop} (h : SideBySide P l)
    (hq : ∀ x ∈ l, P x → q x = true) : SideBySide P (together q l) := by
  obtain ⟨before, moved, after, rfl, hbefore, hmoved, hafter⟩ := h
  have hkept : moved.filter q = moved :=
    List.filter_eq_self.mpr fun x hx => hq x (by simp [hx]) (hmoved x hx)
  have hnot : ∀ x ∈ before ++ moved ++ after, (!q x) = true → ¬ P x := by
    intro x hx hqx hPx
    rw [hq x hx hPx] at hqx
    cases hqx
  refine ⟨(before ++ moved ++ after).takeWhile (!q ·) ++ before.filter q, moved,
    after.filter q ++ ((before ++ moved ++ after).dropWhile (!q ·)).filter (!q ·), ?_, ?_, hmoved, ?_⟩
  · simp only [together, List.filter_append, hkept, List.append_assoc]
  · refine List.forall_mem_append.mpr ⟨fun x hx => ?_, fun x hx => ?_⟩
    · exact hnot x ((List.takeWhile_sublist _).subset hx)
        (List.mem_takeWhile_imp (p := fun x => !q x) hx)
    · exact hbefore x (List.mem_filter.mp hx).1
  · refine List.forall_mem_append.mpr ⟨fun x hx => hafter x (List.mem_filter.mp hx).1, fun x hx => ?_⟩
    obtain ⟨hx, hqx⟩ := List.mem_filter.mp hx
    exact hnot x ((List.dropWhile_sublist _).subset hx) hqx

/-- Nor does it if none of it is moved: what is moved goes to a place in front or behind. -/
theorem SideBySide.together_of_not_moved {P : α → Prop} (h : SideBySide P l)
    (hq : ∀ x ∈ l, P x → q x = false) : SideBySide P (together q l) := by
  obtain ⟨before, moved, after, rfl, hbefore, hmoved, hafter⟩ := h
  induction before with
  | nil =>
    have hstays : ∀ x ∈ moved, q x = false := fun x hx => hq x (by simp [hx]) (hmoved x hx)
    refine ⟨[], moved, together q after, together_append hstays, by simp, hmoved, ?_⟩
    exact fun x hx => hafter x ((together_perm q after).mem_iff.mp hx)
  | cons x before ih =>
    obtain ⟨hx, hrest⟩ := List.forall_mem_cons.mp hbefore
    cases hqx : q x with
    | false =>
      have hside := ih (fun y hy => hq y (List.mem_cons_of_mem x hy)) hrest
      have hcons := together_cons_of_not (l := before ++ moved ++ after) hqx
      rw [List.cons_append, List.cons_append, hcons]
      exact hside.cons hx
    | true =>
      have hcons := together_cons (l := before ++ moved ++ after) hqx
      rw [List.cons_append, List.cons_append, hcons]
      have hstays : moved.filter (!q ·) = moved :=
        List.filter_eq_self.mpr fun y hy => by simp [hq y (by simp [hy]) (hmoved y hy)]
      refine ⟨(x :: (before ++ moved ++ after)).filter q ++ (x :: before).filter (!q ·), moved,
        after.filter (!q ·), ?_, ?_, hmoved, fun y hy => hafter y (List.mem_filter.mp hy).1⟩
      · simp [List.filter_append, hstays, hqx]
      · refine List.forall_mem_append.mpr ⟨fun y hy hPy => ?_, fun y hy => ?_⟩
        · obtain ⟨hy, hqy⟩ := List.mem_filter.mp hy
          rw [hq y hy hPy] at hqy
          cases hqy
        · exact hbefore y (List.mem_filter.mp hy).1

/-- Filtering lists as wholes filters their members, if they are told in the same way. -/
theorem flatMap_filter {f : α → List β} {q : β → Bool} (hq : ∀ x ∈ l, ∀ y ∈ f x, q y = p x) :
    (l.filter p).flatMap f = (l.flatMap f).filter q := by
  induction l with
  | nil => rfl
  | cons x l ih =>
    obtain ⟨hx, hq⟩ := List.forall_mem_cons.mp hq
    rw [List.flatMap_cons, List.filter_append, ← ih hq]
    cases hpx : p x with
    | false =>
      have hnone : (f x).filter q = [] :=
        List.filter_eq_nil_iff.mpr fun y hy => by simp [hx y hy, hpx]
      simp [hpx, hnone]
    | true =>
      have hall : (f x).filter q = f x :=
        List.filter_eq_self.mpr fun y hy => by simp [hx y hy, hpx]
      simp [hpx, hall]

/-- Bringing lists together, each of which `q` tells as `p` does, brings their members together. Lists
without members are told by no member, so they have to stand last. -/
theorem flatMap_together {f : α → List β} {q : β → Bool} (hq : ∀ x ∈ l, ∀ y ∈ f x, q y = p x)
    (hlast : l.Pairwise fun x y => f x = [] → f y = []) :
    (together p l).flatMap f = together q (l.flatMap f) := by
  induction l with
  | nil => rfl
  | cons x l ih =>
    obtain ⟨hfirst, hlast⟩ := List.pairwise_cons.mp hlast
    cases hpx : p x with
    | false =>
      obtain ⟨hx, hq⟩ := List.forall_mem_cons.mp hq
      rw [together_cons_of_not hpx, List.flatMap_cons, List.flatMap_cons, ih hq hlast,
        together_append fun y hy => (hx y hy).trans hpx]
    | true =>
      have hmoved := flatMap_filter hq
      have hstay : ((x :: l).filter (!p ·)).flatMap f = ((x :: l).flatMap f).filter (!q ·) :=
        flatMap_filter fun y hy z hz => congrArg (!·) (hq y hy z hz)
      rw [together_cons hpx, List.flatMap_append, hmoved, hstay]
      cases hfx : f x with
      | nil =>
        have hnil : (x :: l).flatMap f = [] :=
          List.flatMap_eq_nil_iff.mpr (List.forall_mem_cons.mpr ⟨hfx, fun y hy => hfirst y hy hfx⟩)
        rw [hnil]
        rfl
      | cons y ys =>
        have hy : q y = true := by
          rw [hq x (List.mem_cons_self ..) y (by simp [hfx]), hpx]
        rw [List.flatMap_cons, hfx, List.cons_append, together_cons hy]

/-- Lists without members still stand last if one list takes the place of those that are moved. -/
theorem pairwise_insert {f : α → List β} (hlast : l.Pairwise fun x y => f x = [] → f y = []) {z : α}
    (hz : f z = (l.filter p).flatMap f) :
    (l.takeWhile (!p ·) ++ z :: (l.dropWhile (!p ·)).filter (!p ·)).Pairwise
      fun x y => f x = [] → f y = [] := by
  induction l with
  | nil => exact List.pairwise_singleton _ z
  | cons x l ih =>
    obtain ⟨hfirst, hlast⟩ := List.pairwise_cons.mp hlast
    cases hpx : p x with
    | false =>
      rw [List.filter_cons_of_neg (by simp [hpx])] at hz
      rw [List.takeWhile_cons_of_pos (by simp [hpx]), List.dropWhile_cons_of_pos (by simp [hpx]),
        List.cons_append]
      refine List.pairwise_cons.mpr ⟨fun y hy hfx => ?_, ih hlast hz⟩
      rcases List.mem_append.mp hy with hy | hy
      · exact hfirst y ((List.takeWhile_sublist _).subset hy) hfx
      · rcases List.mem_cons.mp hy with rfl | hy
        · rw [hz, List.flatMap_eq_nil_iff]
          exact fun y hy => hfirst y (List.mem_filter.mp hy).1 hfx
        · exact hfirst y ((List.dropWhile_sublist _).subset (List.mem_filter.mp hy).1) hfx
    | true =>
      rw [List.takeWhile_cons_of_neg (by simp [hpx]), List.dropWhile_cons_of_neg (by simp [hpx]),
        List.filter_cons_of_neg (by simp [hpx]), List.nil_append]
      refine List.pairwise_cons.mpr ⟨fun y hy hfz => ?_, hlast.sublist List.filter_sublist⟩
      rw [hz, List.flatMap_eq_nil_iff] at hfz
      have hfx := hfz x (List.mem_filter.mpr ⟨List.mem_cons_self .., hpx⟩)
      exact hfirst y (List.mem_filter.mp hy).1 hfx

end

namespace ParseTree

/-! ## Opening branches -/

mutual
/-- The nodes that a branch with one of the labels holds, those of such branches inside it opened as
well; any other node is left as it is. -/
def opened (labels : List String) : ParseTree → List ParseTree
  | leaf label t => [leaf label t]
  | branch label line children =>
    if label.any labels.contains then openedAll labels children else [branch label line children]

def openedAll (labels : List String) : List ParseTree → List ParseTree
  | [] => []
  | t :: ts => opened labels t ++ openedAll labels ts
end

theorem openedAll_eq_flatMap (labels : List String) (ts : List ParseTree) :
    openedAll labels ts = ts.flatMap (opened labels) := by
  induction ts with
  | nil => rfl
  | cons t ts ih => rw [openedAll, ih, List.flatMap_cons]

theorem opened_of_not_member {labels : List String} {t : ParseTree}
    (h : isMember labels t = false) : opened labels t = [t] := by
  cases t with
  | leaf label t => rfl
  | branch label line children =>
    have hlabel : label.any labels.contains = false := h
    rw [opened, hlabel]
    rfl

mutual
/-- Opening branches leaves their tokens where they are. -/
theorem tokens_opened (labels : List String) (t : ParseTree) :
    (opened labels t).flatMap tokens = t.tokens := by
  match t with
  | leaf label t => simp [opened]
  | branch label line children =>
    have hchildren := tokens_openedAll labels children
    unfold opened
    split
    · rw [hchildren, tokens_branch]
    · simp

theorem tokens_openedAll (labels : List String) (ts : List ParseTree) :
    (openedAll labels ts).flatMap tokens = ts.flatMap tokens := by
  match ts with
  | [] => rfl
  | t :: ts =>
    have ht := tokens_opened labels t
    have hts := tokens_openedAll labels ts
    rw [openedAll, List.flatMap_append, ht, hts, List.flatMap_cons]
end

/-! ## What branches hold -/

/-- The label of the outermost branch that holds a node labelled `l` when the groups have been
gathered, or `l` if there is none. -/
def holder (groups : List (String × List String)) (l : String) : String :=
  groups.foldl (fun l group => if group.2.contains l then group.1 else l) l

/-- Whether the branch of a group will hold the node, if the groups in front have been gathered. -/
def heldBy (groups : List (String × List String)) (group : String × List String) (n : ParseTree) :
    Bool := n.label.any fun l => group.2.contains (holder groups l)

/-- Nodes brought together as the groups hold them, one group after another. -/
def arrange (groups : List (String × List String)) :
    List (String × List String) → List ParseTree → List ParseTree
  | [], nodes => nodes
  | group :: later, nodes =>
    arrange (groups ++ [group]) later (together (heldBy groups group) nodes)

theorem holder_concat (groups : List (String × List String)) (group : String × List String)
    (l : String) : holder (groups ++ [group]) l =
      if group.2.contains (holder groups l) then group.1 else holder groups l := by
  rw [holder, List.foldl_append]
  rfl

/-- The nodes that come out of the branches carry labels, each branch carries that of the holder, and
empty branches stand last. -/
structure Opens (labels : List String) (groups : List (String × List String))
    (nodes : List ParseTree) : Prop where
  held : ∀ n ∈ nodes, ∀ m ∈ opened labels n, ∃ l, m.label = some l ∧ n.label = some (holder groups l)
  last : nodes.Pairwise fun n n' => opened labels n = [] → opened labels n' = []

theorem opens_members {labels : List String} {members : List ParseTree}
    (h : ∀ m ∈ members, isMember labels m = false ∧ m.label ≠ none) :
    Opens labels [] members ∧ openedAll labels members = members := by
  have hself : ∀ m ∈ members, opened labels m = [m] := fun m hm => opened_of_not_member (h m hm).1
  refine ⟨⟨fun n hn m hm => ?_, ?_⟩, ?_⟩
  · rw [hself n hn] at hm
    rw [List.mem_singleton.mp hm]
    obtain ⟨l, hl⟩ := Option.ne_none_iff_exists'.mp (h n hn).2
    exact ⟨l, hl, hl⟩
  · refine List.pairwise_of_forall_mem_list fun n hn n' _ hnil => ?_
    rw [hself n hn] at hnil
    cases hnil
  · rw [openedAll_eq_flatMap, List.flatMap_congr hself]
    simp

theorem opened_group {labels : List String} {label : String} (hlabel : label ∈ labels)
    (members : List String) (line : Nat) (nodes : List ParseTree) :
    opened labels (group label members line nodes) =
      (nodes.filter (isMember members)).flatMap (opened labels) := by
  rw [group, opened, openedAll_eq_flatMap]
  simp [hlabel]

/-- One gathering brings together what the new branch holds. -/
theorem Opens.gather {labels : List String} {groups : List (String × List String)}
    {nodes : List ParseTree} (h : Opens labels groups nodes) {group : String × List String}
    (hlabel : group.1 ∈ labels) (line : Nat) :
    Opens labels (groups ++ [group]) (gather group.1 group.2 line nodes) ∧
      openedAll labels (gather group.1 group.2 line nodes) =
        together (heldBy groups group) (openedAll labels nodes) := by
  have hopened := opened_group hlabel group.2 line nodes
  refine ⟨⟨fun n hn m hm => ?_, pairwise_insert h.last hopened⟩, ?_⟩
  · rw [mem_gather] at hn
    rcases hn with rfl | ⟨hn, hstays⟩
    · rw [hopened, List.mem_flatMap] at hm
      obtain ⟨n, hn, hm⟩ := hm
      obtain ⟨hn, hmoved⟩ := List.mem_filter.mp hn
      obtain ⟨l, hl, hlabel⟩ := h.held n hn m hm
      refine ⟨l, hl, ?_⟩
      rw [isMember, hlabel, Option.any_some] at hmoved
      rw [holder_concat, if_pos hmoved]
      rfl
    · obtain ⟨l, hl, hlabel⟩ := h.held n hn m hm
      refine ⟨l, hl, ?_⟩
      rw [isMember, hlabel, Option.any_some] at hstays
      rw [holder_concat, if_neg (Bool.eq_false_iff.mp hstays), hlabel]
  · have htold : ∀ n ∈ nodes, ∀ m ∈ opened labels n, heldBy groups group m = isMember group.2 n := by
      intro n hn m hm
      obtain ⟨l, hl, hlabel⟩ := h.held n hn m hm
      rw [heldBy, isMember, hl, hlabel]
      rfl
    rw [openedAll_eq_flatMap, openedAll_eq_flatMap, ← flatMap_together htold h.last]
    simp only [ParseTree.gather, together, List.flatMap_append, List.flatMap_cons, List.append_assoc,
      ← hopened]
    rfl

theorem openedAll_gatherAll {labels : List String} {groups later : List (String × List String)}
    {nodes : List ParseTree} (h : Opens labels groups nodes) (hlabels : ∀ g ∈ later, g.1 ∈ labels)
    (line : Nat) : openedAll labels (gatherAll line later nodes) =
      arrange groups later (openedAll labels nodes) := by
  induction later generalizing groups nodes with
  | nil => rfl
  | cons group later ih =>
    obtain ⟨hlabel, hlabels⟩ := List.forall_mem_cons.mp hlabels
    obtain ⟨hgathered, hopened⟩ := h.gather hlabel line
    rw [arrange, ← hopened]
    exact ih hgathered hlabels

/-! ## When the order remains -/

/-- What has the same holder stays side by side. -/
theorem sideBySide_arrange {P : ParseTree → Prop} {groups later : List (String × List String)}
    {nodes : List ParseTree} (h : SideBySide P nodes)
    (hsame : ∀ n n', P n → P n' → n.label.map (holder groups) = n'.label.map (holder groups)) :
    SideBySide P (arrange groups later nodes) := by
  induction later generalizing groups nodes with
  | nil => exact h
  | cons group later ih =>
    have hheld : ∀ n, heldBy groups group n =
        (n.label.map (holder groups)).any group.2.contains := by
      intro n
      cases hlabel : n.label <;> simp [heldBy, hlabel]
    have hnext : ∀ n : ParseTree, n.label.map (holder (groups ++ [group])) =
        (n.label.map (holder groups)).map
          (fun l => if group.2.contains l then group.1 else l) := by
      intro n
      rw [Option.map_map]
      exact congrArg (n.label.map ·) (funext fun l => holder_concat groups group l)
    refine ih ?_ fun n n' hn hn' => ?_
    · by_cases hmoved : ∃ n ∈ nodes, P n ∧ heldBy groups group n = true
      · obtain ⟨n, -, hn, hheldn⟩ := hmoved
        refine h.together_of_moved fun n' _ hn' => ?_
        rwa [hheld, hsame n' n hn' hn, ← hheld]
      · refine h.together_of_not_moved fun n hn hPn => Bool.eq_false_iff.mpr fun hheldn => ?_
        exact hmoved ⟨n, hn, hPn, hheldn⟩
    · rw [hnext, hnext, hsame n n' hn hn']

theorem sideBySide_arrange_split (groups before after : List (String × List String))
    (group : String × List String) (nodes : List ParseTree) :
    SideBySide (heldBy (groups ++ before) group · = true)
      (arrange groups (before ++ group :: after) nodes) := by
  induction before generalizing groups nodes with
  | nil =>
    rw [List.append_nil, List.nil_append, arrange]
    refine sideBySide_arrange (sideBySide_together _ _) fun n n' hn hn' => ?_
    have hholder : ∀ n : ParseTree, heldBy groups group n = true →
        n.label.map (holder (groups ++ [group])) = some group.1 := by
      intro n hn
      unfold heldBy at hn
      cases hlabel : n.label with
      | none => rw [hlabel] at hn; cases hn
      | some l =>
        rw [hlabel, Option.any_some] at hn
        rw [Option.map_some, holder_concat, if_pos hn]
    rw [hholder n hn, hholder n' hn']
  | cons first before ih =>
    have hrest := ih (groups ++ [first]) (together (heldBy groups first) nodes)
    rw [List.append_assoc] at hrest
    exact hrest

/-- The nodes come out in the order in which they were exactly if what each group holds was side by
side. -/
theorem arrange_eq_self {groups later : List (String × List String)} {nodes : List ParseTree} :
    arrange groups later nodes = nodes ↔ ∀ before group after, later = before ++ group :: after →
      SideBySide (heldBy (groups ++ before) group · = true) nodes := by
  constructor
  · rintro heq before group after rfl
    have hside := sideBySide_arrange_split groups before after group nodes
    rwa [heq] at hside
  · intro hside
    induction later generalizing groups with
    | nil => rfl
    | cons group later ih =>
      have hfirst := hside [] group later rfl
      rw [List.append_nil] at hfirst
      rw [arrange, hfirst.together_eq]
      refine ih fun before group' after heq => ?_
      have hlater := hside (group :: before) group' after (by rw [heq]; rfl)
      rw [List.append_assoc]
      exact hlater

end ParseTree
end HandlerGrammar
