import HandlerGrammar.Proofs.Matching.Lockstep
import HandlerGrammar.Proofs.Matching.Termination
import Mathlib.Data.List.ProdSigma

/-! # A sufficient depth

Matching a fixed sequence of tokens needs no other depth than a parse is given, whatever the
grammar: if it comes to an end at any depth, it comes to the same end at every depth from
`depthFor` on. A match that opens the same rule at the same position inside itself never ends, since
what happens there does not depend on the expectations recorded before; so a match that ends opens
different pairs of rule and position inside each other, and there are only so many of these.

* `Preview`, `Grammar.parsePreview`: tokens that are there from the start, and their parse;
* `Settled`, `Grammar.SettlesAt`: matches that come to an end;
* `follows_of_depthFor`: the depth suffices for a rule;
* `parsePreview_eq`: and for a parse. -/
namespace HandlerGrammar
set_option autoImplicit false

/-- What there is to see at each position: a token, or the error of a line before it. -/
abbrev Preview := Nat → Except LexError Token

namespace Preview

/-- Looking into a preview leaves nothing behind. -/
def look (v : Preview) : Lookahead Unit := fun k u =>
  match v k with
  | .ok t => .ok t u
  | .error e => .error e u

/-- The tokens of a list with the end of input behind them. -/
def ofList (ts : List Token) (eof : Token) : Preview := fun k => .ok (ts[k]?.getD eof)

/-- From position `size` on there is nothing but the end of input or an error. -/
def EndsBy (v : Preview) (size : Nat) : Prop := ∀ k t, size ≤ k → v k = .ok t → t.isEof = true

theorem endsBy_ofList (ts : List Token) {eof : Token} (heof : eof.isEof = true) :
    (ofList ts eof).EndsBy ts.length := by
  intro k t hk h
  rw [ofList, List.getElem?_eq_none hk] at h
  cases h
  exact heof

theorem tokenAt_look (v : Preview) (pos : Nat) (p : Progress Unit) :
    tokenAt v.look pos p = match v pos with
      | .ok t => .ok t p
      | .error e => .error (.lexical e) p := by
  unfold tokenAt look
  cases v pos <;> rfl

/-- Two matches of the preview that may have recorded different expectations. -/
def apart : Pairing Unit Unit := ⟨fun _ _ => True, fun _ _ _ => True, False⟩

/-- Two matches of the preview that differ in their depth only, the second being deeper. -/
def deeper : Pairing Unit Unit := ⟨(· = ·), fun _ => (· = ·), True⟩

theorem EndsBy.lt_of_accepts {v : Preview} {size pos : Nat} {t : Token} {x : Terminal}
    (hv : v.EndsBy size) (ht : v pos = .ok t) (hx : x.accepts t = true) : pos < size := by
  by_contra hle
  have heof := hv pos t (Nat.le_of_not_lt hle) ht
  rw [Terminal.accepts_eof heof] at hx
  cases hx

theorem EndsBy.paired_apart {v : Preview} {size : Nat} (hv : v.EndsBy size) :
    Paired apart v.look v.look size where
  expect _ _ _ := trivial
  token pos := by
    intro p p' _
    rw [tokenAt_look, tokenAt_look]
    cases h : v pos with
    | ok t => exact .result (fun _ hx => hv.lt_of_accepts h hx) trivial
    | error e => exact .lexical trivial

theorem EndsBy.paired_deeper {v : Preview} {size : Nat} (hv : v.EndsBy size) :
    Paired deeper v.look v.look size where
  expect pos what hp := by rw [show _ = _ from hp]; rfl
  token pos := by
    intro p p' hp
    rw [tokenAt_look, tokenAt_look]
    cases h : v pos with
    | ok t => exact .result (fun _ hx => hv.lt_of_accepts h hx) hp
    | error e => exact .lexical hp

end Preview

open Preview

/-! ## Matches that come to an end -/

section Settled
variable {α : Type} {Q : α → Prop} {r r' : EStateM.Result Stop (Progress Unit) α}

/-- The match did not exceed its depth. -/
def Settled (r : EStateM.Result Stop (Progress Unit) α) : Prop := ∀ p, r ≠ .error .diverged p

theorem Alike.settled (h : Alike apart Q r r') (hr : Settled r) : Settled r' := by
  intro p hp
  cases h with
  | result _ _ => cases hp
  | refused _ => cases hp
  | lexical _ => cases hp
  | diverged _ => exact hr _ rfl
  | excused hl => exact hl

theorem Alike.eq_of_settled (h : Alike deeper Q r r') (hr : Settled r) : r' = r := by
  cases h with
  | result _ hp => rw [show _ = _ from hp]
  | refused hp => rw [show _ = _ from hp]
  | lexical hp => rw [show _ = _ from hp]
  | diverged hp => rw [show _ = _ from hp]
  | excused _ => exact absurd rfl (hr _)

theorem alike_of_not_settled (h : ¬ Settled r) : Alike deeper Q r r' := by
  obtain ⟨p, hp⟩ := not_forall.mp h
  rw [not_not.mp hp]
  exact .excused trivial

end Settled

namespace Grammar

variable {g : Grammar} {v : Preview} {size : Nat}

/-- The match of a rule at a position comes to an end within the depth. -/
def SettlesAt (g : Grammar) (v : Preview) (depth : Nat) (id : RuleId) (pos : Nat) : Prop :=
  ∃ p, Settled (g.matchRule v.look depth id pos p)

/-- Whether a match ends does not depend on the expectations recorded before. -/
theorem SettlesAt.settled (hv : v.EndsBy size) {depth : Nat} {id : RuleId} {pos : Nat}
    (hpos : pos ≤ size) (h : g.SettlesAt v depth id pos) (p : Progress Unit) :
    Settled (g.matchRule v.look depth id pos p) := by
  obtain ⟨p₀, h₀⟩ := h
  have halike := follows_matchRule (g := g) hv.paired_apart (Or.inl (rfl : depth = depth)) id hpos
  exact (halike p₀ p trivial).settled h₀

theorem SettlesAt.succ (hv : v.EndsBy size) {depth : Nat} {id : RuleId} {pos : Nat}
    (hpos : pos ≤ size) (h : g.SettlesAt v depth id pos) (p : Progress Unit) :
    g.matchRule v.look (depth + 1) id pos p = g.matchRule v.look depth id pos p := by
  have hmore := follows_matchRule (g := g) hv.paired_deeper
    (Or.inr ⟨trivial, Nat.le_succ depth⟩) id hpos
  exact (hmore p p rfl).eq_of_settled (h.settled hv hpos p)

theorem SettlesAt.deeper (hv : v.EndsBy size) {depth : Nat} {id : RuleId} {pos : Nat}
    (hpos : pos ≤ size) (h : g.SettlesAt v depth id pos) : g.SettlesAt v (depth + 1) id pos := by
  obtain ⟨p, hp⟩ := h
  refine ⟨p, ?_⟩
  rw [SettlesAt.succ hv hpos ⟨p, hp⟩ p]
  exact hp

/-- Different pairs of a rule and a position are limited in number. -/
theorem length_visited {visited : List (RuleId × Nat)} (hnodup : visited.Nodup)
    (hrange : ∀ w ∈ visited, w.1 < g.rules.length ∧ w.2 ≤ size) :
    visited.length ≤ g.rules.length * (size + 1) := by
  have hsub : visited ⊆ List.range g.rules.length ×ˢ List.range (size + 1) := by
    intro w hw
    obtain ⟨hid, hpos⟩ := hrange w hw
    exact List.mem_product.mpr ⟨List.mem_range.mpr hid, List.mem_range.mpr (Nat.lt_succ_of_le hpos)⟩
  have hlen := hnodup.length_le_of_subset hsub
  rwa [List.length_product, List.length_range, List.length_range] at hlen

theorem depthFor_mono (g : Grammar) {size size' : Nat} (h : size ≤ size') :
    g.depthFor size ≤ g.depthFor size' := by
  have hrules : g.rules.length * (size + 1) ≤ g.rules.length * (size' + 1) :=
    Nat.mul_le_mul_left _ (Nat.succ_le_succ h)
  unfold depthFor
  omega

/-- The pairs in `visited` are open around this one and do not end within `depth`. If the match of
this one does, it is none of them, nor is any that it opens. -/
theorem follows_of_depthFor (hv : v.EndsBy size) (depth : Nat) (visited : List (RuleId × Nat))
    (hnodup : visited.Nodup) (hrange : ∀ w ∈ visited, w.1 < g.rules.length ∧ w.2 ≤ size)
    (hopen : ∀ w ∈ visited, ¬ g.SettlesAt v depth w.1 w.2) {depth' : Nat}
    (hdepth : g.depthFor size ≤ depth' + visited.length) (id : RuleId) {pos : Nat}
    (hpos : pos ≤ size) :
    Follows deeper (g.matchRule v.look depth id pos) (g.matchRule v.look depth' id pos)
      (Matched.Within size pos) := by
  induction depth generalizing visited depth' id pos with
  | zero => exact fun _ _ _ => .excused trivial
  | succ depth ih =>
    have hlen := length_visited hnodup hrange
    unfold depthFor at hdepth
    obtain ⟨rest, rfl⟩ : ∃ rest, depth' = rest + 1 := ⟨depth' - 1, by omega⟩
    have hopen' : ∀ w ∈ visited, ¬ g.SettlesAt v depth w.1 w.2 := fun w hw h =>
      hopen w hw (h.deeper hv (hrange w hw).2)
    by_cases hless : g.SettlesAt v depth id pos
    · -- the match ends earlier, and there it is the match with one level less
      intro p p' hp
      rw [hless.succ hv hpos p]
      exact ih visited hnodup hrange hopen' hdepth id hpos p p' hp
    · by_cases hnow : g.SettlesAt v (depth + 1) id pos
      · cases hrule : g.rule? id with
        | none =>
          unfold matchRule
          rw [hrule]
          exact follows_refuse hv.paired_deeper pos _
        | some rule =>
          have hfresh : (id, pos) ∉ visited := fun hmem => hopen (id, pos) hmem hnow
          refine follows_matchRule_succ hv.paired_deeper (fun id' pos' hpos' => ?_)
            (Or.inr ⟨trivial, Or.inr (by omega)⟩) id hpos
          refine ih ((id, pos) :: visited) (List.nodup_cons.mpr ⟨hfresh, hnodup⟩) ?_ ?_ ?_ id' hpos'
          · exact List.forall_mem_cons.mpr ⟨⟨lt_of_rule? hrule, hpos⟩, hrange⟩
          · exact List.forall_mem_cons.mpr ⟨hless, hopen'⟩
          · simp only [depthFor, List.length_cons]
            omega
      · exact fun p p' _ => alike_of_not_settled fun h => hnow ⟨p, h⟩

/-! ## Parsing a preview -/

/-- The parse of what a preview shows, with at most `depth` rules inside each other. -/
def parsePreview (g : Grammar) (depth : Nat) (v : Preview) : Except ParseError ParseTree :=
  match g.matchAll v.look depth ⟨(), .start⟩ with
  | .ok (tree, _) _ => .ok tree
  | .error stop p => .error (errorOf v.look stop p).1

theorem settled_of_parsePreview {depth : Nat} (h : g.parsePreview depth v ≠ .error .diverged) :
    Settled (g.matchAll v.look depth ⟨(), .start⟩) := by
  intro p hp
  refine h ?_
  rw [parsePreview, hp]
  rfl

/-- A parse that ends at any depth ends in the same way at every depth from `depthFor` on. -/
theorem parsePreview_eq (hv : v.EndsBy size) {depth depth' : Nat}
    (h : g.parsePreview depth v ≠ .error .diverged) (hdepth : g.depthFor size ≤ depth') :
    g.parsePreview depth' v = g.parsePreview depth v := by
  have hrule := follows_of_depthFor (g := g) hv depth [] List.nodup_nil
    (fun _ hw => absurd hw List.not_mem_nil) (fun _ hw => absurd hw List.not_mem_nil) hdepth g.entry
    (Nat.zero_le size)
  have hall := follows_matchAll hv.paired_deeper hrule ⟨(), .start⟩ ⟨(), .start⟩ rfl
  rw [parsePreview, hall.eq_of_settled (settled_of_parsePreview h)]
  rfl

theorem parsePreview_depthFor (hv : v.EndsBy size) {depth depth' : Nat}
    (hdepth : g.depthFor size ≤ depth) (hdepth' : g.depthFor size ≤ depth') :
    g.parsePreview depth v = g.parsePreview depth' v := by
  by_cases h : g.parsePreview depth v = .error .diverged
  · by_cases h' : g.parsePreview depth' v = .error .diverged
    · rw [h, h']
    · exact parsePreview_eq hv h' hdepth
  · exact (parsePreview_eq hv h hdepth').symm

end Grammar
end HandlerGrammar
