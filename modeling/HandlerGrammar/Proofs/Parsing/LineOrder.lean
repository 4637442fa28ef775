import HandlerGrammar.Proofs.Parsing.Session

/-! # Lines of tokens

Lines are pulled in order and each is cut from left to right. So whatever has been asked of a stream,
of the tokens still to come none stands on an earlier line than the one before it.

* `linesAscend_readings`: the tokens of the lines;
* `View.scanned_attend`: requests take tokens from the front only;
* `linesAscend_attend`: the tokens still to come. -/
namespace HandlerGrammar
open Text
set_option autoImplicit false

/-- No token stands on an earlier line than the one before it. -/
def LinesAscend (ts : List Token) : Prop := ts.Pairwise fun t u => t.line ≤ u.line

theorem LinesAscend.sublist {ts us : List Token} (h : LinesAscend us) (hsub : ts.Sublist us) :
    LinesAscend ts := List.Pairwise.sublist hsub h

theorem LinesAscend.lines {ts : List Token} (h : LinesAscend ts) :
    (ts.map Token.line).Pairwise (· ≤ ·) := List.pairwise_map.mpr h

theorem LinesAscend.head_le {ts : List Token} (h : LinesAscend ts) {t : Token}
    (ht : ts.head? = some t) : ∀ u ∈ ts, t.line ≤ u.line := by
  cases ts with
  | nil => cases ht
  | cons t' ts =>
    obtain rfl := Option.some.inj ht
    exact List.forall_mem_cons.mpr ⟨Nat.le_refl _, (List.pairwise_cons.mp h).1⟩

theorem LinesAscend.reserve {ts : List Token} (h : LinesAscend ts) (p : String → Bool) :
    LinesAscend (ts.map (Token.reserve p)) := by
  refine List.pairwise_map.mpr (List.Pairwise.imp (fun {t u} hle => ?_) h)
  rw [Token.line_reserve, Token.line_reserve]
  exact hle

/-- The lines are counted from the given number on, and the tokens stand on them in order. -/
theorem linesAscend_readings (isIgnored : String → Bool) (line : Nat) (lines : List SourceLine) :
    LinesAscend (scannedTokens (readings isIgnored line lines)) ∧
      ∀ t ∈ scannedTokens (readings isIgnored line lines), line < t.line := by
  induction lines generalizing line with
  | nil => exact ⟨List.Pairwise.nil, fun _ h => nomatch h⟩
  | cons l lines ih =>
    cases l with
    | undecodable => exact ih line
    | text chars =>
      obtain ⟨hrest, hlater⟩ := ih (line + 1)
      have hhere : ∀ t ∈ (lineTokens isIgnored (line + 1) chars).toOption.getD [],
          t.line = line + 1 := by
        cases hl : lineTokens isIgnored (line + 1) chars with
        | error e => exact fun _ h => nomatch h
        | ok ts => exact forall_lineTokens (fun _ _ => line_of_token?) hl
      have hsplit : scannedTokens (readings isIgnored line (.text chars :: lines)) =
          (lineTokens isIgnored (line + 1) chars).toOption.getD [] ++
            scannedTokens (readings isIgnored (line + 1) lines) := rfl
      rw [hsplit]
      refine ⟨List.pairwise_append.mpr ⟨?_, hrest, fun t ht u hu => ?_⟩, fun t ht => ?_⟩
      · exact List.pairwise_of_forall_mem_list fun t ht u hu => by rw [hhere t ht, hhere u hu]
      · rw [hhere t ht]
        exact Nat.le_of_lt (hlater u hu)
      · rcases List.mem_append.mp ht with ht | ht
        · rw [hhere t ht]
          exact Nat.lt_succ_self line
        · exact Nat.lt_of_succ_lt (hlater t ht)

namespace View

/-- A request takes tokens from the front, if it takes any. -/
theorem scanned_answer (r : Request) (v : View) : (v.answer r).2.scanned <:+ v.scanned := by
  have htail : ({ v with events := v.events.tail } : View).scanned <:+ v.scanned := by
    unfold scanned
    cases v.events with
    | nil => exact List.suffix_refl _
    | cons event events =>
      cases event with
      | error e => exact List.suffix_refl _
      | ok t => exact List.suffix_cons t _
  have hnone : ∀ v' : View, v'.events = [] → v'.scanned <:+ v.scanned := fun v' h => by
    rw [scanned, h]
    exact List.nil_suffix
  have hpass : v.passFault.scanned <:+ v.scanned := by
    simp only [scanned_passFault, List.suffix_refl]
  cases r with
  | isReserved w => exact List.suffix_refl _
  | call c =>
    cases c with
    | read =>
      simp only [answer, run]
      split
      · exact htail
      · exact hpass
    | peek k =>
      simp only [answer, run]
      split
      · exact List.suffix_refl _
      · exact hpass
    | tokens =>
      simp only [answer, run]
      split
      · exact hnone _ rfl
      · exact hpass
    | reserve w => exact List.suffix_refl _
    | release w => exact List.suffix_refl _
  | parse g =>
    simp only [answer, parse]
    split
    · exact hnone _ rfl
    · exact hpass
    · exact List.suffix_refl _

theorem scanned_attend (rs : List Request) (v : View) : (v.attend rs).2.scanned <:+ v.scanned := by
  induction rs generalizing v with
  | nil => exact List.suffix_refl _
  | cons r rs ih => exact (ih _).trans (scanned_answer r v)

end View

/-- Whatever has been asked of a stream, the tokens still to come stand in the order of their lines. -/
theorem linesAscend_attend (v : Vocabulary) (bytes : List UInt8) (before : List Request) :
    LinesAscend (attend before (.ofBytes v bytes)).2.pending := by
  have hview : (attend before (.ofBytes v bytes)).2.view =
      ((TokenStream.ofBytes v bytes).view.attend before).2 :=
    congrArg Prod.snd (view_attend before (TokenStream.classified_ofLines v _)).1
  have hsuffix := View.scanned_attend before (TokenStream.ofBytes v bytes).view
  rw [← hview, TokenStream.scanned_view, TokenStream.scanned_view] at hsuffix
  exact (linesAscend_readings v.isIgnored 0 (sourceLines bytes)).1.sublist hsuffix.sublist

end HandlerGrammar
