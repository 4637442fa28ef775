import HandlerGrammar.Proofs.Arena.Calls
import HandlerGrammar.Registry.Document

/-! # The arena calls of drafting

Drafting touches its arena by calls only. A transcript lists the calls that a drafting makes, in
order, as it is put together of its steps; performed by themselves, they make the same arena.

* `Transcript`: a run with its calls;
* `Transcript.run`, `Transcript.performs`: what it says of the draft and of the arena;
* `Transcribed`: each successful run has a transcript;
* `transcribed_generic`, `transcribed_container`, `transcribed_alternatives`, `transcribed_entry`:
  one fact for each function. -/
namespace HandlerGrammar
open ArenaCall
set_option autoImplicit false

variable {α β : Type}

/-- Drafting from a draft makes the calls and gives a result and a new draft. -/
inductive Transcript : {α : Type} → Drafting α → Draft → List ArenaCall → α → Draft → Prop
  | pure {α : Type} (a : α) (d : Draft) : Transcript (Pure.pure a) d [] a d
  | bind {α β : Type} {m : Drafting α} {f : α → Drafting β} {d d' d'' : Draft}
      {cs cs' : List ArenaCall} {a : α} {b : β} :
      Transcript m d cs a d' → Transcript (f a) d' cs' b d'' → Transcript (m >>= f) d (cs ++ cs') b d''
  | get (d : Draft) : Transcript get d [] d d
  | keep {f : Draft → Draft} (hf : ∀ d, (f d).arena = d.arena) (d : Draft) :
      Transcript (modify f) d [] ⟨⟩ (f d)
  | declare (name : String) (d : Draft) : Transcript (Draft.declare name) d [.declare name]
      d.arena.slots.length { d with arena := (d.arena.declare name).2 }
  | add (rule : Rule) (d : Draft) : Transcript (Draft.add rule) d [.add rule]
      d.arena.slots.length { d with arena := (d.arena.add rule).2 }
  | define {id : RuleId} {rule : Rule} {d : Draft} {arena : Arena} :
      d.arena.define id rule = .ok arena →
      Transcript (Draft.define id rule) d [.define id rule] () { d with arena }

theorem Transcript.run {m : Drafting α} {d d' : Draft} {cs : List ArenaCall} {a : α}
    (h : Transcript m d cs a d') : m d = .ok a d' := by
  induction h with
  | pure a d => rfl
  | @bind α β m f d d' d'' cs cs' a b _ _ hm hf =>
    change EStateM.bind m f d = _
    rw [EStateM.bind, hm]
    exact hf
  | get d => rfl
  | keep hf d => rfl
  | declare name d => rfl
  | add rule d => rfl
  | define h =>
    unfold Draft.define
    rw [h]

theorem Transcript.performs {m : Drafting α} {d d' : Draft} {cs : List ArenaCall} {a : α}
    (h : Transcript m d cs a d') : performAll d.arena cs = .ok d'.arena := by
  induction h with
  | pure a d => rfl
  | bind _ _ hm hf => rw [performAll_append hm, hf]
  | get d => rfl
  | keep hf d => rw [hf]; rfl
  | declare name d => rfl
  | add rule d => rfl
  | define h => rw [performAll, perform, h]; rfl

/-- Each run that succeeds has a transcript. -/
def Transcribed (m : Drafting α) : Prop :=
  ∀ d a d', m d = .ok a d' → ∃ cs, Transcript m d cs a d'

theorem transcribed_pure (a : α) : Transcribed (pure a) := by
  intro d b d' h
  cases h
  exact ⟨[], .pure a d⟩

theorem transcribed_bind {m : Drafting α} {f : α → Drafting β} (hm : Transcribed m)
    (hf : ∀ a, Transcribed (f a)) : Transcribed (m >>= f) := by
  intro d b d'' h
  change EStateM.bind m f d = _ at h
  unfold EStateM.bind at h
  cases hrun : m d with
  | error e d' =>
    rw [hrun] at h
    cases h
  | ok a d' =>
    rw [hrun] at h
    obtain ⟨cs, hcs⟩ := hm d a d' hrun
    obtain ⟨cs', hcs'⟩ := hf a d' b d'' h
    exact ⟨cs ++ cs', .bind hcs hcs'⟩

theorem transcribed_throw (e : BuildError) : Transcribed (throw e : Drafting α) := by
  intro d a d' h
  cases h

theorem transcribed_get : Transcribed (get : Drafting Draft) := by
  intro d a d' h
  cases h
  exact ⟨[], .get d⟩

theorem transcribed_keep {f : Draft → Draft} (hf : ∀ d, (f d).arena = d.arena) :
    Transcribed (modify f) := by
  intro d a d' h
  cases h
  exact ⟨[], .keep hf d⟩

namespace Draft

theorem transcribed_declare (name : String) : Transcribed (declare name) := by
  intro d a d' h
  cases h
  exact ⟨_, .declare name d⟩

theorem transcribed_add (rule : Rule) : Transcribed (add rule) := by
  intro d a d' h
  cases h
  exact ⟨_, .add rule d⟩

theorem transcribed_define (id : RuleId) (rule : Rule) : Transcribed (define id rule) := by
  intro d a d' h
  unfold define at h
  cases hdefine : d.arena.define id rule with
  | error e =>
    rw [hdefine] at h
    cases h
  | ok arena =>
    rw [hdefine] at h
    cases h
    exact ⟨_, .define hdefine⟩

/-! ## Shared rules -/

theorem transcribed_list (item : RuleId) : Transcribed (list item) :=
  transcribed_bind (transcribed_add _) fun _ => transcribed_add _

theorem transcribed_scalar : Transcribed scalar := by
  refine transcribed_bind transcribed_get fun d => ?_
  cases d.scalar? with
  | some id => exact transcribed_pure id
  | none =>
    refine transcribed_bind (transcribed_add _) fun _ => ?_
    refine transcribed_bind (transcribed_add _) fun _ => ?_
    refine transcribed_bind (transcribed_add _) fun _ => ?_
    refine transcribed_bind (transcribed_add _) fun _ => ?_
    refine transcribed_bind (transcribed_add _) fun id => ?_
    exact transcribed_bind (transcribed_keep fun _ => rfl) fun _ => transcribed_pure id

theorem transcribed_defineValue (value members scalar : RuleId) :
    Transcribed (defineValue value members scalar) := by
  refine transcribed_bind (transcribed_add _) fun _ => ?_
  refine transcribed_bind (transcribed_list value) fun _ => ?_
  exact transcribed_bind (transcribed_add _) fun _ => transcribed_define _ _

theorem transcribed_addProperty (value : RuleId) : Transcribed (addProperty value) := by
  refine transcribed_bind (transcribed_add _) fun _ => ?_
  refine transcribed_bind (transcribed_add _) fun _ => ?_
  refine transcribed_bind (transcribed_add _) fun _ => ?_
  exact transcribed_bind (transcribed_add _) fun _ => transcribed_add _

theorem transcribed_defineMembers (members property : RuleId) :
    Transcribed (defineMembers members property) :=
  transcribed_bind (transcribed_add _) fun _ => transcribed_define _ _

theorem transcribed_declareValue : Transcribed declareValue := by
  refine transcribed_bind (transcribed_declare _) fun id => ?_
  exact transcribed_bind (transcribed_keep fun _ => rfl) fun _ => transcribed_pure id

theorem transcribed_declareMembers : Transcribed declareMembers := by
  refine transcribed_bind (transcribed_declare _) fun id => ?_
  exact transcribed_bind (transcribed_keep fun _ => rfl) fun _ => transcribed_pure id

theorem transcribed_generic (depth : Nat) :
    Transcribed (value depth) ∧ Transcribed (property depth) ∧ Transcribed (members depth) := by
  induction depth with
  | zero => exact ⟨transcribed_throw _, transcribed_throw _, transcribed_throw _⟩
  | succ depth ih =>
    obtain ⟨hvalue, hproperty, hmembers⟩ := ih
    refine ⟨?_, ?_, ?_⟩
    · refine transcribed_bind transcribed_get fun d => ?_
      cases d.value? with
      | some id => exact transcribed_pure id
      | none =>
        refine transcribed_bind transcribed_declareValue fun value => ?_
        refine transcribed_bind transcribed_scalar fun scalar => ?_
        refine transcribed_bind hmembers fun members => ?_
        exact transcribed_bind (transcribed_defineValue _ _ _) fun _ => transcribed_pure value
    · refine transcribed_bind transcribed_get fun d => ?_
      cases d.property? with
      | some id => exact transcribed_pure id
      | none =>
        refine transcribed_bind hvalue fun value => ?_
        refine transcribed_bind transcribed_get fun d => ?_
        cases d.property? with
        | some id => exact transcribed_pure id
        | none =>
          refine transcribed_bind (transcribed_addProperty value) fun property => ?_
          exact transcribed_bind (transcribed_keep fun _ => rfl) fun _ => transcribed_pure property
    · refine transcribed_bind transcribed_get fun d => ?_
      cases d.members? with
      | some id => exact transcribed_pure id
      | none =>
        refine transcribed_bind transcribed_declareMembers fun members => ?_
        refine transcribed_bind hproperty fun property => ?_
        exact transcribed_bind (transcribed_defineMembers _ _) fun _ => transcribed_pure members

end Draft

/-! ## Handlers -/

namespace HandlerTree

variable {C : Type}

theorem transcribed_container (children : List (HandlerTree C)) {members : Drafting (List RuleId)}
    (hmembers : Transcribed members) : Transcribed (container children members) := by
  refine transcribed_bind hmembers fun ids => ?_
  cases ids with
  | nil =>
    refine transcribed_bind (Draft.transcribed_generic Draft.genericDepth).2.2 fun _ => ?_
    exact Draft.transcribed_add _
  | cons id ids =>
    refine transcribed_bind (Draft.transcribed_add _) fun member => ?_
    refine transcribed_bind (Draft.transcribed_list member) fun _ => ?_
    exact Draft.transcribed_add _

theorem transcribed_value (mode : Mode) (children : List (HandlerTree C))
    {members : Drafting (List RuleId)} (hmembers : Transcribed members) :
    Transcribed (value mode children members) := by
  have hbrackets : ∀ element : RuleId, Transcribed (do
      let elements ← Draft.list element
      Draft.add (.plain [.separator "[", .optional elements, .separator "]"])) := fun element =>
    transcribed_bind (Draft.transcribed_list element) fun _ => Draft.transcribed_add _
  cases mode with
  | primary => exact Draft.transcribed_scalar
  | wrapper => exact transcribed_container children hmembers
  | object => exact transcribed_container children hmembers
  | array =>
    unfold value
    dsimp only
    split
    · exact transcribed_bind (Draft.transcribed_generic Draft.genericDepth).1 hbrackets
    · exact transcribed_bind (transcribed_container children hmembers) hbrackets

mutual
theorem transcribed_alternatives (ts : List (HandlerTree C)) : Transcribed (alternatives ts) := by
  match ts with
  | [] => exact transcribed_pure []
  | t :: ts =>
    refine transcribed_bind (transcribed_offered t) fun first => ?_
    exact transcribed_bind (transcribed_alternatives ts) fun others => transcribed_pure _

theorem transcribed_offered (t : HandlerTree C) : Transcribed (offered t) := by
  match t with
  | .node h children =>
    unfold offered
    split
    · split
      · exact transcribed_bind (Draft.transcribed_generic Draft.genericDepth).2.1 fun _ =>
          transcribed_pure _
      · exact transcribed_alternatives children
    · refine transcribed_bind (transcribed_value _ _ (transcribed_alternatives children)) fun _ => ?_
      exact transcribed_bind (Draft.transcribed_add _) fun _ => transcribed_pure _
end

theorem transcribed_root (t : HandlerTree C) : Transcribed (root t) := by
  obtain ⟨h, children⟩ := t
  refine transcribed_bind (transcribed_value _ _ (transcribed_alternatives children)) fun _ => ?_
  exact Draft.transcribed_add _

theorem transcribed_roots (roots : List (HandlerTree C)) : Transcribed (roots.mapM root) := by
  induction roots with
  | nil => exact transcribed_pure []
  | cons t ts ih =>
    rw [List.mapM_cons]
    refine transcribed_bind (transcribed_root t) fun _ => ?_
    exact transcribed_bind ih fun _ => transcribed_pure _

theorem transcribed_entry (roots : List (HandlerTree C)) : Transcribed (entry roots) := by
  refine transcribed_bind (transcribed_roots roots) fun ids => ?_
  match ids with
  | [] => exact transcribed_throw _
  | [id] => exact transcribed_pure id
  | id :: id' :: ids => exact Draft.transcribed_add _

end HandlerTree
end HandlerGrammar
