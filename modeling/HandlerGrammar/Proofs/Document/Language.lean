import HandlerGrammar.Proofs.Matching.Derivation
import HandlerGrammar.Registry.Document

/-! # The language of documents

A forest of handlers declares a language, defined here without regard to rules and matching.

* `HandlerTree.flattened`: the handlers whose members stand in a container;
* `Part`: what stands in a document, `Part.alternatives` what may stand for what;
* `offers`: the members that the handlers nested in a container offer;
* `Phrase`: the sequences of tokens that a part consists of. -/
namespace HandlerGrammar
set_option autoImplicit false

namespace HandlerTree

variable {C : Type}

mutual
/-- The handlers whose members stand in a container: those nested in it that are no wrappers, with
those of the wrappers nested in it. -/
def flattened : List (HandlerTree C) → List (HandlerTree C)
  | [] => []
  | t :: ts => unwrapped t ++ flattened ts

def unwrapped : HandlerTree C → List (HandlerTree C)
  | .node h children => if h.mode = .wrapper then flattened children else [.node h children]
end

end HandlerTree

/-- What stands in a document. A braced or bracketed part knows its label and the groups that are
gathered from its members; they say what nodes it makes and do not concern its tokens.

* `token`: one token of a kind that becomes a leaf;
* `key`, `scalar`, `generic`, `property`: what generic JSON consists of;
* `braces`, `brackets`: a possibly empty list of items in its delimiters;
* `items`, `next`, `rest`: a list of one item or more, a comma with an item, any number of these;
* `optional`: a part that may be absent;
* `member`: one member of a container with the given handlers nested in it;
* `keyed`: the member of one handler;
* `root`, `document`: the value of one root, or of any of them. -/
inductive Part (C : Type) where
  | token (x : Terminal)
  | key
  | scalar
  | generic
  | property
  | braces (label? : Option String) (groups : List (String × List String)) (item : Part C)
  | brackets (label? : Option String) (item : Part C)
  | items (item : Part C)
  | next (item : Part C)
  | rest (item : Part C)
  | optional (part : Part C)
  | member (children : List (HandlerTree C))
  | keyed (handler : HandlerTree C)
  | root (handler : HandlerTree C)
  | document (roots : List (HandlerTree C))

namespace Part

variable {C : Type}

/-- Generic JSON objects and arrays. -/
def object : Part C := .braces (some objectLabel) [] .property
def array : Part C := .brackets (some arrayLabel) .generic

mutual
/-- The members that nested handlers offer to the container around them: `name : value` for one that
is no wrapper, for a wrapper those of its own handlers, or any property if it has none. -/
def offers : List (HandlerTree C) → List (Part C)
  | [] => []
  | t :: ts => offered t ++ offers ts

def offered : HandlerTree C → List (Part C)
  | .node h children =>
    if h.mode = .wrapper then
      if children.isEmpty then [.property] else offers children
    else [.keyed (.node h children)]
end

/-- An item of a container; without nested handlers any property is one. -/
def itemOf (children : List (HandlerTree C)) : Part C :=
  if children.isEmpty then .property else .member children

/-- Members in braces, for the handlers nested in a container. -/
def container (children : List (HandlerTree C)) : Part C :=
  .braces none (HandlerTree.wrapperGroups children) (itemOf children)

/-- The value of a handler. An element of an array is a container of the nested handlers, or any
value if there are none. -/
def valueOf (t : HandlerTree C) : Part C :=
  match t.handler.mode with
  | .primary => .scalar
  | .wrapper | .object => container t.children
  | .array => .brackets none (if t.children.isEmpty then .generic else container t.children)

/-- The parts any one of which makes up the given part. -/
def alternatives : Part C → List (Part C)
  | scalar => [.token (.token .number), .token (.token .string), .token (.token .bool),
      .token (.keyword "null")]
  | key => [.token (.token .string), .token (.token .identifier), .token (.token .reserved)]
  | generic => [object, array, .scalar]
  | member children => offers children
  | document roots => roots.map .root
  | _ => []

end Part

/-- The tokens are written as the part asks for. -/
inductive Phrase {C : Type} : Part C → List Token → Prop
  | token {x : Terminal} {t : Token} : x.isKept = true → x.accepts t = true → Phrase (.token x) [t]
  | choice {p q : Part C} {ts : List Token} : q ∈ p.alternatives → Phrase q ts → Phrase p ts
  | property {ks ts : List Token} {c : Token} : Phrase .key ks →
      (Terminal.separator ":").accepts c = true → Phrase .generic ts →
      Phrase .property (ks ++ c :: ts)
  | keyed {h : HandlerTree C} {k c : Token} {ts : List Token} :
      (Terminal.keyword h.name).accepts k = true → (Terminal.separator ":").accepts c = true →
      Phrase (Part.valueOf h) ts → Phrase (.keyed h) (k :: c :: ts)
  | root {h : HandlerTree C} {ts : List Token} : Phrase (Part.valueOf h) ts → Phrase (.root h) ts
  | braces {label? : Option String} {groups : List (String × List String)} {p : Part C}
      {l r : Token} {ts : List Token} : (Terminal.separator "\x7b").accepts l = true →
      Phrase (.optional (.items p)) ts → (Terminal.separator "\x7d").accepts r = true →
      Phrase (.braces label? groups p) (l :: (ts ++ [r]))
  | brackets {label? : Option String} {p : Part C} {l r : Token} {ts : List Token} :
      (Terminal.separator "[").accepts l = true →
      Phrase (.optional (.items p)) ts → (Terminal.separator "]").accepts r = true →
      Phrase (.brackets label? p) (l :: (ts ++ [r]))
  | items {p : Part C} {ts us : List Token} : Phrase p ts → Phrase (.rest p) us →
      Phrase (.items p) (ts ++ us)
  | next {p : Part C} {c : Token} {ts : List Token} : (Terminal.separator ",").accepts c = true →
      Phrase p ts → Phrase (.next p) (c :: ts)
  | last {p : Part C} : Phrase (.rest p) []
  | further {p : Part C} {ts us : List Token} : Phrase (.next p) ts → Phrase (.rest p) us →
      Phrase (.rest p) (ts ++ us)
  | absent {p : Part C} : Phrase (.optional p) []
  | present {p : Part C} {ts : List Token} : Phrase p ts → Phrase (.optional p) ts

/-! ## Values delimit themselves -/

namespace Token

/-- How a token changes the number of open braces and brackets. -/
def weight (t : Token) : Int :=
  if t.kind = .separator then
    if t.text = "\x7b" ∨ t.text = "[" then 1
    else if t.text = "\x7d" ∨ t.text = "]" then -1
    else 0
  else 0

end Token

/-- How many more braces and brackets are opened than closed. -/
def openings : List Token → Int
  | [] => 0
  | t :: ts => t.weight + openings ts

/-- As many are closed as opened, and none before it was opened. -/
structure Balanced (ts : List Token) : Prop where
  closed : openings ts = 0
  nonneg : ∀ n, 0 ≤ openings (ts.take n)

/-- The last token is the first behind which nothing is open. -/
structure Delimited (ts : List Token) : Prop where
  nonempty : ts ≠ []
  closed : openings ts = 0
  pos : ∀ n, 0 < n → n < ts.length → 0 < openings (ts.take n)

theorem openings_append (ts us : List Token) : openings (ts ++ us) = openings ts + openings us := by
  induction ts with
  | nil => exact (Int.zero_add _).symm
  | cons t ts ih =>
    simp only [List.cons_append, openings, ih]
    omega

theorem balanced_nil : Balanced [] := ⟨rfl, fun n => by simp [openings]⟩

theorem Balanced.append {ts us : List Token} (h : Balanced ts) (h' : Balanced us) :
    Balanced (ts ++ us) where
  closed := by rw [openings_append, h.closed, h'.closed]; rfl
  nonneg n := by
    have hts := h.nonneg n
    have hus := h'.nonneg (n - ts.length)
    rw [List.take_append, openings_append]
    omega

theorem balanced_singleton {t : Token} (h : t.weight = 0) : Balanced [t] where
  closed := by rw [openings, h]; rfl
  nonneg n := by
    cases n with
    | zero => simp [openings]
    | succ n => simp [openings, h]

theorem delimited_singleton {t : Token} (h : t.weight = 0) : Delimited [t] where
  nonempty := by simp
  closed := (balanced_singleton h).closed
  pos n hn hlen := by
    simp only [List.length_singleton] at hlen
    omega

theorem Delimited.balanced {ts : List Token} (h : Delimited ts) : Balanced ts where
  closed := h.closed
  nonneg n := by
    by_cases hn : 0 < n ∧ n < ts.length
    · exact Int.le_of_lt (h.pos n hn.1 hn.2)
    · by_cases hzero : n = 0
      · simp [hzero, openings]
      · rw [List.take_of_length_le (by omega)]
        exact Int.le_of_eq h.closed.symm

theorem Balanced.enclosed {ts : List Token} (h : Balanced ts) {l r : Token} (hl : l.weight = 1)
    (hr : r.weight = -1) : Delimited (l :: (ts ++ [r])) where
  nonempty := by simp
  closed := by
    rw [openings, openings_append, h.closed, openings, hl, hr]
    rfl
  pos n hn hlen := by
    obtain ⟨n, rfl⟩ : ∃ k, n = k + 1 := ⟨n - 1, by omega⟩
    simp only [List.length_cons, List.length_append, List.length_nil] at hlen
    have hinner := h.nonneg n
    rw [List.take_succ_cons, openings, hl, List.take_append_of_le_length (by omega)]
    omega

theorem Delimited.length_eq {toks : Nat → Token} {pos : Nat} {ts us : List Token}
    (h : Delimited ts) (h' : Delimited us) (hts : Reads toks pos ts) (hus : Reads toks pos us) :
    ts.length = us.length := by
  have hle : ∀ {ts us : List Token}, Delimited ts → Delimited us → Reads toks pos ts →
      Reads toks pos us → us.length ≤ ts.length := by
    intro ts us h h' hts hus
    rw [reads_iff] at hts hus
    by_cases hlt : ts.length < us.length
    · have htake : us.take ts.length = ts := by
        refine List.ext_getElem (by simp only [List.length_take]; omega) fun i hi hi' => ?_
        rw [List.getElem_take, ← hus i (by omega), hts i hi']
      have hpos := h'.pos ts.length (List.length_pos_iff.mpr h.nonempty) hlt
      rw [htake, h.closed] at hpos
      omega
    · omega
  exact Nat.le_antisymm (hle h' h hus hts) (hle h h' hts hus)

/-! ## The shape of phrases -/

theorem kind_of_isKept {x : Terminal} {t : Token} (hx : x.isKept = true) (h : x.accepts t = true) :
    t.kind ≠ .separator := by
  intro hk
  cases x with
  | separator text => cases hx
  | keyword word => simp [Terminal.accepts, hk] at h
  | token c => cases c <;> simp [Terminal.accepts, TokenClass.accepts, hk, Kind.isNumber] at h

theorem weight_of_isKept {x : Terminal} {t : Token} (hx : x.isKept = true) (h : x.accepts t = true) :
    t.weight = 0 := by
  simp [Token.weight, kind_of_isKept hx h]

theorem weight_of_separator {text : String} {t : Token}
    (h : (Terminal.separator text).accepts t = true) :
    t.weight = if text = "\x7b" ∨ text = "[" then 1
      else if text = "\x7d" ∨ text = "]" then -1 else 0 := by
  simp only [Terminal.accepts, Bool.and_eq_true, beq_iff_eq] at h
  rw [Token.weight, if_pos h.1, h.2]

/-- A member is a key, a colon and a value. -/
def MemberShaped (ts : List Token) : Prop :=
  ∃ k c vs, ts = k :: c :: vs ∧ k.weight = 0 ∧ c.weight = 0 ∧ Delimited vs

/-- What the tokens of a part look like: a single token, a delimited value, a member, or balanced
at least. -/
def Part.Shape {C : Type} : Part C → List Token → Prop
  | token _, ts | key, ts | scalar, ts => ∃ t : Token, ts = [t] ∧ t.weight = 0
  | generic, ts | braces _ _ _, ts | brackets _ _, ts | root _, ts | document _, ts => Delimited ts
  | property, ts | keyed _, ts | member _, ts => MemberShaped ts
  | items _, ts | next _, ts | rest _, ts | optional _, ts => Balanced ts

theorem MemberShaped.balanced {ts : List Token} (h : MemberShaped ts) : Balanced ts := by
  obtain ⟨k, c, vs, rfl, hk, hc, hvs⟩ := h
  exact (balanced_singleton hk).append ((balanced_singleton hc).append hvs.balanced)

theorem MemberShaped.length_eq {toks : Nat → Token} {pos : Nat} {ts us : List Token}
    (h : MemberShaped ts) (h' : MemberShaped us) (hts : Reads toks pos ts)
    (hus : Reads toks pos us) : ts.length = us.length := by
  obtain ⟨k, c, vs, rfl, -, -, hvs⟩ := h
  obtain ⟨k', c', vs', rfl, -, -, hvs'⟩ := h'
  have hlen := hvs.length_eq hvs' hts.2.2 hus.2.2
  simp only [List.length_cons, hlen]

namespace Part

variable {C : Type} {p : Part C} {ts : List Token}

theorem Shape.balanced (h : p.Shape ts) : Balanced ts := by
  cases p with
  | token _ | key | scalar =>
    obtain ⟨t, rfl, ht⟩ := h
    exact balanced_singleton ht
  | generic | braces _ _ _ | brackets _ _ | root _ | document _ => exact Delimited.balanced h
  | property | keyed _ | member _ => exact MemberShaped.balanced h
  | items _ | next _ | rest _ | optional _ => exact h

mutual
/-- Each member offered is that of a handler whose members stand in the container, or generic. -/
theorem mem_offers {children : List (HandlerTree C)} {q : Part C} (h : q ∈ offers children) :
    q = .property ∨ ∃ t ∈ HandlerTree.flattened children, q = .keyed t := by
  match children with
  | [] => cases h
  | t :: ts =>
    rcases List.mem_append.mp h with h | h
    · rcases mem_offered h with h | ⟨u, hu, h⟩
      · exact Or.inl h
      · exact Or.inr ⟨u, List.mem_append_left _ hu, h⟩
    · rcases mem_offers h with h | ⟨u, hu, h⟩
      · exact Or.inl h
      · exact Or.inr ⟨u, List.mem_append_right _ hu, h⟩

theorem mem_offered {t : HandlerTree C} {q : Part C} (h : q ∈ offered t) :
    q = .property ∨ ∃ u ∈ HandlerTree.unwrapped t, q = .keyed u := by
  match t with
  | .node handler children =>
    unfold offered at h
    unfold HandlerTree.unwrapped
    split at h
    · next hmode =>
      rw [if_pos hmode]
      split at h
      · exact Or.inl (List.mem_singleton.mp h)
      · exact mem_offers h
    · next hmode =>
      rw [if_neg hmode]
      exact Or.inr ⟨_, List.mem_singleton_self _, List.mem_singleton.mp h⟩
end

theorem delimited_of_single (h : ∃ t : Token, ts = [t] ∧ t.weight = 0) : Delimited ts := by
  obtain ⟨t, rfl, ht⟩ := h
  exact delimited_singleton ht

theorem Shape.of_alternative {q : Part C} (hq : q ∈ p.alternatives) (h : q.Shape ts) :
    p.Shape ts := by
  cases p with
  | scalar | key =>
    simp only [alternatives, List.mem_cons, List.not_mem_nil, or_false] at hq
    rcases hq with rfl | rfl | rfl | rfl <;> exact h
  | generic =>
    simp only [alternatives, List.mem_cons, List.not_mem_nil, or_false] at hq
    rcases hq with rfl | rfl | rfl
    · exact h
    · exact h
    · exact delimited_of_single h
  | member children =>
    rcases mem_offers hq with rfl | ⟨t, -, rfl⟩
    · exact h
    · exact h
  | document roots =>
    obtain ⟨t, -, rfl⟩ := List.mem_map.mp hq
    exact h
  | _ => cases hq

theorem Shape.of_valueOf {t : HandlerTree C} (h : (valueOf t).Shape ts) : Delimited ts := by
  unfold valueOf at h
  cases hmode : t.handler.mode <;> rw [hmode] at h
  · exact delimited_of_single h
  · exact h
  · exact h
  · exact h

end Part

theorem Phrase.shape {C : Type} {p : Part C} {ts : List Token} (h : Phrase p ts) : p.Shape ts := by
  induction h with
  | token hx ht => exact ⟨_, rfl, weight_of_isKept hx ht⟩
  | choice hq _ ih => exact .of_alternative hq ih
  | property _ hc _ ihkey ihvalue =>
    obtain ⟨k, rfl, hk⟩ := ihkey
    exact ⟨k, _, _, rfl, hk, weight_of_separator hc, ihvalue⟩
  | keyed hk hc _ ih =>
    exact ⟨_, _, _, rfl, weight_of_isKept rfl hk, weight_of_separator hc, ih.of_valueOf⟩
  | root _ ih => exact ih.of_valueOf
  | braces hl _ hr ih | brackets hl _ hr ih =>
    exact Balanced.enclosed ih (weight_of_separator hl) (weight_of_separator hr)
  | items _ _ ihfirst ihrest | further _ _ ihfirst ihrest => exact ihfirst.balanced.append ihrest
  | next hc _ ih => exact (balanced_singleton (weight_of_separator hc)).append ih.balanced
  | last => exact balanced_nil
  | absent => exact balanced_nil
  | present _ ih => exact ih.balanced

end HandlerGrammar
