import HandlerGrammar.Text.Source

/-! # Lines of a text

Sources are bytes, texts are characters. A line feed is one byte, and no other character has that
byte in its encoding, so cutting the bytes of a text into lines is cutting the text.

* `utf8`: the bytes of a text;
* `splitText`: the lines of a text, `splitLines_utf8`;
* `chomp`: a line without a carriage return at its end, `sourceLines_utf8`;
* `newline_not_mem`: no line of a source has a line feed in it. -/
namespace HandlerGrammar.Text
set_option autoImplicit false

/-- The bytes of a text. -/
def utf8 (cs : List Char) : List UInt8 := (String.ofList cs).toUTF8.data.toList

theorem utf8_eq (cs : List Char) : utf8 cs = cs.flatMap String.utf8EncodeChar := by
  simp [utf8, String.toUTF8, List.utf8Encode]

/-- A line feed is a byte that nothing else has in it. -/
theorem ten_mem_encode_iff (c : Char) : 10 ∈ String.utf8EncodeChar c ↔ c = '\n' := by
  have hbyte : ∀ n : Nat, (10 : UInt8) = UInt8.ofNat n ↔ n % 256 = 10 := by
    intro n
    rw [← UInt8.toNat_inj, UInt8.toNat_ofNat', eq_comm]
    rfl
  have hchar : c = '\n' ↔ c.val.toNat = 10 := by
    rw [Char.ext_iff, ← UInt32.toNat_inj]
    rfl
  rw [hchar]
  unfold String.utf8EncodeChar
  dsimp only
  split
  · simp only [List.mem_singleton, hbyte]
    omega
  -- the bytes of anything longer are 128 or more
  · split
    · simp only [List.mem_cons, List.not_mem_nil, or_false, hbyte]
      omega
    · split
      · simp only [List.mem_cons, List.not_mem_nil, or_false, hbyte]
        omega
      · simp only [List.mem_cons, List.not_mem_nil, or_false, hbyte]
        omega

theorem encode_newline : String.utf8EncodeChar '\n' = [10] := by decide

theorem encode_ne_nil (c : Char) : String.utf8EncodeChar c ≠ [] := by
  unfold String.utf8EncodeChar
  dsimp only
  split
  · simp
  · split
    · simp
    · split <;> simp

theorem ten_mem_utf8_iff (cs : List Char) : 10 ∈ utf8 cs ↔ '\n' ∈ cs := by
  simp [utf8_eq, ten_mem_encode_iff]

/-! ## Lines -/

/-- The lines of a text, without their line feeds. -/
def splitText : List Char → List (List Char)
  | [] => []
  | c :: cs =>
    if c = '\n' then [] :: splitText cs
    else (c :: (splitText cs).headD []) :: (splitText cs).tail

/-- What stands in front of the first line feed belongs to the first line. -/
theorem splitLines_append {bs : List UInt8} (hne : bs ≠ []) (hbs : 10 ∉ bs) (rest : List UInt8) :
    splitLines (bs ++ rest) = (bs ++ (splitLines rest).headD []) :: (splitLines rest).tail := by
  induction bs with
  | nil => exact absurd rfl hne
  | cons b bs ih =>
    obtain ⟨hb, hbs⟩ : 10 ≠ b ∧ 10 ∉ bs := by simpa using hbs
    rw [List.cons_append, splitLines, if_neg hb.symm]
    by_cases hnil : bs = []
    · subst hnil
      cases hrest : splitLines rest <;> simp [hrest]
    · rw [ih hnil hbs]
      rfl

theorem splitText_append {as : List Char} (hne : as ≠ []) (has : '\n' ∉ as) (cs : List Char) :
    splitText (as ++ cs) = (as ++ (splitText cs).headD []) :: (splitText cs).tail := by
  induction as with
  | nil => exact absurd rfl hne
  | cons a as ih =>
    obtain ⟨ha, has⟩ : '\n' ≠ a ∧ '\n' ∉ as := by simpa using has
    rw [List.cons_append, splitText, if_neg ha.symm]
    by_cases hnil : as = []
    · subst hnil
      rfl
    · rw [ih hnil has]
      rfl

theorem newline_not_mem_splitText {cs : List Char} : ∀ line ∈ splitText cs, '\n' ∉ line := by
  induction cs with
  | nil => exact fun line h => absurd h List.not_mem_nil
  | cons c cs ih =>
    rw [splitText]
    by_cases hc : c = '\n'
    · rw [if_pos hc]
      exact List.forall_mem_cons.mpr ⟨List.not_mem_nil, ih⟩
    · rw [if_neg hc]
      cases hlines : splitText cs with
      | nil => simpa using Ne.symm hc
      | cons line lines =>
        rw [hlines] at ih
        obtain ⟨hline, hlines⟩ := List.forall_mem_cons.mp ih
        exact List.forall_mem_cons.mpr
          ⟨List.not_mem_cons_of_ne_of_not_mem (Ne.symm hc) hline, hlines⟩

theorem newline_not_mem_headD (cs : List Char) : '\n' ∉ (splitText cs).headD [] := by
  cases hlines : splitText cs with
  | nil => exact List.not_mem_nil
  | cons line lines => exact newline_not_mem_splitText line (hlines ▸ List.mem_cons_self)

theorem splitLines_utf8 (cs : List Char) : splitLines (utf8 cs) = (splitText cs).map utf8 := by
  induction cs with
  | nil => simp [utf8_eq, splitText, splitLines]
  | cons c cs ih =>
    have hcons : utf8 (c :: cs) = String.utf8EncodeChar c ++ utf8 cs := by simp [utf8_eq]
    by_cases hc : c = '\n'
    · subst hc
      rw [hcons, encode_newline, splitText, if_pos rfl, List.singleton_append, splitLines, if_pos rfl,
        ih, List.map_cons, utf8_eq]
      rfl
    · rw [hcons, splitLines_append (encode_ne_nil c) (mt (ten_mem_encode_iff c).mp hc), ih, splitText,
        if_neg hc]
      cases splitText cs <;> simp [utf8_eq]

/-! ## Lines as they are scanned -/

/-- A line without a carriage return at its end. -/
def chomp (line : List Char) : List Char := if line.getLast? = some '\r' then line.dropLast else line

theorem ofBytes_utf8 (line : List Char) : SourceLine.ofBytes (utf8 line) = .text (chomp line) := by
  have hread : String.fromUTF8? ⟨(utf8 line).toArray⟩ = some (String.ofList line) := by
    have hvalid : (String.ofList line).toUTF8.IsValidUTF8 := (String.ofList line).isValidUTF8
    rw [utf8, Array.toArray_toList]
    exact dif_pos hvalid
  rw [SourceLine.ofBytes, hread]
  dsimp only
  rw [String.toList_ofList, chomp]

theorem sourceLines_utf8 (cs : List Char) :
    sourceLines (utf8 cs) = (splitText cs).map (.text ∘ chomp) := by
  rw [sourceLines, splitLines_utf8, List.map_map]
  exact List.map_congr_left fun line _ => ofBytes_utf8 line

theorem ten_not_mem {bytes bs : List UInt8} (h : bs ∈ splitLines bytes) : 10 ∉ bs := by
  induction bytes generalizing bs with
  | nil => cases h
  | cons b bytes ih =>
    rw [splitLines] at h
    by_cases hb : b = 10
    · rw [if_pos hb] at h
      rcases List.mem_cons.mp h with rfl | h
      · exact List.not_mem_nil
      · exact ih h
    · rw [if_neg hb] at h
      cases hrest : splitLines bytes with
      | nil =>
        rw [hrest] at h
        rw [List.mem_singleton.mp h, List.mem_singleton]
        exact Ne.symm hb
      | cons l ls =>
        rw [hrest] at h ih
        rcases List.mem_cons.mp h with rfl | h
        · exact List.not_mem_cons_of_ne_of_not_mem (Ne.symm hb) (ih List.mem_cons_self)
        · exact ih (List.mem_cons_of_mem _ h)

/-- No line of a source has a line feed in it. -/
theorem newline_not_mem {bytes : List UInt8} {chars : List Char}
    (h : .text chars ∈ sourceLines bytes) : '\n' ∉ chars := by
  obtain ⟨bs, hbs, hline⟩ := List.mem_map.mp h
  have hten := ten_not_mem hbs
  unfold SourceLine.ofBytes at hline
  split at hline
  · cases hline
  · next s hs =>
    cases hline
    have hbytes : bs = utf8 s.toList := by
      rw [utf8, String.ofList_toList]
      unfold String.fromUTF8? at hs
      split at hs
      · cases hs
        rfl
      · cases hs
    rw [hbytes, ten_mem_utf8_iff] at hten
    intro hmem
    split at hmem
    · exact hten (List.dropLast_subset _ hmem)
    · exact hten hmem

end HandlerGrammar.Text
