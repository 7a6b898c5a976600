import CellDisplay.Proofs.Checked.Text

/-! # Matches of bytes

No character has the first byte of another one behind its own first byte, so that a word which
matches byte by byte, up to the case of ASCII letters, starts and ends between characters. A search
finds the first such match, and replacing cuts the text at the leftmost matches that do not overlap.
-/

namespace CellDisplay.Checked

open Text

variable {word s t a b u v : Text} {i j : Nat}

/-- The next bytes at an offset are those of the word, up to the case of ASCII letters. -/
def Matches (word t : Text) (i : Nat) : Prop :=
  (((bytes t).drop i).take word.utf8Length).map lowerByte = (bytes word).map lowerByte

/-- The word matches at an offset and at no offset before it. -/
structure MatchesFirst (word t : Text) (i : Nat) : Prop where
  here : Matches word t i
  not_before : ∀ j < i, ¬ Matches word t j

section Boundaries

theorem append_inj_of_utf8Length (h : a ++ b = u ++ v) (hl : a.utf8Length = u.utf8Length) :
    a = u ∧ b = v := by
  have hcut := cutAt_append a b
  rw [h, hl, cutAt_append] at hcut
  obtain ⟨rfl, rfl⟩ := Prod.mk.inj (Option.some.inj hcut)
  exact ⟨rfl, rfl⟩

theorem bytes_cons (c : Char) (t : Text) : bytes (c :: t) = String.utf8EncodeChar c ++ bytes t :=
  List.flatMap_cons

theorem eq_zero_of_head_byte {c d : Char} {x y : List UInt8}
    (hi : i < (String.utf8EncodeChar c).length)
    (h : String.utf8EncodeChar d ++ x <+: (String.utf8EncodeChar c).drop i ++ y) : i = 0 := by
  have hd : 0 < (String.utf8EncodeChar d).length := by
    rw [String.length_utf8EncodeChar]
    exact d.utf8Size_pos
  rw [List.drop_eq_getElem_cons hi, ← List.drop_zero (l := String.utf8EncodeChar d),
    List.drop_eq_getElem_cons hd, List.cons_append, List.cons_append, List.cons_prefix_cons] at h
  rw [← @UInt8.isUTF8FirstByte_getElem_utf8EncodeChar c i hi, ← h.1]
  exact UInt8.isUTF8FirstByte_getElem_zero_utf8EncodeChar

/-- The bytes of a text are found in those of another text only between characters. -/
theorem exists_append_of_bytes_isPrefix (hs : s ≠ []) (h : bytes s <+: (bytes t).drop i) :
    ∃ a b, t = a ++ b ∧ i = a.utf8Length ∧ s <+: b := by
  induction t generalizing i with
  | nil =>
    rw [show bytes [] = [] from rfl, List.drop_nil, List.prefix_nil, bytes_eq_nil_iff] at h
    exact absurd h hs
  | cons c t ih =>
    rcases Nat.eq_zero_or_pos i with rfl | hpos
    · exact ⟨[], c :: t, rfl, rfl, bytes_isPrefix_iff.mp h⟩
    rw [bytes_cons] at h
    rcases Nat.lt_or_ge i (String.utf8EncodeChar c).length with hlt | hge
    · obtain ⟨d, s, rfl⟩ := List.exists_cons_of_ne_nil hs
      rw [bytes_cons, List.drop_append_of_le_length hlt.le] at h
      exact absurd (eq_zero_of_head_byte hlt h) (Nat.ne_of_gt hpos)
    · obtain ⟨k, rfl⟩ := Nat.exists_eq_add_of_le hge
      rw [List.drop_append, List.drop_eq_nil_of_le hge, List.nil_append,
        Nat.add_sub_cancel_left] at h
      obtain ⟨a, b, rfl, rfl, hb⟩ := ih h
      refine ⟨c :: a, b, rfl, ?_, hb⟩
      rw [String.length_utf8EncodeChar, utf8Length_cons]

theorem exists_append_of_lower (h : lower t = a ++ b) :
    ∃ u v, t = u ++ v ∧ u.utf8Length = a.utf8Length ∧ lower v = b := by
  refine ⟨t.take a.length, t.drop a.length, (List.take_append_drop _ t).symm, ?_, ?_⟩
  · rw [← utf8Length_lower, lower_take, h, List.take_left]
  · rw [lower_drop, h, List.drop_left]

/-- A word matches in bytes exactly where it stands in characters. -/
theorem matches_iff (hw : word ≠ []) :
    Matches word t i ↔ ∃ a b, t = a ++ b ∧ i = a.utf8Length ∧ startsWith word b := by
  have hbytes : Matches word t i ↔ bytes (lower word) <+: (bytes (lower t)).drop i := by
    rw [Matches, List.map_take, List.map_drop, map_lowerByte_bytes, map_lowerByte_bytes,
      List.prefix_iff_eq_take, length_bytes, utf8Length_lower, eq_comm]
  rw [hbytes]
  constructor
  · intro h
    have hlower : lower word ≠ [] := by simpa [lower] using hw
    obtain ⟨a', b', hsplit, rfl, hprefix⟩ := exists_append_of_bytes_isPrefix hlower h
    obtain ⟨a, b, rfl, ha, rfl⟩ := exists_append_of_lower hsplit
    exact ⟨a, b, rfl, ha.symm, startsWith_iff.mpr hprefix⟩
  · rintro ⟨a, b, rfl, rfl, hb⟩
    rw [lower_append, bytes_append, ← utf8Length_lower, ← length_bytes, List.drop_left,
      bytes_isPrefix_iff]
    exact startsWith_iff.mp hb

theorem matches_append_iff (hw : word ≠ []) :
    Matches word (a ++ b) a.utf8Length ↔ startsWith word b := by
  rw [matches_iff hw]
  constructor
  · rintro ⟨u, v, hsplit, hl, hv⟩
    obtain ⟨rfl, rfl⟩ := append_inj_of_utf8Length hsplit hl
    exact hv
  · intro hb
    exact ⟨a, b, rfl, rfl, hb⟩

/-- A match starts and ends between characters. -/
theorem isBoundary_of_matches (hw : word ≠ []) (h : Matches word t i) :
    isBoundary t i ∧ isBoundary t (i + word.utf8Length) := by
  obtain ⟨a, b, rfl, rfl, hb⟩ := (matches_iff hw).mp h
  refine ⟨isBoundary_iff.mpr ⟨a, b, rfl, rfl⟩, isBoundary_iff.mpr ?_⟩
  refine ⟨a ++ b.take word.length, b.drop word.length, ?_, ?_⟩
  · rw [List.append_assoc, List.take_append_drop]
  · rw [utf8Length_append, utf8Length_take_of_startsWith hb]

end Boundaries

section First

theorem MatchesFirst.unique (h : MatchesFirst word t i) (h' : MatchesFirst word t j) : i = j := by
  rcases Nat.lt_trichotomy i j with hlt | rfl | hlt
  · exact absurd h.here (h'.not_before i hlt)
  · rfl
  · exact absurd h'.here (h.not_before j hlt)

theorem matchesFirst_of_breakOn (hw : word ≠ []) (h : breakOn word t = some (a, b)) :
    MatchesFirst word t a.utf8Length := by
  rw [breakOn_of_ne_nil hw] at h
  obtain ⟨rfl, hb⟩ := append_of_breakAt h
  refine ⟨(matches_append_iff hw).mpr hb, ?_⟩
  intro j hj hmatch
  obtain ⟨u, v, hsplit, rfl, hv⟩ := (matches_iff hw).mp hmatch
  have hlt := (length_lt_iff_of_append hsplit.symm).mpr hj
  rw [hsplit] at h
  exact absurd hv (Bool.eq_false_iff.mp (eq_false_of_breakAt h hlt))

theorem breakOn_eq_none_iff (hw : word ≠ []) :
    breakOn word t = none ↔ ∀ i, ¬ Matches word t i := by
  rw [breakOn_of_ne_nil hw, breakAt_eq_none_iff]
  constructor
  · intro h i hmatch
    obtain ⟨a, b, hsplit, -, hb⟩ := (matches_iff hw).mp hmatch
    exact absurd hb (Bool.eq_false_iff.mp (h a b hsplit))
  · rintro h a b rfl
    refine Bool.eq_false_iff.mpr fun hb => ?_
    exact h a.utf8Length ((matches_append_iff hw).mpr hb)

theorem find?_eq_none_iff (hw : word ≠ []) : find? word t = none ↔ ∀ i, ¬ Matches word t i := by
  rw [find?, Option.map_eq_none_iff, breakOn_eq_none_iff hw]

/-- A search finds the first match in bytes. -/
theorem find?_eq_some_iff (hw : word ≠ []) : find? word t = some i ↔ MatchesFirst word t i := by
  constructor
  · intro h
    obtain ⟨⟨a, b⟩, hbreak, rfl⟩ := Option.map_eq_some_iff.mp h
    exact matchesFirst_of_breakOn hw hbreak
  · intro h
    cases hbreak : breakOn word t with
    | none => exact absurd h.here ((breakOn_eq_none_iff hw).mp hbreak i)
    | some found =>
      obtain ⟨a, b⟩ := found
      rw [find?, hbreak, h.unique (matchesFirst_of_breakOn hw hbreak)]
      rfl

end First

section Replacing

/-- A text in which some parts are marked: each of them stands behind a gap, and the last gap ends
the text. -/
structure Marked where
  parts : List (Text × Text)
  last : Text

namespace Marked

def text (m : Marked) : Text := m.parts.flatMap (fun (gap, part) => gap ++ part) ++ m.last

/-- The text with another one in the place of each marked part. -/
def filled (m : Marked) (replacement : Text) : Text :=
  m.parts.flatMap (fun (gap, _) => gap ++ replacement) ++ m.last

/-- Puts a gap and a marked part in front. -/
def cons (gap part : Text) (m : Marked) : Marked := ⟨(gap, part) :: m.parts, m.last⟩

theorem text_cons (gap part : Text) (m : Marked) :
    (cons gap part m).text = gap ++ (part ++ m.text) := by
  simp [cons, text]

theorem filled_cons (gap part replacement : Text) (m : Marked) :
    (cons gap part m).filled replacement = gap ++ replacement ++ m.filled replacement := by
  simp [cons, filled]

/-- The marked parts are the leftmost matches of a word that do not overlap: each one is the first
match in what is left of the text, and the last gap has none. -/
inductive IsLeftmost (word : Text) : Marked → Prop where
  | last {t : Text} : (∀ i, ¬ Matches word t i) → IsLeftmost word ⟨[], t⟩
  | cons {gap part : Text} {m : Marked} : part.utf8Length = word.utf8Length →
      MatchesFirst word (cons gap part m).text gap.utf8Length → IsLeftmost word m →
      IsLeftmost word (cons gap part m)

theorem IsLeftmost.unique {m m' : Marked} (h : m.IsLeftmost word) (h' : m'.IsLeftmost word)
    (ht : m.text = m'.text) : m = m' := by
  induction h generalizing m' with
  | @last t hnone =>
    cases h' with
    | last => simpa [text] using ht
    | cons _ hfirst =>
      rw [← ht] at hfirst
      exact absurd hfirst.here (by simpa [text] using hnone _)
  | @cons gap part m hl hfirst _ ih =>
    cases h' with
    | last hnone =>
      rw [ht] at hfirst
      exact absurd hfirst.here (by simpa [text] using hnone _)
    | @cons gap' part' m' hl' hfirst' h' =>
      rw [← ht] at hfirst'
      have hgap := hfirst.unique hfirst'
      rw [text_cons, text_cons] at ht
      obtain ⟨rfl, hparts⟩ := append_inj_of_utf8Length ht hgap
      obtain ⟨rfl, hrest⟩ := append_inj_of_utf8Length hparts (hl.trans hl'.symm)
      rw [ih h' hrest]

/-- Replacing fills the places of the leftmost matches. -/
theorem exists_isLeftmost (hw : word ≠ []) (t : Text) :
    ∃ m : Marked, m.text = t ∧ m.IsLeftmost word ∧
      ∀ replacement, Text.replace word replacement t = m.filled replacement := by
  induction h : t.length using Nat.strongRecOn generalizing t with
  | ind k ih =>
    cases hbreak : breakOn word t with
    | none =>
      refine ⟨⟨[], t⟩, rfl, .last ((breakOn_eq_none_iff hw).mp hbreak), ?_⟩
      exact replace_of_breakOn_none hw hbreak
    | some found =>
      obtain ⟨gap, rest⟩ := found
      have hfirst := matchesFirst_of_breakOn hw hbreak
      have hstarts := startsWith_of_breakOn hbreak
      have hsplit : gap ++ rest = t := by
        rw [breakOn_of_ne_nil hw] at hbreak
        exact (append_of_breakAt hbreak).1
      obtain ⟨m, hm, hleftmost, hfilled⟩ := ih (rest.drop word.length).length (by
        have := List.length_pos_iff.mpr hw
        have := length_le_of_startsWith hstarts
        rw [← h, ← hsplit, List.length_append, List.length_drop]
        omega) _ rfl
      have htext : (cons gap (rest.take word.length) m).text = t := by
        rw [text_cons, hm, List.take_append_drop, hsplit]
      refine ⟨cons gap (rest.take word.length) m, htext, ?_, ?_⟩
      · exact .cons (utf8Length_take_of_startsWith hstarts) (htext ▸ hfirst) hleftmost
      · intro replacement
        rw [replace_of_breakOn_some hw hbreak, filled_cons, hfilled]

end Marked

/-- A search gives the first offset at which a word matches in bytes, if there is one, and every
match starts and ends between characters. A text is cut in one way at the leftmost matches that do
not overlap, and replacing puts the replacement, as it is, in the place of each. For texts whose
offsets fit into 64 bits, both are computed byte by byte without a failing slice. -/
theorem find?_replace_leftmost (hw : word ≠ []) (t : Text) :
    (∀ i, find? word t = some i ↔ MatchesFirst word t i) ∧
      (find? word t = none ↔ ∀ i, ¬ Matches word t i) ∧
      (∀ i, Matches word t i → isBoundary t i ∧ isBoundary t (i + word.utf8Length)) ∧
      (∃ m : Marked, (∀ m', m'.text = t ∧ m'.IsLeftmost word ↔ m' = m) ∧
        ∀ replacement, Text.replace word replacement t = m.filled replacement) ∧
      (t.utf8Length < 2 ^ 64 →
        find word t = some (find? word t) ∧
          ∀ replacement, replace word replacement t =
            some (Text.replace word replacement t)) := by
  refine ⟨fun i => find?_eq_some_iff hw, find?_eq_none_iff hw,
    fun i => isBoundary_of_matches hw, ?_, ?_⟩
  · obtain ⟨m, hm, hleftmost, hfilled⟩ := Marked.exists_isLeftmost hw t
    refine ⟨m, ?_, hfilled⟩
    intro m'
    constructor
    · rintro ⟨hm', hleftmost'⟩
      exact hleftmost'.unique hleftmost (hm'.trans hm.symm)
    · rintro rfl
      exact ⟨hm, hleftmost⟩
  · intro hlength
    exact ⟨find_eq word hlength, fun replacement => replace_eq hw replacement hlength⟩

/-- A word behind a character of three bytes, in capital letters. -/
theorem find?_replace_leftmost_capitals :
    MatchesFirst "general".toList "年GENERAL 0".toList 3 ∧
      isBoundary "年GENERAL 0".toList 3 ∧ isBoundary "年GENERAL 0".toList 10 ∧
      find "general".toList "年GENERAL 0".toList = some (some 3) ∧
      replace "general".toList "general".toList "年GENERAL 0".toList =
        some "年general 0".toList := by
  obtain ⟨hfirst, -, hboundary, -, hchecked⟩ :=
    @find?_replace_leftmost "general".toList (by decide) "年GENERAL 0".toList
  have hfound : find? "general".toList "年GENERAL 0".toList = some 3 := by decide +kernel
  have hmatches := (hfirst 3).mp hfound
  obtain ⟨hstart, hend⟩ := hboundary 3 hmatches.here
  obtain ⟨hfind, hreplace⟩ := hchecked (by decide +kernel)
  refine ⟨hmatches, hstart, hend, hfound ▸ hfind, (hreplace _).trans ?_⟩
  decide +kernel

end Replacing

end CellDisplay.Checked
