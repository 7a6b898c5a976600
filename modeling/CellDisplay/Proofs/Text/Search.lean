import CellDisplay.Text.Search
import Mathlib.Data.List.Infix

/-! # Occurrences of words

A text starts with a word if it does so after both are put in lower case. A word that is not
empty is contained in a text if some rest of the text starts with it.
-/

namespace CellDisplay.Text

variable {word s t : Text}

/-- The text with the letters of the ASCII alphabet in lower case. -/
def lower (t : Text) : Text := t.map Char.toLower

@[simp] theorem lower_append (s t : Text) : lower (s ++ t) = lower s ++ lower t := by
  simp [lower]

@[simp] theorem length_lower (t : Text) : (lower t).length = t.length := by
  simp [lower]

theorem lower_take (n : Nat) (t : Text) : lower (t.take n) = (lower t).take n := List.map_take

theorem lower_drop (n : Nat) (t : Text) : lower (t.drop n) = (lower t).drop n := List.map_drop

theorem startsWith_iff : startsWith word t ↔ lower word <+: lower t := by
  induction word generalizing t with
  | nil => simp [startsWith, lower]
  | cons c word ih =>
    cases t with
    | nil => simp [startsWith, lower]
    | cons d t =>
      simp only [startsWith, Bool.and_eq_true, ih, sameLetter, beq_iff_eq, lower, List.map_cons,
        List.cons_prefix_cons]

theorem startsWith_congr (h : lower s = lower t) (word : Text) :
    startsWith word s = startsWith word t := by
  rw [Bool.eq_iff_iff, startsWith_iff, startsWith_iff, h]

theorem startsWith_append_right (h : startsWith word s) (t : Text) : startsWith word (s ++ t) := by
  rw [startsWith_iff] at h ⊢
  rw [lower_append]
  exact h.trans (List.prefix_append _ _)

theorem startsWith_eq_false_of_append (h : startsWith word (s ++ t) = false) :
    startsWith word s = false :=
  Bool.eq_false_iff.mpr fun hs => Bool.eq_false_iff.mp h (startsWith_append_right hs t)

/-- A word that fits into the front of a text occurs there if it occurs in the whole text. -/
theorem startsWith_of_append (h : startsWith word (s ++ t)) (hl : word.length ≤ s.length) :
    startsWith word s := by
  rw [startsWith_iff, lower_append] at h
  rw [startsWith_iff]
  exact List.prefix_of_prefix_length_le h (List.prefix_append _ _) (by simpa using hl)

theorem startsWith_take (h : startsWith word t) : startsWith word (t.take word.length) := by
  have hl := length_le_of_startsWith h
  rw [← List.take_append_drop word.length t] at h
  exact startsWith_of_append h (by simp [hl])

theorem ne_nil_of_startsWith (hw : word ≠ []) (h : startsWith word t) : t ≠ [] := by
  rintro rfl
  exact hw (List.length_eq_zero_iff.mp (by simpa using length_le_of_startsWith h))

theorem exists_sameLetter_of_startsWith (h : startsWith word t) (hl : t.length ≤ word.length)
    {d : Char} (hd : d ∈ t) : ∃ c ∈ word, sameLetter c d := by
  rw [startsWith_iff] at h
  have he : lower word = lower t := h.eq_of_length_le (by simpa using hl)
  have hm : d.toLower ∈ lower word := he ▸ List.mem_map_of_mem hd
  obtain ⟨c, hc, hcd⟩ := List.mem_map.mp hm
  exact ⟨c, hc, by simpa [sameLetter] using hcd⟩

theorem isSome_breakAt_iff {p : Text → Bool} :
    (breakAt p t).isSome ↔ ∃ before rest, t = before ++ rest ∧ p rest := by
  induction t with
  | nil =>
    simp only [breakAt]
    split <;> simp_all
  | cons c t ih =>
    simp only [breakAt]
    split
    · rename_i hp
      simpa using ⟨[], c :: t, rfl, hp⟩
    · rename_i hp
      rw [Option.isSome_map, ih]
      constructor
      · rintro ⟨before, rest, rfl, hr⟩
        exact ⟨c :: before, rest, rfl, hr⟩
      · rintro ⟨before, rest, h, hr⟩
        cases before with
        | nil => exact absurd (h ▸ hr) hp
        | cons d before =>
          obtain ⟨rfl, rfl⟩ := List.cons.inj h
          exact ⟨before, rest, rfl, hr⟩

theorem breakAt_eq_none_iff {p : Text → Bool} :
    breakAt p t = none ↔ ∀ before rest, t = before ++ rest → p rest = false := by
  rw [← Option.isNone_iff_eq_none, ← Option.not_isSome, Bool.not_eq_true', ← Bool.not_eq_true,
    isSome_breakAt_iff]
  simp

theorem eq_false_of_breakAt {p : Text → Bool} {u before rest : Text}
    (h : breakAt p (s ++ u) = some (before, rest)) (hl : s.length < before.length) :
    p u = false := by
  induction s generalizing before with
  | nil =>
    cases u with
    | nil =>
      simp only [List.append_nil, breakAt] at h
      split at h <;> simp_all
    | cons c u =>
      simp only [List.nil_append, breakAt] at h
      split at h <;> simp_all
  | cons c s ih =>
    simp only [List.cons_append, breakAt] at h
    split at h
    · obtain ⟨rfl, -⟩ := Prod.mk.inj (Option.some.inj h)
      simp at hl
    · obtain ⟨⟨b, r⟩, hb, hr⟩ := Option.map_eq_some_iff.mp h
      obtain ⟨rfl, rfl⟩ := Prod.mk.inj hr
      exact ih hb (by simpa using hl)

/-- The first occurrence of a word stays the first one if the text goes on. -/
theorem breakAt_append {before rest : Text} (h : breakAt (startsWith word) s = some (before, rest))
    (t : Text) : breakAt (startsWith word) (s ++ t) = some (before, rest ++ t) := by
  induction s generalizing before with
  | nil =>
    cases word with
    | nil =>
      obtain ⟨rfl, rfl⟩ := Prod.mk.inj (Option.some.inj h)
      cases t <;> rfl
    | cons c word => simp [breakAt, startsWith] at h
  | cons c s ih =>
    simp only [breakAt] at h
    split at h
    · rename_i hw
      obtain ⟨rfl, rfl⟩ := Prod.mk.inj (Option.some.inj h)
      rw [List.cons_append, breakAt, if_pos (by simpa using startsWith_append_right hw t)]
    · rename_i hw
      obtain ⟨⟨b, r⟩, hb, hr⟩ := Option.map_eq_some_iff.mp h
      obtain ⟨rfl, rfl⟩ := Prod.mk.inj hr
      -- The word is found behind, so that a word found here would end within the text.
      have hlength : word.length ≤ (c :: s).length := by
        obtain ⟨rfl, hr⟩ := append_of_breakAt hb
        have := length_le_of_startsWith hr
        simp only [List.length_cons, List.length_append]
        omega
      have hw' : ¬ startsWith word (c :: (s ++ t)) := fun hw' =>
        hw (startsWith_of_append (s := c :: s) hw' hlength)
      rw [List.cons_append, breakAt, if_neg hw', ih hb]
      rfl

theorem breakOn_append {before rest : Text} (h : breakOn word s = some (before, rest)) (t : Text) :
    breakOn word (s ++ t) = some (before, rest ++ t) := by
  unfold breakOn at h ⊢
  split at h
  · simp at h
  · rename_i hword
    rw [if_neg hword]
    exact breakAt_append h t

theorem startsWith_of_breakOn {before rest : Text} (h : breakOn word s = some (before, rest)) :
    startsWith word rest := by
  unfold breakOn at h
  split at h
  · simp at h
  · exact (append_of_breakAt h).2

theorem breakOn_of_ne_nil (hw : word ≠ []) (t : Text) :
    breakOn word t = breakAt (startsWith word) t := if_neg (by simpa using hw)

theorem contains_iff :
    contains word t ↔ word ≠ [] ∧ ∃ before rest, t = before ++ rest ∧ startsWith word rest := by
  cases word with
  | nil => simp [contains, breakOn]
  | cons c word => simp [contains, breakOn, isSome_breakAt_iff]

theorem contains_nil (word : Text) : contains word [] = false := by
  cases word <;> rfl

theorem contains_of_isInfix (h : s <:+: t) (hc : contains word s) : contains word t := by
  obtain ⟨front, back, rfl⟩ := h
  rw [contains_iff] at hc ⊢
  obtain ⟨hw, before, rest, rfl, hr⟩ := hc
  exact ⟨hw, front ++ before, rest ++ back, by simp, startsWith_append_right hr back⟩

theorem contains_eq_false_of_isInfix (h : s <:+: t) (hc : contains word t = false) :
    contains word s = false :=
  Bool.eq_false_iff.mpr fun hs => Bool.eq_false_iff.mp hc (contains_of_isInfix h hs)

/-- With a word, a text contains the parts of the word. -/
theorem contains_of_word_isInfix {part : Text} (hp : part ≠ []) (h : part <:+: word)
    (hc : contains word t) : contains part t := by
  obtain ⟨front, back, rfl⟩ := h
  obtain ⟨-, before, rest, rfl, hr⟩ := contains_iff.mp hc
  refine contains_iff.mpr ⟨hp, before ++ rest.take front.length, rest.drop front.length,
    by rw [List.append_assoc, List.take_append_drop], ?_⟩
  rw [startsWith_iff, lower_drop]
  have hd := (startsWith_iff.mp hr).drop front.length
  rw [List.append_assoc, lower_append, lower_append, ← length_lower front,
    List.drop_left] at hd
  exact (List.prefix_append _ _).trans (by simpa using hd)

end CellDisplay.Text
