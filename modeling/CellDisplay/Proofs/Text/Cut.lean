import CellDisplay.Text.Cut
import CellDisplay.Proofs.Text.Search

/-! # The runs of a cut text

The words of a cut text are the leftmost ones that do not overlap. A plain run starts where
no word is found and reaches to the next word or to the end, so that no word occurs in it.
-/

namespace CellDisplay.Text

variable {α : Type} {find : Text → Option (α × Nat)} {spelling : α → Text} {words : List α}
  {found : α} {n : Nat} {s t : Text} {runs : List (Run α)}

section Find

theorem wordAt_eq_some_iff :
    wordAt spelling words t = some (found, n) ↔
      (words.find? fun word => startsWith (spelling word) t) = some found ∧
        n = (spelling found).length := by
  simp only [wordAt, Option.map_eq_some_iff, Prod.mk.injEq]
  constructor
  · rintro ⟨word, h, rfl, rfl⟩
    exact ⟨h, rfl⟩
  · rintro ⟨h, rfl⟩
    exact ⟨found, h, rfl, rfl⟩

theorem wordAt_eq_none_iff :
    wordAt spelling words t = none ↔ ∀ word ∈ words, startsWith (spelling word) t = false := by
  simp [wordAt]

/-- A word is found by its letters up to their case. -/
theorem wordAt_congr (h : lower s = lower t) :
    wordAt spelling words s = wordAt spelling words t := by
  have hstarts : (fun word => startsWith (spelling word) s) =
      fun word => startsWith (spelling word) t :=
    funext fun word => startsWith_congr h (spelling word)
  rw [wordAt, wordAt, hstarts]

theorem mem_of_wordAt (h : wordAt spelling words t = some (found, n)) :
    found ∈ words ∧ startsWith (spelling found) t ∧ n = (spelling found).length := by
  obtain ⟨hf, hn⟩ := wordAt_eq_some_iff.mp h
  have hs := List.find?_some (p := fun word => startsWith (spelling word) t) hf
  exact ⟨List.mem_of_find?_eq_some hf, hs, hn⟩

theorem wordAt_append {rest : List α} :
    wordAt spelling (words ++ rest) t =
      (wordAt spelling words t).or (wordAt spelling rest t) := by
  simp only [wordAt, List.find?_append]
  cases List.find? (fun word => startsWith (spelling word) t) words <;> simp

end Find

/-- No word is found at a place within `s`, when `t` follows. -/
def Quiet (find : Text → Option (α × Nat)) (s t : Text) : Prop :=
  ∀ before rest, s = before ++ rest → rest ≠ [] → find (rest ++ t) = none

theorem Quiet.drop (h : Quiet find s t) (k : Nat) : Quiet find (s.drop k) t := by
  intro before rest hs hr
  exact h (s.take k ++ before) rest (by rw [List.append_assoc, ← hs, List.take_append_drop]) hr

theorem Quiet.tail {c : Char} (h : Quiet find (c :: s) t) : Quiet find s t := h.drop 1

theorem Quiet.head (h : Quiet find s t) (hs : s ≠ []) : find (s ++ t) = none :=
  h [] s rfl hs

/-- The words that `find` sees are not empty and stand at the start of the text. -/
def Fits (find : Text → Option (α × Nat)) : Prop :=
  ∀ t found n, find t = some (found, n) → 0 < n ∧ n ≤ t.length

@[simp] theorem cut_nil : cut find [] = [] := by rw [cut]

theorem fits_wordAt (h : ∀ word ∈ words, spelling word ≠ []) : Fits (wordAt spelling words) := by
  intro t found n hf
  obtain ⟨hw, hs, rfl⟩ := mem_of_wordAt hf
  exact ⟨List.length_pos_iff.mpr (h found hw), length_le_of_startsWith hs⟩

theorem cut_of_some (hf : Fits find) (h : find t = some (found, n)) :
    cut find t = .word found (t.take n) :: cut find (t.drop n) := by
  obtain ⟨hn, hl⟩ := hf t found n h
  cases t with
  | nil => simp at hl; omega
  | cons c rest =>
    obtain ⟨m, rfl⟩ : ∃ m, n = m + 1 := ⟨n - 1, by omega⟩
    rw [cut, h]
    simp

theorem cut_of_none {c : Char} (h : find (c :: t) = none) :
    cut find (c :: t) = Run.consChar c (cut find t) := by
  rw [cut, h]

/-- A place where a plain run cannot go on: the end of the text, or the start of a word. -/
def Stops (find : Text → Option (α × Nat)) (t : Text) : Prop := t = [] ∨ find t ≠ none

/-- A quiet text that reaches to a word or to the end is one plain run. -/
theorem cut_append_of_quiet (hf : Fits find) (hq : Quiet find s t) (ht : Stops find t)
    (hs : s ≠ []) : cut find (s ++ t) = .plain s :: cut find t := by
  induction s with
  | nil => exact absurd rfl hs
  | cons c s ih =>
    have hn : find (c :: (s ++ t)) = none := hq.head (by simp)
    rw [List.cons_append, cut_of_none hn]
    cases s with
    | cons d s =>
      rw [ih hq.tail (by simp)]
      rfl
    | nil =>
      rw [List.nil_append]
      rcases ht with rfl | ht
      · rw [cut_nil]
        rfl
      · obtain ⟨⟨found, n⟩, h⟩ := Option.ne_none_iff_exists'.mp ht
        rw [cut_of_some hf h]
        rfl

theorem exists_quiet (find : Text → Option (α × Nat)) (t : Text) :
    ∃ s rest, t = s ++ rest ∧ Quiet find s rest ∧ Stops find rest := by
  have hnil : ∀ t, Quiet find [] t := by
    intro t before rest h hr
    simp_all
  induction t with
  | nil => exact ⟨[], [], rfl, hnil _, .inl rfl⟩
  | cons c t ih =>
    by_cases h : find (c :: t) = none
    · obtain ⟨s, rest, rfl, hq, hr⟩ := ih
      refine ⟨c :: s, rest, rfl, ?_, hr⟩
      intro before after hs ha
      cases before with
      | nil =>
        obtain rfl : c :: s = after := hs
        exact h
      | cons d before => exact hq before after (List.cons.inj hs).2 ha
    · exact ⟨[], c :: t, rfl, hnil _, .inr h⟩

/-- Induction along the runs of a cut text. -/
theorem cut_induction {motive : Text → Prop} (hf : Fits find) (nil : motive [])
    (word : ∀ t found n, find t = some (found, n) → motive (t.drop n) → motive t)
    (plain : ∀ s t, s ≠ [] → Quiet find s t → Stops find t → motive t → motive (s ++ t))
    (t : Text) : motive t := by
  induction h : t.length using Nat.strongRecOn generalizing t with
  | ind k ih =>
    have hword : ∀ rest : Text, rest.length ≤ k → Stops find rest → motive rest := by
      rintro rest hl (rfl | hr)
      · exact nil
      · obtain ⟨⟨found, n⟩, hn⟩ := Option.ne_none_iff_exists'.mp hr
        obtain ⟨hpos, hle⟩ := hf rest found n hn
        exact word rest found n hn (ih _ (by simp; omega) _ rfl)
    obtain ⟨s, rest, rfl, hq, hr⟩ := exists_quiet find t
    by_cases hs : s = []
    · subst hs
      exact hword rest (by simp at h; omega) hr
    · have hl : (s ++ rest).length = s.length + rest.length := List.length_append
      exact plain s rest hs hq hr (hword rest (by omega) hr)

theorem exists_of_plain_mem_cut (hf : Fits find) (h : .plain s ∈ cut find t) :
    s ≠ [] ∧ ∃ before after, t = before ++ (s ++ after) ∧ Quiet find s after := by
  induction t using cut_induction hf with
  | nil => simp at h
  | word t found n hn ih =>
    rw [cut_of_some hf hn] at h
    obtain ⟨hs, before, after, ht, hq⟩ := ih (by simpa using h)
    exact ⟨hs, t.take n ++ before, after,
      by rw [List.append_assoc, ← ht, List.take_append_drop], hq⟩
  | plain r t hr hq ht ih =>
    rw [cut_append_of_quiet hf hq ht hr, List.mem_cons] at h
    rcases h with h | h
    · obtain rfl : s = r := by simpa using h
      exact ⟨hr, [], t, rfl, hq⟩
    · obtain ⟨hs, before, after, rfl, hs'⟩ := ih h
      exact ⟨hs, r ++ before, after, by simp, hs'⟩

theorem exists_of_word_mem_cut (hf : Fits find) {written : Text}
    (h : .word found written ∈ cut find t) :
    ∃ before rest n, t = before ++ rest ∧ find rest = some (found, n) ∧
      written = rest.take n := by
  induction t using cut_induction hf with
  | nil => simp at h
  | word t found' n hn ih =>
    rw [cut_of_some hf hn, List.mem_cons] at h
    rcases h with h | h
    · obtain ⟨rfl, rfl⟩ : found = found' ∧ written = t.take n := by simpa using h
      exact ⟨[], t, n, rfl, hn, rfl⟩
    · obtain ⟨before, rest, m, ht, hm, hw⟩ := ih h
      exact ⟨t.take n ++ before, rest, m,
        by rw [List.append_assoc, ← ht, List.take_append_drop], hm, hw⟩
  | plain r t hr hq ht ih =>
    rw [cut_append_of_quiet hf hq ht hr] at h
    obtain ⟨before, rest, m, rfl, hm, hw⟩ := ih (by simpa using h)
    exact ⟨r ++ before, rest, m, by simp, hm, hw⟩

theorem plain_isInfix (hf : Fits find) (h : .plain s ∈ cut find t) : s <:+: t := by
  obtain ⟨-, before, after, rfl, -⟩ := exists_of_plain_mem_cut hf h
  exact ⟨before, after, by simp⟩

theorem written_of_mem_cut {written : Text} (hw : ∀ word ∈ words, spelling word ≠ [])
    (h : .word found written ∈ cut (wordAt spelling words) t) :
    found ∈ words ∧ startsWith (spelling found) written ∧
      written.length = (spelling found).length := by
  obtain ⟨before, rest, n, rfl, hn, rfl⟩ := exists_of_word_mem_cut (fits_wordAt hw) h
  obtain ⟨hm, hs, rfl⟩ := mem_of_wordAt hn
  exact ⟨hm, startsWith_take hs, List.length_take_of_le (length_le_of_startsWith hs)⟩

theorem not_contains_of_quiet {word : α} (hw : ∀ word ∈ words, spelling word ≠ [])
    (hq : Quiet (wordAt spelling words) s t) (hm : word ∈ words) :
    contains (spelling word) s = false := by
  refine Bool.eq_false_iff.mpr fun hc => ?_
  obtain ⟨-, front, rest, rfl, hr⟩ := contains_iff.mp hc
  have hrest : rest ≠ [] := ne_nil_of_startsWith (hw word hm) hr
  have hn := wordAt_eq_none_iff.mp (hq front rest rfl hrest) word hm
  exact Bool.eq_false_iff.mp hn (startsWith_append_right hr t)

theorem not_contains_of_plain_mem_cut {word : α} (hw : ∀ word ∈ words, spelling word ≠ [])
    (h : .plain s ∈ cut (wordAt spelling words) t) (hm : word ∈ words) :
    contains (spelling word) s = false := by
  obtain ⟨-, before, after, -, hq⟩ := exists_of_plain_mem_cut (fits_wordAt hw) h
  exact not_contains_of_quiet hw hq hm

theorem exists_word_mem_cut_iff (hw : ∀ word ∈ words, spelling word ≠ []) :
    (∃ found written, .word found written ∈ cut (wordAt spelling words) t) ↔
      ∃ word ∈ words, contains (spelling word) t := by
  constructor
  · rintro ⟨found, written, h⟩
    obtain ⟨before, rest, n, rfl, hn, -⟩ := exists_of_word_mem_cut (fits_wordAt hw) h
    obtain ⟨hm, hs, -⟩ := mem_of_wordAt hn
    exact ⟨found, hm, contains_iff.mpr ⟨hw found hm, before, rest, rfl, hs⟩⟩
  · rintro ⟨word, hm, hc⟩
    obtain ⟨s, rest, rfl, hq, hr⟩ := exists_quiet (wordAt spelling words) t
    rcases hr with rfl | hr
    · rw [List.append_nil, not_contains_of_quiet hw hq hm] at hc
      simp at hc
    · obtain ⟨⟨found, n⟩, hn⟩ := Option.ne_none_iff_exists'.mp hr
      refine ⟨found, rest.take n, ?_⟩
      by_cases hs : s = []
      · simp [hs, cut_of_some (fits_wordAt hw) hn]
      · simp [cut_append_of_quiet (fits_wordAt hw) hq (.inr hr) hs,
          cut_of_some (fits_wordAt hw) hn]

theorem cut_of_not_contains (hw : ∀ word ∈ words, spelling word ≠ [])
    (h : ∀ word ∈ words, contains (spelling word) t = false) (ht : t ≠ []) :
    cut (wordAt spelling words) t = [.plain t] := by
  have hq : Quiet (wordAt spelling words) t [] := by
    rintro before rest rfl -
    rw [List.append_nil, wordAt_eq_none_iff]
    intro word hm
    refine Bool.eq_false_iff.mpr fun hs => Bool.eq_false_iff.mp (h word hm) ?_
    exact contains_iff.mpr ⟨hw word hm, before, rest, rfl, hs⟩
  simpa using cut_append_of_quiet (fits_wordAt hw) hq (.inl rfl) ht

/-- Before the first occurrence of a word, no place is the start of one. -/
theorem quiet_of_breakAt {word before rest : Text}
    (h : breakAt (startsWith word) t = some (before, rest)) :
    Quiet (wordAt id [word]) before rest := by
  obtain ⟨rfl, -⟩ := append_of_breakAt h
  rintro s u rfl hu
  refine wordAt_eq_none_iff.mpr fun w hw => ?_
  obtain rfl : w = word := by simpa using hw
  rw [List.append_assoc] at h
  exact eq_false_of_breakAt h (by simpa using List.length_pos_iff.mpr hu)

theorem replace_of_breakOn_none {word : Text} (hw : word ≠ []) (h : breakOn word t = none)
    (replacement : Text) : replace word replacement t = t := by
  by_cases ht : t = []
  · subst ht
    simp [replace]
  · have hc : cut (wordAt id [word]) t = [.plain t] := by
      refine cut_of_not_contains (by simpa using hw) (fun w hm => ?_) ht
      obtain rfl : w = word := by simpa using hm
      simp [contains, h]
    simp [replace, hc]

theorem replace_of_breakOn_some {word before rest : Text} (hw : word ≠ [])
    (h : breakOn word t = some (before, rest)) (replacement : Text) :
    replace word replacement t =
      before ++ replacement ++ replace word replacement (rest.drop word.length) := by
  have hb : breakAt (startsWith word) t = some (before, rest) := breakOn_of_ne_nil hw t ▸ h
  have hq := quiet_of_breakAt hb
  obtain ⟨rfl, hs⟩ := append_of_breakAt hb
  have hf : Fits (wordAt id [word]) := fits_wordAt (by simpa using hw)
  have hword : wordAt id [word] rest = some (word, word.length) :=
    wordAt_eq_some_iff.mpr ⟨by simp [hs], rfl⟩
  have hrest : replace word replacement rest =
      replacement ++ replace word replacement (rest.drop word.length) := by
    rw [replace, cut_of_some hf hword, List.flatMap_cons]
    rfl
  by_cases hne : before = []
  · subst hne
    simpa using hrest
  · rw [replace, cut_append_of_quiet hf hq (.inr (by simp [hword])) hne, List.flatMap_cons,
      List.append_assoc, ← hrest]
    rfl

/-- Replacing a word leaves alone every character that neither the word nor its replacement
has. -/
theorem mem_replace_iff {word replacement : Text} {c : Char} (hne : word ≠ [])
    (hw : word.any (sameLetter · c) = false) (hr : c ∉ replacement) :
    c ∈ replace word replacement t ↔ c ∈ t := by
  have ht : c ∈ t ↔ c ∈ (cut (wordAt id [word]) t).flatMap Run.written := by
    rw [flatMap_written_cut]
  rw [ht, replace, List.mem_flatMap, List.mem_flatMap]
  refine exists_congr fun run => and_congr_right fun hrun => ?_
  cases run with
  | plain s => rfl
  | word found written =>
    obtain ⟨hm, hs, hl⟩ := written_of_mem_cut (by simpa using hne) hrun
    obtain rfl : found = word := by simpa using hm
    refine iff_of_false hr fun hc => ?_
    obtain ⟨d, hd, hdc⟩ := exists_sameLetter_of_startsWith hs hl.le hc
    exact List.any_eq_false.mp hw d hd hdc

end CellDisplay.Text
