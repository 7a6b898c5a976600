import CellDisplay.Proofs.Text.Cut

/-! # Words across runs

A word that occurs in the text of some runs lies within a plain one, or it takes letters of more
than one run or of a run that is a word already.
-/

namespace CellDisplay.Text

variable {α : Type} {word s t : Text} {runs : List (Run α)}

/-- A word occurs in the text of the runs, but not within a plain one. -/
inductive Crosses (word : Text) : List (Run α) → Prop where
  /-- The word starts in a plain run and reaches beyond its end. -/
  | leaves {front rest : Text} {runs : List (Run α)} : rest ≠ [] → rest.length < word.length →
      startsWith word (rest ++ runs.flatMap Run.written) →
      Crosses word (.plain (front ++ rest) :: runs)
  /-- The word starts in a run that is a word already. -/
  | overlaps {found : α} {front rest : Text} {runs : List (Run α)} : rest ≠ [] →
      startsWith word (rest ++ runs.flatMap Run.written) →
      Crosses word (.word found (front ++ rest) :: runs)
  | behind {run : Run α} {runs : List (Run α)} : Crosses word runs → Crosses word (run :: runs)

/-- A word that occurs in two texts starts in one of them. -/
theorem contains_append_iff (hw : word ≠ []) :
    contains word (s ++ t) ↔ contains word t ∨
      ∃ front rest, s = front ++ rest ∧ rest ≠ [] ∧ startsWith word (rest ++ t) := by
  constructor
  · intro h
    obtain ⟨-, before, behind, hsplit, hb⟩ := contains_iff.mp h
    rcases List.append_eq_append_iff.mp hsplit with ⟨u, rfl, rfl⟩ | ⟨rest, rfl, rfl⟩
    · exact .inl (contains_iff.mpr ⟨hw, u, behind, rfl, hb⟩)
    · rcases rest with _ | ⟨c, rest⟩
      · exact .inl (contains_iff.mpr ⟨hw, [], t, rfl, hb⟩)
      · exact .inr ⟨before, c :: rest, rfl, List.cons_ne_nil c rest, hb⟩
  · rintro (h | ⟨front, rest, rfl, -, h⟩)
    · exact contains_of_isInfix (List.suffix_append s t).isInfix h
    · exact contains_iff.mpr ⟨hw, front, rest ++ t, List.append_assoc _ _ _, h⟩

/-- A word that starts in the first run lies within it or crosses its end. -/
theorem within_or_crosses_of_startsWith {run : Run α} {front rest : Text}
    (hrun : run.written = front ++ rest) (hne : rest ≠ [])
    (hs : startsWith word (rest ++ runs.flatMap Run.written)) :
    (∃ s, run = .plain s ∧ startsWith word rest) ∨ Crosses word (run :: runs) := by
  cases run with
  | word found written =>
    obtain rfl : written = front ++ rest := hrun
    exact .inr (.overlaps hne hs)
  | plain s =>
    obtain rfl : s = front ++ rest := hrun
    rcases Nat.lt_or_ge rest.length word.length with hlt | hle
    · exact .inr (.leaves hne hlt hs)
    · exact .inl ⟨_, rfl, startsWith_of_append hs hle⟩

theorem contains_of_crosses (hw : word ≠ []) (h : Crosses word runs) :
    contains word (runs.flatMap Run.written) := by
  induction h with
  | leaves hne _ hs => exact (contains_append_iff hw).mpr (.inr ⟨_, _, rfl, hne, hs⟩)
  | overlaps hne hs => exact (contains_append_iff hw).mpr (.inr ⟨_, _, rfl, hne, hs⟩)
  | behind _ ih => exact (contains_append_iff hw).mpr (.inl ih)

/-- A word occurs in the text of the runs within a plain run or across runs. -/
theorem contains_flatMap_written_iff (hw : word ≠ []) :
    contains word (runs.flatMap Run.written) ↔
      (∃ s, .plain s ∈ runs ∧ contains word s) ∨ Crosses word runs := by
  constructor
  · intro h
    induction runs with
    | nil => simp [contains_nil] at h
    | cons run runs ih =>
      rcases (contains_append_iff hw).mp h with h | ⟨front, rest, hrun, hne, hs⟩
      · rcases ih h with ⟨s, hm, hc⟩ | hcross
        · exact .inl ⟨s, List.mem_cons_of_mem run hm, hc⟩
        · exact .inr (.behind hcross)
      · rcases within_or_crosses_of_startsWith hrun hne hs with ⟨s, rfl, hr⟩ | hcross
        · exact .inl ⟨s, List.mem_cons_self, contains_iff.mpr ⟨hw, front, rest, hrun, hr⟩⟩
        · exact .inr hcross
  · rintro (⟨s, hm, hc⟩ | h)
    · have hinfix : s <:+: runs.flatMap Run.written :=
        List.infix_of_mem_flatten (List.mem_map_of_mem (f := Run.written) hm)
      exact contains_of_isInfix hinfix hc
    · exact contains_of_crosses hw h

end CellDisplay.Text
