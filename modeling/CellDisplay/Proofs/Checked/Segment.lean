import CellDisplay.Proofs.Checked.DateCode

/-! # What becomes of segments

A pending segment is cut at the leftmost words that do not overlap, where of two words at one place
the one that is listed first is taken. The words become segments that stand for the text as it is
written, and what lies between them stays pending.
-/

namespace CellDisplay

namespace Text

variable {α : Type}

/-- Of the listed words, the text starts with this one and with none before it. -/
def StartsFirst (spelling : α → Text) (words : List α) (word : α) (t : Text) : Prop :=
  startsWith (spelling word) t ∧ ∃ before after, words = before ++ word :: after ∧
    ∀ other ∈ before, ¬ startsWith (spelling other) t

/-- The runs of a text that is cut at the leftmost words. A plain run is not empty, no word starts
in it, and it goes on to the next word or to the end. -/
inductive LeftmostRuns (spelling : α → Text) (words : List α) : Text → List (Run α) → Prop where
  | nil : LeftmostRuns spelling words [] []
  | word {word : α} {written rest : Text} {runs : List (Run α)} :
      StartsFirst spelling words word (written ++ rest) →
      written.length = (spelling word).length → LeftmostRuns spelling words rest runs →
      LeftmostRuns spelling words (written ++ rest) (.word word written :: runs)
  | plain {s rest : Text} {runs : List (Run α)} : s ≠ [] →
      (∀ before after, s = before ++ after → after ≠ [] →
        ∀ word ∈ words, ¬ startsWith (spelling word) (after ++ rest)) →
      (rest = [] ∨ ∃ word ∈ words, startsWith (spelling word) rest) →
      LeftmostRuns spelling words rest runs →
      LeftmostRuns spelling words (s ++ rest) (.plain s :: runs)

/-- The text is not empty, and none of the listed words occurs in it. -/
def IsGap (spelling : α → Text) (words : List α) (t : Text) : Prop :=
  t ≠ [] ∧ ∀ word ∈ words, contains (spelling word) t = false

section Leftmost

variable {spelling : α → Text} {words : List α} {word : α} {s t : Text} {runs : List (Run α)}

theorem wordAt_eq_some_iff_startsFirst :
    wordAt spelling words t = some (word, (spelling word).length) ↔
      StartsFirst spelling words word t := by
  rw [wordAt_eq_some_iff, List.find?_eq_some_iff_append]
  simp [StartsFirst]

theorem quiet_wordAt_iff :
    Quiet (wordAt spelling words) s t ↔
      ∀ before after, s = before ++ after → after ≠ [] →
        ∀ word ∈ words, ¬ startsWith (spelling word) (after ++ t) := by
  simp [Quiet, wordAt_eq_none_iff]

theorem stops_wordAt_iff :
    Stops (wordAt spelling words) t ↔ t = [] ∨ ∃ word ∈ words, startsWith (spelling word) t := by
  simp [Stops, wordAt_eq_none_iff]

theorem leftmostRuns_cut (hw : ∀ word ∈ words, spelling word ≠ []) (t : Text) :
    LeftmostRuns spelling words t (cut (wordAt spelling words) t) := by
  induction t using cut_induction (fits_wordAt hw) with
  | nil =>
    rw [cut_nil]
    exact .nil
  | word t found n hn ih =>
    obtain ⟨-, hstarts, rfl⟩ := mem_of_wordAt hn
    have hfirst := wordAt_eq_some_iff_startsFirst.mp hn
    have hlength := length_le_of_startsWith hstarts
    rw [cut_of_some (fits_wordAt hw) hn]
    rw [← List.take_append_drop (spelling found).length t] at hfirst
    have hruns := LeftmostRuns.word hfirst (List.length_take_of_le hlength) ih
    rwa [List.take_append_drop] at hruns
  | plain s t hs hq ht ih =>
    rw [cut_append_of_quiet (fits_wordAt hw) hq ht hs]
    exact .plain hs (quiet_wordAt_iff.mp hq) (stops_wordAt_iff.mp ht) ih

/-- Cutting gives the runs of the leftmost words, and there are no others. -/
theorem leftmostRuns_iff (hw : ∀ word ∈ words, spelling word ≠ []) :
    LeftmostRuns spelling words t runs ↔ runs = cut (wordAt spelling words) t := by
  constructor
  · intro h
    induction h with
    | nil => rw [cut_nil]
    | @word word written rest runs hfirst hlength _ ih =>
      rw [cut_of_some (fits_wordAt hw) (wordAt_eq_some_iff_startsFirst.mpr hfirst), ← hlength,
        List.take_left, List.drop_left, ih]
    | plain hs hquiet hstops _ ih =>
      rw [cut_append_of_quiet (fits_wordAt hw) (quiet_wordAt_iff.mpr hquiet)
        (stops_wordAt_iff.mpr hstops) hs, ih]
  · rintro rfl
    exact leftmostRuns_cut hw t

theorem LeftmostRuns.flatMap_written (h : LeftmostRuns spelling words t runs) :
    runs.flatMap Run.written = t := by
  induction h with
  | nil => rfl
  | word _ _ _ ih => rw [List.flatMap_cons, ih, Run.written]
  | plain _ _ _ _ ih => rw [List.flatMap_cons, ih, Run.written]

theorem LeftmostRuns.isGap_of_mem (hw : ∀ word ∈ words, spelling word ≠ [])
    (h : LeftmostRuns spelling words t runs) (hs : .plain s ∈ runs) : IsGap spelling words s := by
  obtain rfl := (leftmostRuns_iff hw).mp h
  exact ⟨(exists_of_plain_mem_cut (fits_wordAt hw) hs).1,
    fun _ => not_contains_of_plain_mem_cut hw hs⟩

end Leftmost

end Text

namespace DateCode.Segment

variable {α : Type}

/-- The segment of a run of a pending segment. -/
def ofRun (make : α → Text → Segment) : Text.Run α → Segment
  | .plain t => .pending t
  | .word word written => make word written

/-- What becomes of a segment: a pending one is cut at the leftmost words, and every other one stays
as it is. -/
inductive Splits (spelling : α → Text) (words : List α) (make : α → Text → Segment) :
    Segment → List Segment → Prop where
  | pending {t : Text} {runs : List (Text.Run α)} : Text.LeftmostRuns spelling words t runs →
      Splits spelling words make (.pending t) (runs.map (ofRun make))
  | settled (t : Text) : Splits spelling words make (.settled t) [.settled t]
  | marker (marker : Marker) : Splits spelling words make (.marker marker) [.marker marker]

variable {spelling : α → Text} {words : List α} {make : α → Text → Segment}
  {segments : List Segment} {t : Text}

theorem split_pending (t : Text) :
    split spelling words make (.pending t) =
      (Text.cut (Text.wordAt spelling words) t).map (ofRun make) := by
  rw [split]
  refine List.map_congr_left fun run _ => ?_
  cases run <;> rfl

theorem splits_split (hw : ∀ word ∈ words, spelling word ≠ []) (segment : Segment) :
    Splits spelling words make segment (split spelling words make segment) := by
  cases segment with
  | pending t =>
    rw [split_pending]
    exact .pending (Text.leftmostRuns_cut hw t)
  | settled t => exact .settled t
  | marker marker => exact .marker marker

theorem forall₂_splits (hw : ∀ word ∈ words, spelling word ≠ []) (segments : List Segment) :
    List.Forall₂ (Splits spelling words make) segments
      (segments.map (split spelling words make)) :=
  List.forall₂_map_right_iff.mpr
    (List.forall₂_same.mpr fun segment _ => splits_split hw segment)

/-- A pending segment that comes of a split was made of a word, or no word is left in it. -/
theorem made_or_isGap_of_mem_splitAll (hw : ∀ word ∈ words, spelling word ≠ [])
    (h : .pending t ∈ splitAll spelling words make segments) :
    (∃ word ∈ words, ∃ written, make word written = .pending t) ∨
      Text.IsGap spelling words t := by
  obtain ⟨segment, -, hsegment⟩ := List.mem_flatMap.mp h
  obtain ⟨s, rfl, hrun | ⟨word, written, hrun, hmade⟩⟩ := pending_mem_split_iff.mp hsegment
  · exact .inr ((Text.leftmostRuns_cut hw s).isGap_of_mem hw hrun)
  · exact .inl ⟨word, (Text.written_of_mem_cut hw hrun).1, written, hmade⟩

end DateCode.Segment

namespace Checked

open DateCode Segment

variable {α : Type} {spelling : α → Text} {words : List α}

/-- Segments are split one by one. The runs of a pending segment are those of the leftmost words;
together they are its text, and no word is left in what lies between the words. Only a segment that
is made of a word can be pending and have words in it. By byte offsets, splitting comes to an end
with the same segments. -/
theorem splitAll_leftmost (hw : ∀ word ∈ words, spelling word ≠ []) (make : α → Text → Segment)
    (segments : List Segment) :
    (∃ rows, List.Forall₂ (Splits spelling words make) segments rows ∧
      Segment.splitAll spelling words make segments = rows.flatten) ∧
    (∀ t runs, Text.LeftmostRuns spelling words t runs → runs.flatMap Text.Run.written = t ∧
      ∀ s, .plain s ∈ runs → Text.IsGap spelling words s) ∧
    (∀ t, .pending t ∈ Segment.splitAll spelling words make segments →
      (∃ word ∈ words, ∃ written, make word written = .pending t) ∨
        Text.IsGap spelling words t) ∧
    (Fit segments →
      splitAll spelling words (fun word written => some (make word written)) segments =
        some (Segment.splitAll spelling words make segments)) := by
  refine ⟨⟨_, forall₂_splits hw segments, rfl⟩, fun t runs hruns => ?_,
    fun t => made_or_isGap_of_mem_splitAll hw, splitAll_eq hw⟩
  exact ⟨hruns.flatMap_written, fun s => hruns.isGap_of_mem hw⟩

/-- Of two names at one place the one that is listed first is taken, in any case of its letters. -/
theorem splitAll_leftmost_names :
    (∀ name ∈ ["mar".toList, "march".toList], id name ≠ []) ∧
      Fit [.settled "March".toList, .pending "年MarchMAR ".toList] ∧
      splitAll id ["mar".toList, "march".toList] (fun _ written => some (.settled written))
          [.settled "March".toList, .pending "年MarchMAR ".toList] =
        some [.settled "March".toList, .pending "年".toList, .settled "Mar".toList,
          .pending "ch".toList, .settled "MAR".toList, .pending " ".toList] := by
  have hnames : ∀ name ∈ ["mar".toList, "march".toList], id name ≠ [] := by decide
  have hfit : Fit [.settled "March".toList, .pending "年MarchMAR ".toList] := by
    intro t ht
    obtain rfl : t = "年MarchMAR ".toList := by simpa using ht
    decide +kernel
  obtain ⟨-, -, -, hchecked⟩ := splitAll_leftmost hnames (fun _ written => .settled written)
    [.settled "March".toList, .pending "年MarchMAR ".toList]
  have hsplit : Segment.splitAll id ["mar".toList, "march".toList]
      (fun _ written => .settled written)
      [.settled "March".toList, .pending "年MarchMAR ".toList] =
        [.settled "March".toList, .pending "年".toList, .settled "Mar".toList,
          .pending "ch".toList, .settled "MAR".toList, .pending " ".toList] := by
    decide +kernel
  exact ⟨hnames, hfit, (hchecked hfit).trans (congrArg some hsplit)⟩

end Checked

end CellDisplay
