import CellDisplay.Proofs.DateCode.Shown
import CellDisplay.Proofs.Text.Crossing

/-! # Spelled names and kept names

The letters for the month and the day are turned off by names that are spelled in the code text,
while names are kept as they are written in the code between the markers. A name that is kept is
spelled. A spelled name that is not kept crosses a place where the code was cut: the end of a
piece, a marker, or for weekdays the name of a month.
-/

namespace CellDisplay.DateCode

open FormatCode

variable {names : List Text} {segments : List Segment} {runs : List (Text.Run Text)} {s t : Text}

section Runs

/-- Cuts the plain runs at further words. -/
def cutPlain (words : List Text) (runs : List (Text.Run Text)) : List (Text.Run Text) :=
  runs.flatMap fun
    | .plain t => Text.cut (Text.wordAt id words) t
    | run => [run]

/-- The code of the pieces, cut at the markers. -/
def markerRuns (pieces : List Piece) : List (Text.Run Text) :=
  cutPlain halfDayMarkers (pieces.flatMap fun
    | .code t => [.plain t]
    | _ => [])

/-- The code of the pieces, cut at the markers and then at the names of months. -/
def monthRuns (pieces : List Piece) : List (Text.Run Text) :=
  cutPlain englishMonths.toList (markerRuns pieces)

theorem flatMap_written_cutPlain (words : List Text) :
    (cutPlain words runs).flatMap Text.Run.written = runs.flatMap Text.Run.written := by
  rw [cutPlain, List.flatMap_assoc]
  refine List.flatMap_congr fun run _ => ?_
  cases run with
  | plain t => exact Text.flatMap_written_cut _ t
  | word found written => exact List.flatMap_singleton _ _

theorem plain_mem_cutPlain_iff (words : List Text) :
    .plain s ∈ cutPlain words runs ↔
      ∃ t, .plain t ∈ runs ∧ .plain s ∈ Text.cut (Text.wordAt id words) t := by
  rw [cutPlain, List.mem_flatMap]
  constructor
  · rintro ⟨run, hrun, hs⟩
    cases run with
    | plain t => exact ⟨t, hrun, hs⟩
    | word found written => simp at hs
  · rintro ⟨t, ht, hs⟩
    exact ⟨.plain t, ht, hs⟩

theorem flatMap_written_markerRuns (pieces : List Piece) :
    (markerRuns pieces).flatMap Text.Run.written = codeText pieces := by
  rw [markerRuns, flatMap_written_cutPlain, List.flatMap_assoc, codeText]
  refine List.flatMap_congr fun piece _ => ?_
  cases piece with
  | code t => exact List.append_nil t
  | literal | elapsed => rfl

theorem flatMap_written_monthRuns (pieces : List Piece) :
    (monthRuns pieces).flatMap Text.Run.written = codeText pieces := by
  rw [monthRuns, flatMap_written_cutPlain, flatMap_written_markerRuns]

end Runs

section Pending

/-- The pending segments are the plain runs. -/
def Aligned (segments : List Segment) (runs : List (Text.Run Text)) : Prop :=
  ∀ s, .pending s ∈ segments ↔ .plain s ∈ runs

theorem pending_mem_split_iff_of_ne {words : List Text} {make : Text → Text → Segment}
    {segment : Segment} (hmake : ∀ word written s, make word written ≠ .pending s) :
    .pending s ∈ segment.split id words make ↔
      ∃ t, segment = .pending t ∧ .plain s ∈ Text.cut (Text.wordAt id words) t := by
  simp [pending_mem_split_iff, hmake]

theorem Aligned.splitAll {words : List Text} {make : Text → Text → Segment}
    (h : Aligned segments runs) (hmake : ∀ word written s, make word written ≠ .pending s) :
    Aligned (Segment.splitAll id words make segments) (cutPlain words runs) := by
  intro s
  rw [plain_mem_cutPlain_iff, Segment.splitAll, List.mem_flatMap]
  constructor
  · rintro ⟨segment, hsegment, hs⟩
    obtain ⟨t, rfl, hrun⟩ := (pending_mem_split_iff_of_ne hmake).mp hs
    exact ⟨t, (h t).mp hsegment, hrun⟩
  · rintro ⟨t, ht, hrun⟩
    exact ⟨.pending t, (h t).mpr ht, (pending_mem_split_iff_of_ne hmake).mpr ⟨t, rfl, hrun⟩⟩

theorem Aligned.keepNames (h : Aligned segments runs) (names : List Text) :
    Aligned (keepNames names segments) (cutPlain names runs) :=
  h.splitAll fun _ _ _ => Segment.noConfusion

theorem aligned_cutMarkers (pieces : List Piece) (fields : DateFields) :
    Aligned (cutMarkers (pieces.map (ofPiece fields))) (markerRuns pieces) := by
  refine Aligned.splitAll ?_ ?_
  · intro s
    rw [List.mem_map, List.mem_flatMap]
    refine exists_congr fun piece => and_congr_right fun _ => ?_
    cases piece <;> simp [ofPiece, eq_comm]
  · intro marker written s
    split <;> exact Segment.noConfusion

end Pending

section Kept

def isSettled : Segment → Bool
  | .settled _ => true
  | _ => false

/-- A name in a pending segment is kept as it is written. -/
def keepsName (names : List Text) (segments : List Segment) : Bool :=
  segments.any fun
    | .pending t => (keepNames names [.pending t]).any isSettled
    | _ => false

theorem any_isSettled_keepNames_iff (hn : ∀ name ∈ names, id name ≠ []) (t : Text) :
    (keepNames names [.pending t]).any isSettled ↔ spells names t := by
  rw [← exists_name_mem_cut_iff hn, keepNames, Segment.splitAll, List.flatMap_singleton,
    Segment.split, List.any_map, List.any_eq_true]
  constructor
  · rintro ⟨run, hrun, hsettled⟩
    cases run with
    | plain s => cases hsettled
    | word found written => exact ⟨found, written, hrun⟩
  · rintro ⟨found, written, hrun⟩
    exact ⟨.word found written, hrun, rfl⟩

theorem keepsName_iff (hn : ∀ name ∈ names, id name ≠ []) :
    keepsName names segments ↔ ∃ t, .pending t ∈ segments ∧ spells names t := by
  rw [keepsName, List.any_eq_true]
  constructor
  · rintro ⟨segment, hsegment, hkept⟩
    cases segment with
    | settled t => cases hkept
    | marker m => cases hkept
    | pending t => exact ⟨t, hsegment, (any_isSettled_keepNames_iff hn t).mp hkept⟩
  · rintro ⟨t, ht, hspells⟩
    exact ⟨.pending t, ht, (any_isSettled_keepNames_iff hn t).mpr hspells⟩

/-- A spelled name is kept, or it crosses the runs. -/
theorem spells_flatMap_written_iff (hn : ∀ name ∈ names, id name ≠ [])
    (h : Aligned segments runs) :
    spells names (runs.flatMap Text.Run.written) ↔
      keepsName names segments ∨ ∃ name ∈ names, Text.Crosses name runs := by
  rw [keepsName_iff hn, spells_iff]
  constructor
  · rintro ⟨name, hname, hc⟩
    rcases (Text.contains_flatMap_written_iff (hn name hname)).mp hc with ⟨s, hs, hc⟩ | hcross
    · exact .inl ⟨s, (h s).mpr hs, spells_iff.mpr ⟨name, hname, hc⟩⟩
    · exact .inr ⟨name, hname, hcross⟩
  · rintro (⟨s, hs, hspells⟩ | ⟨name, hname, hcross⟩)
    · obtain ⟨name, hname, hc⟩ := spells_iff.mp hspells
      exact ⟨name, hname,
        (Text.contains_flatMap_written_iff (hn name hname)).mpr (.inl ⟨s, (h s).mp hs, hc⟩)⟩
    · exact ⟨name, hname, Text.contains_of_crosses (hn name hname) hcross⟩

/-- The single letter for the month is turned off exactly if the name of a month is kept in the
code between the markers or crosses a place where the code was cut. The single letter for the day
is turned off in the same way by names of weekdays, for which the code is cut at the kept names of
months too. -/
theorem substitute_turnsOff_iff (pieces : List Piece) (code : Text) (fields : DateFields) :
    let marked := cutMarkers (pieces.map (ofPiece fields))
    let named := keepNames englishMonths.toList marked
    ∃ month day,
      substitute pieces code fields =
        ((stages month day).foldl (replaceStage (clockOf code marked) fields)
          (keepNames englishWeekdays.toList named)).flatMap (Segment.text fields) ∧
      (month = false ↔ keepsName englishMonths.toList marked ∨
        ∃ name ∈ englishMonths.toList, Text.Crosses name (markerRuns pieces)) ∧
      (day = false ↔ keepsName englishWeekdays.toList named ∨
        ∃ name ∈ englishWeekdays.toList, Text.Crosses name (monthRuns pieces)) := by
  intro marked named
  have hmarked : Aligned marked (markerRuns pieces) := aligned_cutMarkers pieces fields
  have hnamed : Aligned named (monthRuns pieces) := hmarked.keepNames englishMonths.toList
  refine ⟨!spells englishMonths.toList (codeText pieces),
    !spells englishWeekdays.toList (codeText pieces), rfl, ?_, ?_⟩
  · rw [Bool.not_eq_false', ← flatMap_written_markerRuns pieces]
    exact spells_flatMap_written_iff month_ne_nil hmarked
  · rw [Bool.not_eq_false', ← flatMap_written_monthRuns pieces]
    exact spells_flatMap_written_iff weekday_ne_nil hnamed

/-- Two pieces whose code spells a month together. -/
def crossingPieces : List Piece := FormatCode.pieces "Ma\"x\"y m".toList

/-- The letter for the month is turned off by a name that no piece holds, and in the same way by
the last letter of a marker with the letters behind it. -/
theorem substitute_turnsOff_crossing :
    spells englishMonths.toList (codeText crossingPieces) ∧
      keepsName englishMonths.toList
        (cutMarkers (crossingPieces.map (ofPiece afternoonFields))) = false ∧
      substitute crossingPieces [] afternoonFields = "Maxy m".toList ∧
      ((stages true true).foldl (replaceStage .twentyFour afternoonFields)
        (cutMarkers (crossingPieces.map (ofPiece afternoonFields)))).flatMap
          (Segment.text afternoonFields) = "3axy 3".toList ∧
      route? ⟨176, 176, "Ma\"x\"y m".toList⟩ = some .substitute ∧
      render (Binary64.ofRatio 725705 16) ⟨176, 176, "Ma\"x\"y m".toList⟩ .substitute
        (.ofLocale .enUS) = .ok "Maxy m".toList ∧
      keepsName englishMonths.toList
        (cutMarkers [ofPiece afternoonFields (.code "AM/PMarch m".toList)]) = false ∧
      substitute [.code "AM/PMarch m".toList] [] afternoonFields = "PMarc1 m".toList := by
  refine ⟨by decide +kernel, by decide +kernel, by decide +kernel, by decide +kernel,
    by decide +kernel, by decide +kernel, by decide +kernel, by decide +kernel⟩

end Kept

end CellDisplay.DateCode
