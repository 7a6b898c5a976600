import CellDisplay.Proofs.Format.Section
import CellDisplay.Proofs.NumberCode.Lowering
import CellDisplay.Proofs.NumberPattern.Separator
import CellDisplay.Proofs.Text.Cut

/-! # Negative subpatterns of lowered codes

The pattern of a lowered code has a negative subpattern exactly if a semicolon is left in the
code of the first section. This happens only where the scan for the first section and the scan
into pieces part ways.
-/

namespace CellDisplay.NumberCode

open FormatCode NumberPattern

variable {code t : Text}

theorem ofChar_eq_separator_iff {c : Char} : Token.ofChar c = .separator ↔ c = ';' := by
  constructor
  · unfold Token.ofChar
    split <;> simp
  · rintro rfl
    rfl

theorem semicolon_mem_replace_general :
    ';' ∈ Text.replace generalWord generalPattern t ↔ ';' ∈ t :=
  Text.mem_replace_iff (by decide) (by decide) (by decide)

theorem separator_mem_codeTokens : .separator ∈ codeTokens t ↔ ';' ∈ t := by
  rw [← semicolon_mem_replace_general, codeTokens, List.mem_map]
  constructor
  · rintro ⟨c, hc, hs⟩
    obtain ⟨d, hd, rfl⟩ := List.mem_map.mp hc
    have hd' : d = ';' := by
      have hc := ofChar_eq_separator_iff.mp hs
      split at hc
      · simp at hc
      · exact hc
    exact hd' ▸ (List.mem_filter.mp hd).1
  · intro h
    exact ⟨';', List.mem_map.mpr ⟨';', List.mem_filter.mpr ⟨h, by decide⟩, rfl⟩, rfl⟩

theorem separator_mem_pieceTokens {piece : Piece} :
    .separator ∈ pieceTokens piece ↔ ';' ∈ codeText [piece] := by
  cases piece with
  | code text => simp [pieceTokens, separator_mem_codeTokens, codeText]
  | literal text => simp [pieceTokens, codeText]
  | elapsed unit width => simp [pieceTokens, codeText]

theorem separator_mem_joinedTokens {behind : Bool} {pieces : List Piece} :
    .separator ∈ joinedTokens behind pieces ↔ ';' ∈ codeText pieces := by
  induction pieces generalizing behind with
  | nil => simp [joinedTokens, codeText]
  | cons piece rest ih =>
    have hrest : codeText (piece :: rest) = codeText [piece] ++ codeText rest := by
      simp [codeText]
    rw [joinedTokens, hrest, List.mem_append, List.mem_append, List.mem_append, ih,
      separator_mem_pieceTokens]
    simp

/-- A lowered code keeps the semicolons of its pieces, unless it has no pieces or is taken for a
fraction. -/
theorem separator_mem_tokens_lower (code : Text) :
    .separator ∈ (tokens (lower code)).toList ↔
      ';' ∈ codeText (pieces code) ∧ '/' ∉ codeText (pieces code) := by
  by_cases hp : pieces code = []
  · have hl : lower code = generalPattern := by simp [lower, hp]
    have hs : .separator ∉ (tokens generalPattern).toList := by decide +kernel
    simp [hl, hs, hp, codeText]
  · by_cases hf : '/' ∈ codeText (pieces code)
    · have hl : lower code = fractionPattern := by simp [lower, hp, hf]
      have hs : .separator ∉ (tokens fractionPattern).toList := by decide +kernel
      simp [hl, hs, hf]
    · have hspelled : (tokens (lower code)).spelled? =
          some (joinedTokens false (pieces code)) := by
        rw [lower_of_pieces hp hf]
        exact spellingAt_flatMap_lowerPiece false _
      rw [← separator_mem_spelled_iff hspelled, separator_mem_joinedTokens]
      exact ⟨fun h => ⟨h, hf⟩, fun h => h.1⟩

theorem isSome_negative_of_parse_lower {pattern : NumberPattern}
    (h : parse (lower code) = .ok pattern) :
    pattern.negative.isSome ↔ ';' ∈ codeText (pieces code) ∧ '/' ∉ codeText (pieces code) := by
  rw [← separator_mem_tokens_lower]
  unfold parse at h
  split at h
  · simp at h
  · exact isSome_negative_iff h

/-- The plain section is the longest beginning of a code whose pieces hold no semicolon as code.
The first section is the plain one exactly if its own pieces hold none and the semicolon behind
it is taken for code, which is so wherever no two neighbours part the scans. A lowered code has
a negative subpattern exactly if the first section reaches beyond the plain one and is not
taken for a fraction. -/
theorem firstSection_against_plainSection (code : Text) :
    (∀ s, s <+: code → (s <+: plainSection code ↔ ';' ∉ codeText (sectionPieces s))) ∧
      (firstSection code = plainSection code ↔
        ';' ∉ codeText (pieces code) ∧
          (firstSection code = code ∨ Reading.behind (firstSection code) = .plain)) ∧
      (code.IsChain (fun c d => ¬ Parts c d) → firstSection code = plainSection code) ∧
      ∀ pattern, parse (lower code) = .ok pattern →
        (pattern.negative.isSome ↔
          ¬ firstSection code <+: plainSection code ∧ '/' ∉ codeText (pieces code)) := by
  refine ⟨fun s hs => ?_, firstSection_eq_plainSection_iff code,
    firstSection_eq_plainSection_of_isChain, fun pattern h => ?_⟩
  · rw [codeText_sectionPieces]
    exact (semicolon_not_mem_codeFrom_iff hs).symm
  · rw [isSome_negative_of_parse_lower h, ← semicolon_not_mem_codeText_iff, not_not]

theorem firstSection_against_plainSection_padded :
    "0.0_);(0.0)".toList.IsChain (fun c d => ¬ Parts c d) ∧
      firstSection "0.0_);(0.0)".toList = plainSection "0.0_);(0.0)".toList :=
  have hc : "0.0_);(0.0)".toList.IsChain fun c d => ¬ Parts c d := by decide +kernel
  ⟨hc, (firstSection_against_plainSection _).2.2.1 hc⟩

/-- Brackets that end behind a backslash hide the semicolon from the first section only, and a
negative subpattern is left. -/
theorem exists_negative_of_lower :
    ∃ code, firstSection code ≠ plainSection code ∧ ';' ∈ codeText (pieces code) ∧
      (parse (lower code)).toOption.any fun pattern => pattern.negative.isSome :=
  ⟨"0[\\];-0".toList, by decide +kernel⟩

end CellDisplay.NumberCode
