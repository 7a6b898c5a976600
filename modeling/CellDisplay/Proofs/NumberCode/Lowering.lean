import CellDisplay.NumberCode.Lowering
import CellDisplay.Proofs.NumberPattern.Spelling

/-! # What a lowered format code spells

The pieces of a format code are lowered one by one, and the tokens of the result are those of
the pieces in order, as long as no two quoted runs come to stand side by side. A run that
opens right where another one has been closed spells an apostrophe that no piece has.
-/

namespace CellDisplay.NumberCode

open FormatCode NumberPattern

/-- The tokens that a text of code stands for: the general keyword stands for its pattern, a
question mark for an optional place and an at sign for nothing. -/
def codeTokens (t : Text) : List Token :=
  (((Text.replace generalWord generalPattern t).filter (· ≠ '@')).map fun c =>
    if c = '?' then '#' else c).map .ofChar

/-- The tokens that a piece stands for. -/
def pieceTokens : Piece → List Token
  | .code text => codeTokens text
  | .literal text => text.map .literal
  | .elapsed _ _ => []

/-- The piece is lowered to text with a quoted run. -/
def opensRun : Piece → Bool
  | .literal text => !isBare text
  | _ => false

/-- The piece stands for apostrophes only, or for nothing. -/
def isQuiet (piece : Piece) : Bool := (pieceTokens piece).all (· = .literal apostrophe)

/-- Two quoted runs come to stand side by side, with no more than apostrophes between them. -/
def RunsTouch (pieces : List Piece) : Prop :=
  ∃ before first between second after,
    pieces = before ++ first :: (between ++ second :: after) ∧
      opensRun first ∧ opensRun second ∧ ∀ piece ∈ between, isQuiet piece

/-- The tokens of lowered pieces, of which the first may stand behind a closed run. -/
def joinedTokens : Bool → List Piece → List Token
  | _, [] => []
  | behind, piece :: rest =>
    (if behind && opensRun piece then [.literal apostrophe] else []) ++ pieceTokens piece ++
      joinedTokens (opensRun piece || (behind && isQuiet piece)) rest

theorem flatMap_lowerChar (t : Text) :
    t.flatMap lowerChar =
      doubled ((t.filter (· ≠ '@')).map fun c => if c = '?' then '#' else c) := by
  induction t with
  | nil => rfl
  | cons c t ih =>
    rw [List.flatMap_cons, ih, lowerChar]
    split
    · subst c
      simp [doubled_cons (c := '#') (by decide)]
    · split
      · subst c
        simp
      · rename_i hq ha
        simp [doubled, hq, ha]

theorem ofChar_eq_apostrophe_iff {c : Char} :
    Token.ofChar c = .literal apostrophe ↔ c = apostrophe := by
  constructor
  · unfold Token.ofChar
    split <;> simp
  · rintro rfl
    rfl

theorem isQuiet_literal (t : Text) : isQuiet (.literal t) = isBare t := by
  simp [isQuiet, isBare, pieceTokens, List.all_map, Function.comp_def]

/-- What one lowered piece adds to the spelling, and whether a run stays closed behind it. -/
theorem spellingAt_lowerPiece (behind : Bool) (piece : Piece) (t : Text) :
    spellingAt behind (lowerPiece piece ++ t) =
      (spellingAt (opensRun piece || (behind && isQuiet piece)) t).map
        ((if behind && opensRun piece then [.literal apostrophe] else []) ++
          pieceTokens piece ++ ·) := by
  cases piece with
  | code text =>
    have hq : isQuiet (.code text) =
        isBare (((Text.replace generalWord generalPattern text).filter (· ≠ '@')).map
          fun c => if c = '?' then '#' else c) := by
      simp only [isQuiet, isBare, pieceTokens, codeTokens, List.all_map, Function.comp_def,
        ofChar_eq_apostrophe_iff]
    rw [lowerPiece, flatMap_lowerChar, spellingAt_doubled, hq]
    simp [opensRun, pieceTokens, codeTokens]
  | literal text =>
    rw [lowerPiece, spellingAt_quote, isQuiet_literal]
    cases behind <;> cases hb : isBare text <;> simp [opensRun, pieceTokens, hb]
  | elapsed unit width => simp [lowerPiece, opensRun, pieceTokens, isQuiet]

/-- No run of the lowered pieces stays open, and their tokens are joined in order. -/
theorem spellingAt_flatMap_lowerPiece (behind : Bool) (pieces : List Piece) :
    spellingAt behind (pieces.flatMap lowerPiece) = some (joinedTokens behind pieces) := by
  induction pieces generalizing behind with
  | nil => simp [joinedTokens]
  | cons piece rest ih => simp [spellingAt_lowerPiece, ih, joinedTokens]

/-- The number of runs among the pieces that open where another one has been closed. -/
def touches : Bool → List Piece → Nat
  | _, [] => 0
  | behind, piece :: rest =>
    (if behind && opensRun piece then 1 else 0) +
      touches (opensRun piece || (behind && isQuiet piece)) rest

theorem length_joinedTokens (behind : Bool) (pieces : List Piece) :
    (joinedTokens behind pieces).length =
      (pieces.flatMap pieceTokens).length + touches behind pieces := by
  induction pieces generalizing behind with
  | nil => rfl
  | cons piece rest ih =>
    simp only [joinedTokens, touches, List.flatMap_cons, List.length_append, ih]
    split <;> simp <;> omega

theorem joinedTokens_of_touches {behind : Bool} {pieces : List Piece}
    (h : touches behind pieces = 0) :
    joinedTokens behind pieces = pieces.flatMap pieceTokens := by
  induction pieces generalizing behind with
  | nil => rfl
  | cons piece rest ih =>
    obtain ⟨hn, hr⟩ := Nat.add_eq_zero_iff.mp h
    have hb : (behind && opensRun piece) = false := by simpa using hn
    simp [joinedTokens, hb, ih hr]

theorem joinedTokens_eq_iff {behind : Bool} {pieces : List Piece} :
    joinedTokens behind pieces = pieces.flatMap pieceTokens ↔ touches behind pieces = 0 := by
  refine ⟨fun h => ?_, joinedTokens_of_touches⟩
  have hl := length_joinedTokens behind pieces
  rw [h] at hl
  omega

def RunFollows (pieces : List Piece) : Prop :=
  ∃ between second after, pieces = between ++ second :: after ∧
    opensRun second ∧ ∀ piece ∈ between, isQuiet piece

theorem runFollows_cons {piece : Piece} {rest : List Piece} :
    RunFollows (piece :: rest) ↔ opensRun piece ∨ isQuiet piece ∧ RunFollows rest := by
  constructor
  · rintro ⟨between, second, after, h, hs, hb⟩
    cases between with
    | nil =>
      obtain ⟨rfl, rfl⟩ := List.cons.inj h
      exact .inl hs
    | cons _ between =>
      obtain ⟨rfl, rfl⟩ := List.cons.inj h
      exact .inr ⟨hb _ (by simp), between, second, after, rfl, hs,
        fun q hq => hb q (by simp [hq])⟩
  · rintro (h | ⟨hq, between, second, after, rfl, hs, hb⟩)
    · exact ⟨[], piece, rest, rfl, h, by simp⟩
    · exact ⟨piece :: between, second, after, rfl, hs, by simpa using ⟨hq, hb⟩⟩

theorem runsTouch_cons {piece : Piece} {rest : List Piece} :
    RunsTouch (piece :: rest) ↔ opensRun piece ∧ RunFollows rest ∨ RunsTouch rest := by
  constructor
  · rintro ⟨before, first, between, second, after, h, hf, hs, hb⟩
    cases before with
    | nil =>
      obtain ⟨rfl, rfl⟩ := List.cons.inj h
      exact .inl ⟨hf, between, second, after, rfl, hs, hb⟩
    | cons _ before =>
      obtain ⟨rfl, rfl⟩ := List.cons.inj h
      exact .inr ⟨before, first, between, second, after, rfl, hf, hs, hb⟩
  · rintro (⟨hf, between, second, after, rfl, hs, hb⟩ |
      ⟨before, first, between, second, after, rfl, hf, hs, hb⟩)
    · exact ⟨[], piece, between, second, after, rfl, hf, hs, hb⟩
    · exact ⟨piece :: before, first, between, second, after, rfl, hf, hs, hb⟩

theorem touches_pos_iff {behind : Bool} {pieces : List Piece} :
    0 < touches behind pieces ↔ behind ∧ RunFollows pieces ∨ RunsTouch pieces := by
  induction pieces generalizing behind with
  | nil => simp [touches, RunFollows, RunsTouch]
  | cons piece rest ih =>
    rw [runFollows_cons, runsTouch_cons, touches, Nat.add_pos_iff_pos_or_pos, ih]
    cases behind <;> cases opensRun piece <;> cases isQuiet piece <;> simp

theorem lower_of_pieces {code : Text} (hp : pieces code ≠ [])
    (hf : '/' ∉ codeText (pieces code)) : lower code = (pieces code).flatMap lowerPiece := by
  simp [lower, hp, hf]

/-- Lowering never leaves a quoted run open, and it spells the tokens of the pieces in order
exactly when no two quoted runs touch; each run that touches the one before it spells an
apostrophe that no piece has. -/
theorem spelled?_tokens_lower {code : Text} (hp : pieces code ≠ [])
    (hf : '/' ∉ codeText (pieces code)) :
    (tokens (lower code)).spelled? = some (joinedTokens false (pieces code)) ∧
      ((tokens (lower code)).spelled? = some ((pieces code).flatMap pieceTokens) ↔
        ¬ RunsTouch (pieces code)) := by
  have hj : (tokens (lower code)).spelled? = some (joinedTokens false (pieces code)) := by
    rw [lower_of_pieces hp hf]
    exact spellingAt_flatMap_lowerPiece false _
  refine ⟨hj, ?_⟩
  have ht : 0 < touches false (pieces code) ↔ RunsTouch (pieces code) := by
    simp [touches_pos_iff]
  rw [hj, Option.some.injEq, joinedTokens_eq_iff, ← ht]
  omega

theorem spelled?_tokens_lower_apostrophes :
    pieces "\"it's\"'0@".toList ≠ [] ∧ '/' ∉ codeText (pieces "\"it's\"'0@".toList) ∧
      (tokens (lower "\"it's\"'0@".toList)).spelled? =
        some (joinedTokens false (pieces "\"it's\"'0@".toList)) ∧
      ((tokens (lower "\"it's\"'0@".toList)).spelled? =
          some ((pieces "\"it's\"'0@".toList).flatMap pieceTokens) ↔
        ¬ RunsTouch (pieces "\"it's\"'0@".toList)) :=
  have hp : pieces "\"it's\"'0@".toList ≠ [] := by decide +kernel
  have hf : '/' ∉ codeText (pieces "\"it's\"'0@".toList) := by decide +kernel
  ⟨hp, hf, spelled?_tokens_lower hp hf⟩

/-- Two literal texts with a dropped at sign between them spell an apostrophe more. -/
theorem exists_spelled?_tokens_lower_ne :
    ∃ code, pieces code ≠ [] ∧ '/' ∉ codeText (pieces code) ∧
      (tokens (lower code)).spelled? ≠ some ((pieces code).flatMap pieceTokens) :=
  ⟨"0\"a\"@\"b\"".toList, by decide +kernel⟩

end CellDisplay.NumberCode
