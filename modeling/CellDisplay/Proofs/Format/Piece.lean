import CellDisplay.Proofs.Format.Section

/-! # The form of the pieces of a code

However code, literal texts and tags follow one another in a section, its pieces are not empty, and
neighbours of one kind are merged. The pieces for elapsed time are those of the bracket tags that
repeat the letter of a unit.
-/

namespace CellDisplay.FormatCode

namespace Piece

def isCode (piece : Piece) : Bool := piece matches code _

def isLiteral (piece : Piece) : Bool := piece matches literal _

def isElapsed (piece : Piece) : Bool := piece matches elapsed _ _

/-- The pieces are not both code or both literal. -/
def Apart (a b : Piece) : Prop := ¬ (a.isCode ∧ b.isCode) ∧ ¬ (a.isLiteral ∧ b.isLiteral)

/-- No piece of text is empty, and neighbours of one kind are merged. -/
structure Normal (pieces : List Piece) : Prop where
  code_nonempty : .code [] ∉ pieces
  literal_nonempty : .literal [] ∉ pieces
  apart : pieces.IsChain Apart

section Normal

variable {c : Char} {t : Text} {piece : Piece} {pieces : List Piece}

theorem normal_nil : Normal [] := ⟨by simp, by simp, .nil⟩

theorem normal_cons_iff :
    Normal (piece :: pieces) ↔
      piece ≠ .code [] ∧ piece ≠ .literal [] ∧ (∀ next ∈ pieces.head?, Apart piece next) ∧
        Normal pieces := by
  constructor
  · rintro ⟨hc, hl, ha⟩
    simp only [List.mem_cons, not_or] at hc hl
    obtain ⟨hhead, htail⟩ := List.isChain_cons.mp ha
    exact ⟨Ne.symm hc.1, Ne.symm hl.1, hhead, hc.2, hl.2, htail⟩
  · rintro ⟨hc, hl, hhead, hc', hl', ha⟩
    refine ⟨?_, ?_, List.isChain_cons.mpr ⟨hhead, ha⟩⟩
    · simpa using ⟨hc.symm, hc'⟩
    · simpa using ⟨hl.symm, hl'⟩

theorem Normal.consCode (h : Normal pieces) (c : Char) : Normal (consCode c pieces) := by
  unfold Piece.consCode
  split
  · rename_i text rest
    obtain ⟨-, -, hhead, hrest⟩ := normal_cons_iff.mp h
    exact normal_cons_iff.mpr ⟨by simp, by simp, hhead, hrest⟩
  · rename_i hne
    refine normal_cons_iff.mpr ⟨by simp, by simp, ?_, h⟩
    intro next hnext
    obtain ⟨rest, rfl⟩ := List.head?_eq_some_iff.mp hnext
    cases next with
    | code text => exact absurd rfl (hne text rest)
    | _ => simp [Apart, isCode, isLiteral]

theorem Normal.consLiteral (h : Normal pieces) (t : Text) : Normal (consLiteral t pieces) := by
  unfold Piece.consLiteral
  split
  · exact h
  · rename_i ht
    split
    · rename_i text rest
      obtain ⟨-, -, hhead, hrest⟩ := normal_cons_iff.mp h
      exact normal_cons_iff.mpr ⟨by simp, by simp [ht], hhead, hrest⟩
    · rename_i hne
      refine normal_cons_iff.mpr ⟨by simp, by simpa using ht, ?_, h⟩
      intro next hnext
      obtain ⟨rest, rfl⟩ := List.head?_eq_some_iff.mp hnext
      cases next with
      | literal text => exact absurd rfl (hne text rest)
      | _ => simp [Apart, isCode, isLiteral]

theorem Normal.consTag (h : Normal pieces) (tag : Text) : Normal (consTag tag pieces) := by
  unfold FormatCode.consTag
  split
  · exact h.consLiteral _
  · split
    · rename_i htag
      obtain ⟨unit, width, rfl⟩ := exists_elapsed_of_elapsedTag? htag
      refine normal_cons_iff.mpr ⟨by simp, by simp, ?_, h⟩
      intro next _
      simp [Apart, isCode, isLiteral]
    · exact h

end Normal

end Piece

theorem normal_sectionPieces (t : Text) : Piece.Normal (sectionPieces t) := by
  fun_induction sectionPieces t with
  | case1 => exact Piece.normal_nil
  | case2 rest ih => exact ih.consLiteral _
  | case3 rest ih => exact ih.consTag _
  | case4 rest ih => exact ih.consLiteral _
  | case5 rest ih => exact ih.consLiteral _
  | case6 rest ih => exact ih
  | case7 c rest _ _ _ _ _ ih => exact ih.consCode c

section Code

variable {reading : Reading} {c : Char} {t text : Text} {pieces : List Piece}

theorem after_plain_of_mem_codeFrom (h : c ∈ codeFrom reading t) :
    Reading.after .plain c = .plain := by
  induction t generalizing reading with
  | nil => cases h
  | cons d rest ih =>
    rw [codeFrom] at h
    split at h
    · rename_i hd
      rcases List.mem_cons.mp h with rfl | hrest
      · rw [hd.1] at hd
        exact hd.2
      · exact ih hrest
    · exact ih h

theorem mem_codeText (hc : c ∈ text) (h : .code text ∈ pieces) : c ∈ codeText pieces :=
  List.mem_flatMap.mpr ⟨.code text, h, hc⟩

/-- The characters that open a quoted text or a tag, or hide the next character. -/
def openers : List Char := ['"', '[', '\\', '_', '*']

theorem not_mem_openers (h : Reading.after .plain c = .plain) : c ∉ openers := by
  intro hc
  simp only [openers, List.mem_cons, List.not_mem_nil, or_false] at hc
  rcases hc with rfl | rfl | rfl | rfl | rfl <;> exact absurd h (by decide)

theorem not_mem_openers_of_mem_code (h : .code text ∈ sectionPieces t) (hc : c ∈ text) :
    c ∉ openers := by
  have hmem := mem_codeText hc h
  rw [codeText_sectionPieces] at hmem
  exact not_mem_openers (after_plain_of_mem_codeFrom hmem)

end Code

/-- The contents of the bracket tags that the scan reads, in order. A tag that stays open reaches to
the end. -/
def tagsFrom : Reading → Text → List Text
  | .brackets, [] => [[]]
  | .brackets, c :: rest =>
    if c = ']' then [] :: tagsFrom .plain rest else (tagsFrom .brackets rest).modifyHead (c :: ·)
  | _, [] => []
  | reading, c :: rest => tagsFrom (reading.after c) rest

def ElapsedUnit.letter : ElapsedUnit → Char
  | hours => 'h'
  | minutes => 'm'
  | seconds => 's'

/-- The tag repeats the letter of the unit, in either case. -/
def ElapsedUnit.IsRepeatedBy (unit : ElapsedUnit) (tag : Text) : Prop :=
  tag ≠ [] ∧ ∀ c ∈ tag, c.toLower = unit.letter

section Tags

variable {reading : Reading} {c letter : Char} {t tag : Text} {piece : Piece}
  {pieces : List Piece} {unit : ElapsedUnit}

theorem elapsedUnit?_eq_some_iff :
    elapsedUnit? letter = some unit ↔ letter.toLower = unit.letter := by
  unfold elapsedUnit?
  constructor
  · intro h
    split at h <;> cases h <;> assumption
  · intro h
    rw [h]
    cases unit <;> rfl

theorem elapsedTag?_eq_some_iff :
    elapsedTag? tag = some piece ↔ ∃ unit : ElapsedUnit, unit.IsRepeatedBy tag ∧
      piece = .elapsed unit tag.length := by
  cases tag with
  | nil => simp [elapsedTag?, ElapsedUnit.IsRepeatedBy]
  | cons letter letters =>
    rw [elapsedTag?]
    constructor
    · intro h
      split at h
      · rename_i hall
        obtain ⟨unit, hunit, rfl⟩ := Option.map_eq_some_iff.mp h
        have hletter := elapsedUnit?_eq_some_iff.mp hunit
        refine ⟨unit, ⟨by simp, ?_⟩, rfl⟩
        simp only [List.all_eq_true, decide_eq_true_eq] at hall
        rintro c (_ | ⟨_, hc⟩)
        · exact hletter
        · exact (hall c hc).trans hletter
      · cases h
    · rintro ⟨unit, ⟨-, hall⟩, rfl⟩
      have hletter := hall letter List.mem_cons_self
      rw [if_pos, elapsedUnit?_eq_some_iff.mpr hletter]
      · rfl
      · simp only [List.all_eq_true, decide_eq_true_eq]
        exact fun c hc => (hall c (List.mem_cons_of_mem _ hc)).trans hletter.symm

theorem tagsFrom_plain (h : Reading.after .plain c = .plain) (t : Text) :
    tagsFrom .plain (c :: t) = tagsFrom .plain t := by
  rw [tagsFrom, h]
  simp

theorem tagsFrom_skipping (t : Text) : tagsFrom .skipping t = tagsFrom .plain (t.drop 1) := by
  cases t with
  | nil => rfl
  | cons c t => rfl

theorem tagsFrom_quotes (t : Text) :
    tagsFrom .quotes t = tagsFrom .plain (splitAtStop '"' t).2 := by
  induction t with
  | nil => rfl
  | cons c t ih =>
    by_cases hc : c = '"'
    · subst hc
      rfl
    · simpa [tagsFrom, Reading.after, splitAtStop, hc] using ih

theorem tagsFrom_brackets (t : Text) :
    tagsFrom .brackets t = (splitAtStop ']' t).1 :: tagsFrom .plain (splitAtStop ']' t).2 := by
  induction t with
  | nil => rfl
  | cons c t ih =>
    by_cases hc : c = ']'
    · subst hc
      rfl
    · simp [tagsFrom, hc, ih, splitAtStop]

@[simp] theorem filter_isElapsed_consCode (c : Char) (pieces : List Piece) :
    (Piece.consCode c pieces).filter Piece.isElapsed = pieces.filter Piece.isElapsed := by
  unfold Piece.consCode
  split <;> rfl

@[simp] theorem filter_isElapsed_consLiteral (t : Text) (pieces : List Piece) :
    (Piece.consLiteral t pieces).filter Piece.isElapsed = pieces.filter Piece.isElapsed := by
  unfold Piece.consLiteral
  split
  · rfl
  · split <;> rfl

theorem elapsedTag?_currency (t : Text) : elapsedTag? ('$' :: t) = none := by
  rw [elapsedTag?]
  split <;> rfl

theorem filter_isElapsed_consTag (tag : Text) (pieces : List Piece) :
    (consTag tag pieces).filter Piece.isElapsed =
      (elapsedTag? tag).toList ++ pieces.filter Piece.isElapsed := by
  unfold consTag
  split
  · rw [filter_isElapsed_consLiteral, elapsedTag?_currency]
    rfl
  · split
    · rename_i htag
      obtain ⟨unit, width, rfl⟩ := exists_elapsed_of_elapsedTag? htag
      rw [htag]
      rfl
    · rename_i htag
      rw [htag]
      rfl

/-- The pieces for elapsed time are those of the tags that the scan reads. -/
theorem filter_isElapsed_sectionPieces (t : Text) :
    (sectionPieces t).filter Piece.isElapsed = (tagsFrom .plain t).filterMap elapsedTag? := by
  fun_induction sectionPieces t with
  | case1 => rfl
  | case2 rest ih =>
    rw [filter_isElapsed_consLiteral, ih, ← tagsFrom_quotes]
    rfl
  | case3 rest ih =>
    have htags : tagsFrom .plain ('[' :: rest) =
        (splitAtStop ']' rest).1 :: tagsFrom .plain (splitAtStop ']' rest).2 :=
      tagsFrom_brackets rest
    rw [filter_isElapsed_consTag, ih, htags, List.filterMap_cons]
    cases elapsedTag? (splitAtStop ']' rest).1 <;> rfl
  | case4 rest ih =>
    rw [filter_isElapsed_consLiteral, ih, ← tagsFrom_skipping]
    rfl
  | case5 rest ih =>
    rw [filter_isElapsed_consLiteral, ih, ← tagsFrom_skipping]
    rfl
  | case6 rest ih =>
    rw [ih, ← tagsFrom_skipping]
    rfl
  | case7 c rest h₁ h₂ h₃ h₄ h₅ ih =>
    have hc : Reading.after .plain c = .plain := by
      simp_all [Reading.after]
    rw [filter_isElapsed_consCode, ih, tagsFrom_plain hc]

end Tags

/-- No piece of text is empty, neighbours of one kind are merged, and no piece of code has a
character that opens something or hides another one. The pieces for elapsed time are, in order,
those of the bracket tags that repeat the letter of a unit in either case, with as many digits as
letters. -/
theorem pieces_normal (code : Text) :
    Piece.Normal (pieces code) ∧
      (∀ text c, .code text ∈ pieces code → c ∈ text → c ∉ openers) ∧
      (pieces code).filter Piece.isElapsed =
        (tagsFrom .plain (firstSection code)).filterMap elapsedTag? ∧
      ∀ tag piece, elapsedTag? tag = some piece ↔ ∃ unit : ElapsedUnit, unit.IsRepeatedBy tag ∧
        piece = .elapsed unit tag.length :=
  ⟨normal_sectionPieces _, fun _ _ => not_mem_openers_of_mem_code,
    filter_isElapsed_sectionPieces _, fun _ _ => elapsedTag?_eq_some_iff⟩

end CellDisplay.FormatCode
