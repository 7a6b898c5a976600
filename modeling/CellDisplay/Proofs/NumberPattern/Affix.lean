import CellDisplay.NumberPattern.Parser
import CellDisplay.Proofs.NumberPattern.Spelling
import Mathlib.Data.List.Chain

/-! # Affixes and their tokens

An affix is read from a run of tokens, whose literal texts are merged where they are adjacent.
The parts of the affix are then determined by what the tokens spell.
-/

namespace CellDisplay.NumberPattern

/-- The token can stand in an affix. -/
def Token.isAffix : Token → Bool
  | literal _ | quoted _ | percent | perMille => true
  | _ => false

namespace AffixPart

def isLiteral : AffixPart → Bool
  | literal _ => true
  | _ => false

/-- The tokens of a part, with its text taken apart into literal characters. -/
def spelled : AffixPart → List Token
  | literal t => t.map .literal
  | percent => [.percent]
  | perMille => [.perMille]

/-- No literal text is empty, and no two of them are adjacent. -/
structure Merged (parts : List AffixPart) : Prop where
  nonempty : .literal [] ∉ parts
  apart : parts.IsChain fun a b => ¬ (a.isLiteral ∧ b.isLiteral)

/-- The parts spell a run of tokens, with adjacent literal text merged. -/
structure Merges (run : List Token) (parts : List AffixPart) : Prop where
  spelled : parts.flatMap AffixPart.spelled = run.flatMap Token.spelled
  merged : Merged parts

variable {s t : Text} {part : AffixPart} {parts : List AffixPart}

theorem consLiteral_of_head (h : ∀ part ∈ parts.head?, part.isLiteral = false) :
    consLiteral t parts = .literal t :: parts := by
  cases parts with
  | nil => rfl
  | cons part parts =>
    cases part with
    | literal u => simp [isLiteral] at h
    | percent => rfl
    | perMille => rfl

theorem consLiteral_consLiteral (s t : Text) (parts : List AffixPart) :
    consLiteral s (consLiteral t parts) = consLiteral (s ++ t) parts := by
  cases parts with
  | nil => simp [consLiteral]
  | cons part parts => cases part <;> simp [consLiteral]

theorem spelled_consLiteral (t : Text) (parts : List AffixPart) :
    (consLiteral t parts).flatMap spelled = t.map .literal ++ parts.flatMap spelled := by
  cases parts with
  | nil => simp [consLiteral, spelled]
  | cons part parts => cases part <;> simp [consLiteral, spelled]

theorem merged_nil : Merged [] := ⟨by simp, .nil⟩

theorem merged_cons_iff :
    Merged (part :: parts) ↔
      part ≠ .literal [] ∧ (∀ next ∈ parts.head?, ¬ (part.isLiteral ∧ next.isLiteral)) ∧
        Merged parts := by
  constructor
  · rintro ⟨hn, ha⟩
    simp only [List.mem_cons, not_or] at hn
    obtain ⟨hhead, htail⟩ := List.isChain_cons.mp ha
    exact ⟨Ne.symm hn.1, hhead, hn.2, htail⟩
  · rintro ⟨hp, hhead, hn, ha⟩
    refine ⟨?_, List.isChain_cons.mpr ⟨hhead, ha⟩⟩
    simp only [List.mem_cons, not_or]
    exact ⟨hp.symm, hn⟩

theorem Merged.consLiteral (h : Merged parts) (ht : t ≠ []) :
    Merged (AffixPart.consLiteral t parts) := by
  cases parts with
  | nil => exact merged_cons_iff.mpr ⟨by simpa using ht, by simp, merged_nil⟩
  | cons part parts =>
    obtain ⟨hp, hhead, hrest⟩ := merged_cons_iff.mp h
    cases part with
    | literal u => exact merged_cons_iff.mpr ⟨by simp [ht], hhead, hrest⟩
    | percent => exact merged_cons_iff.mpr ⟨by simpa using ht, by simp [isLiteral], h⟩
    | perMille => exact merged_cons_iff.mpr ⟨by simpa using ht, by simp [isLiteral], h⟩

end AffixPart

open AffixPart

/-- Puts a token in front of the parts of an affix. -/
def Token.consPart : Token → List AffixPart → List AffixPart
  | literal c, parts => consLiteral [c] parts
  | quoted t, parts => consLiteral t parts
  | percent, parts => .percent :: parts
  | perMille, parts => .perMille :: parts
  | _, parts => parts

/-- The affix of a run of tokens. -/
def affixOf (run : List Token) : List AffixPart := run.foldr Token.consPart []

section AffixOf

variable {run : List Token} {parts parts' : List AffixPart}

theorem spelled_affixOf (h : run.all Token.isAffix) :
    (affixOf run).flatMap AffixPart.spelled = run.flatMap Token.spelled := by
  induction run with
  | nil => rfl
  | cons token run ih =>
    rw [List.all_cons, Bool.and_eq_true] at h
    rw [List.flatMap_cons, ← ih h.2]
    cases token with
    | literal c => exact spelled_consLiteral [c] (affixOf run)
    | quoted t => exact spelled_consLiteral t (affixOf run)
    | percent | perMille => rfl
    | _ => cases h.1

theorem merged_affixOf (h : .quoted [] ∉ run) : Merged (affixOf run) := by
  induction run with
  | nil => exact merged_nil
  | cons token run ih =>
    simp only [List.mem_cons, not_or] at h
    have ih := ih h.2
    change Merged (token.consPart (affixOf run))
    cases token with
    | literal c => exact ih.consLiteral (by simp)
    | quoted t => exact ih.consLiteral fun ht => h.1 (ht ▸ rfl)
    | percent => exact merged_cons_iff.mpr ⟨by simp, by simp [isLiteral], ih⟩
    | perMille => exact merged_cons_iff.mpr ⟨by simp, by simp [isLiteral], ih⟩
    | _ => exact ih

theorem merges_affixOf (h : run.all Token.isAffix) (hq : .quoted [] ∉ run) :
    Merges run (affixOf run) :=
  ⟨spelled_affixOf h, merged_affixOf hq⟩

theorem foldr_consPart_literal {t : Text} (h : t ≠ []) (parts : List AffixPart) :
    (t.map .literal).foldr Token.consPart parts = consLiteral t parts := by
  induction t with
  | nil => exact absurd rfl h
  | cons c t ih =>
    by_cases ht : t = []
    · subst ht
      rfl
    · rw [List.map_cons, List.foldr_cons, ih ht]
      exact consLiteral_consLiteral [c] t parts

/-- Merged parts are determined by what they spell. -/
theorem affixOf_spelled (h : Merged parts) : affixOf (parts.flatMap AffixPart.spelled) = parts := by
  induction parts with
  | nil => rfl
  | cons part parts ih =>
    obtain ⟨hp, hhead, hrest⟩ := merged_cons_iff.mp h
    rw [List.flatMap_cons, affixOf, List.foldr_append]
    change List.foldr Token.consPart (affixOf _) part.spelled = _
    rw [ih hrest]
    cases part with
    | literal t =>
      have ht : t ≠ [] := fun ht => hp (ht ▸ rfl)
      rw [AffixPart.spelled, foldr_consPart_literal ht, consLiteral_of_head]
      intro next hn
      simpa [isLiteral] using hhead next hn
    | percent => rfl
    | perMille => rfl

theorem AffixPart.Merges.unique (h : Merges run parts) (h' : Merges run parts') :
    parts = parts' := by
  rw [← affixOf_spelled h.merged, ← affixOf_spelled h'.merged, h.spelled, h'.spelled]

end AffixOf

end CellDisplay.NumberPattern
