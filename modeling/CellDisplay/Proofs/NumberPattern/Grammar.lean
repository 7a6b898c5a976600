import CellDisplay.Proofs.NumberPattern.Affix

/-! # The grammar of number patterns

A pattern is a subpattern, or two with a separator between them, and a subpattern is a number
with affix tokens on both sides. The number of the second subpattern can be empty. A pattern
that is read has the layout of its first number and the affixes of its subpatterns.
-/

namespace CellDisplay.NumberPattern

def Placeholder.token : Placeholder → Token
  | required => .zero
  | optional => .hash

inductive Sign where
  | plus
  | minus
  deriving Repr, DecidableEq

def Sign.token : Sign → Token
  | plus => .literal '+'
  | minus => .literal '-'

/-- The exponent of a number as it is written: a sign, if any, and zeros. -/
structure ExponentForm where
  sign : Option Sign
  zeros : Nat
  zeros_pos : 0 < zeros

namespace ExponentForm

variable (e : ExponentForm)

/-- The tokens behind the letter of the exponent. -/
def tail : List Token := e.sign.toList.map Sign.token ++ List.replicate e.zeros .zero

def tokens : List Token := .exponent :: e.tail

def exponent : Exponent := ⟨e.zeros, e.sign = some .plus⟩

end ExponentForm

def integerTokens (first : List Placeholder) (groups : List (List Placeholder)) : List Token :=
  first.map Placeholder.token ++
    groups.flatMap fun group => .grouping :: group.map Placeholder.token

theorem mem_integerTokens_iff {token : Token} {first : List Placeholder}
    {groups : List (List Placeholder)} (h : token ≠ .grouping) :
    token ∈ integerTokens first groups ↔
      ∃ placeholder ∈ first ++ groups.flatten, Placeholder.token placeholder = token := by
  simp only [integerTokens, List.mem_append, List.mem_map, List.mem_flatMap, List.mem_cons, h,
    false_or, List.mem_flatten, or_and_right, exists_or]
  grind

def fractionTokens : Option (List Placeholder) → List Token
  | none => []
  | some places => .point :: places.map Placeholder.token

def exponentTokens : Option ExponentForm → List Token
  | none => []
  | some e => e.tokens

/-- A number as it is written. -/
structure NumberForm where
  /-- The places before the first grouping separator -/
  first : List Placeholder
  /-- The places behind each grouping separator -/
  groups : List (List Placeholder)
  /-- The places behind the point, if there is one -/
  fraction : Option (List Placeholder)
  exponent : Option ExponentForm
  /-- An exponent needs a place before it -/
  places_of_exponent : exponent.isSome → first ++ groups.flatten ++ fraction.getD [] ≠ []

namespace NumberForm

variable (n : NumberForm)

def integer : List Placeholder := n.first ++ n.groups.flatten

def tokens : List Token :=
  integerTokens n.first n.groups ++ (fractionTokens n.fraction ++ exponentTokens n.exponent)

/-- The number has a place or a point. -/
def IsPresent : Prop := .zero ∈ n.tokens ∨ .hash ∈ n.tokens ∨ .point ∈ n.tokens

instance : Decidable n.IsPresent := inferInstanceAs (Decidable (_ ∨ _ ∨ _))

/-- The length of the last group, unless it is empty or there is no separator. -/
def groupSize : Option Nat := (n.groups.getLast?.map List.length).filter (· ≠ 0)

def layout : Layout :=
  ⟨n.integer, n.fraction.getD [], n.groupSize, n.exponent.map ExponentForm.exponent⟩

/-- The layout, unless the number is absent. -/
def layout? : Option Layout := if n.IsPresent then some n.layout else none

theorem isPresent_iff : n.IsPresent ↔ ¬ (n.integer = [] ∧ n.fraction = none) := by
  constructor
  · rintro h ⟨hi, hf⟩
    have he : n.exponent = none := by
      by_contra he
      refine n.places_of_exponent (Option.isSome_iff_ne_none.mpr he) ?_
      rw [hf]
      exact (List.append_nil _).trans hi
    have hnone (token : Token) (ht : token ≠ .grouping) : token ∉ n.tokens := by
      rw [integer] at hi
      simp [tokens, hf, he, fractionTokens, exponentTokens, mem_integerTokens_iff ht, hi]
    rcases h with h | h | h
    · exact hnone _ (by simp) h
    · exact hnone _ (by simp) h
    · exact hnone _ (by simp) h
  · intro h
    cases hf : n.fraction with
    | some places => exact .inr (.inr (by simp [tokens, hf, fractionTokens]))
    | none =>
      obtain ⟨placeholder, hp⟩ := List.exists_mem_of_ne_nil _ fun hi => h ⟨hi, hf⟩
      have hmem (ht : placeholder.token ≠ .grouping) : placeholder.token ∈ n.tokens :=
        List.mem_append_left _ ((mem_integerTokens_iff ht).mpr ⟨placeholder, hp, rfl⟩)
      cases placeholder with
      | required => exact .inl (hmem (by simp [Placeholder.token]))
      | optional => exact .inr (.inl (hmem (by simp [Placeholder.token])))

end NumberForm

/-- A subpattern as it is written: a number between two runs of affix tokens. Where there is
no number, the affix tokens are all before it. -/
structure Subpattern where
  before : List Token
  number : NumberForm
  after : List Token
  isAffix_before : before.all Token.isAffix
  isAffix_after : after.all Token.isAffix
  after_of_number : number.tokens = [] → after = []

namespace Subpattern

variable (s s' : Subpattern)

def tokens : List Token := s.before ++ (s.number.tokens ++ s.after)

def affixes : Affixes := ⟨affixOf s.before, affixOf s.after⟩

/-- The affixes are those of the subpattern. -/
structure Describes (affixes : Affixes) : Prop where
  before : AffixPart.Merges s.before affixes.before
  after : AffixPart.Merges s.after affixes.after

/-- The subpatterns differ in their numbers at most. -/
def SameAffixes : Prop := s.before = s'.before ∧ s.after = s'.after

end Subpattern

def negativeTokens : Option Subpattern → List Token
  | none => []
  | some s => .separator :: s.tokens

/-- A pattern as it is written. -/
structure Form where
  positive : Subpattern
  negative : Option Subpattern
  isPresent : positive.number.IsPresent

namespace Form

def tokens (f : Form) : List Token := f.positive.tokens ++ negativeTokens f.negative

def pattern (f : Form) : NumberPattern :=
  ⟨f.positive.number.layout, f.positive.affixes, f.negative.map Subpattern.affixes⟩

/-- The pattern has the layout and the affixes of the form. -/
structure Describes (f : Form) (pattern : NumberPattern) : Prop where
  layout : pattern.layout = f.positive.number.layout
  positive : f.positive.Describes pattern.positive
  negative : Option.Rel Subpattern.Describes f.negative pattern.negative

end Form

namespace IntegerMark

def token : IntegerMark → Token
  | place placeholder => placeholder.token
  | grouping => .grouping

/-- The marks of an integer part, by its places before and behind the separators. -/
def ofGroups (first : List Placeholder) (groups : List (List Placeholder)) :
    List IntegerMark :=
  first.map place ++ groups.flatMap fun group => grouping :: group.map place

theorem exists_ofGroups (marks : List IntegerMark) :
    ∃ first groups, marks = ofGroups first groups := by
  induction marks with
  | nil => exact ⟨[], [], rfl⟩
  | cons mark marks ih =>
    obtain ⟨first, groups, rfl⟩ := ih
    cases mark with
    | place placeholder => exact ⟨placeholder :: first, groups, rfl⟩
    | grouping => exact ⟨[], first :: groups, rfl⟩

variable (first : List Placeholder) (groups : List (List Placeholder))

theorem map_token_ofGroups :
    (ofGroups first groups).map token = integerTokens first groups := by
  simp [ofGroups, integerTokens, token, List.map_flatMap, Function.comp_def]

theorem places_ofGroups : places (ofGroups first groups) = first ++ groups.flatten := by
  have hmap (group : List Placeholder) : places (group.map place) = group := by
    simp [places, List.filterMap_map]
  have hgroups : places (groups.flatMap fun group => grouping :: group.map place) =
      groups.flatten := by
    induction groups with
    | nil => rfl
    | cons group groups ih =>
      rw [List.flatMap_cons, List.flatten_cons, ← ih]
      exact (List.filterMap_append ..).trans (congrArg (· ++ _) (hmap group))
  rw [ofGroups, places, List.filterMap_append]
  exact congrArg₂ (· ++ ·) (hmap first) hgroups

theorem groupSize_ofGroups :
    groupSize (ofGroups first groups) = (groups.getLast?.map List.length).filter (· ≠ 0) := by
  rcases List.eq_nil_or_concat' groups with rfl | ⟨init, last, rfl⟩
  · simp [groupSize, ofGroups]
  · have hmarks : ofGroups first (init ++ [last]) =
        ofGroups first init ++ grouping :: last.map place := by
      simp [ofGroups]
    have hsize : ((ofGroups first (init ++ [last])).reverse.takeWhile (· ≠ grouping)).length =
        last.length := by
      rw [hmarks, List.reverse_append, List.reverse_cons, List.append_assoc,
        List.takeWhile_append_of_pos (by simp)]
      simp
    have hmem : grouping ∈ ofGroups first (init ++ [last]) := by simp [hmarks]
    simp only [groupSize, hsize, hmem, true_and]
    by_cases hlast : last.length = 0 <;> simp [hlast, Option.filter]

end IntegerMark

end CellDisplay.NumberPattern
