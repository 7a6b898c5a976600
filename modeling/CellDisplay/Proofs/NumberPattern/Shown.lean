import CellDisplay.NumberPattern.Apply
import CellDisplay.Proofs.Decimal.Digits
import CellDisplay.Proofs.Decimal.Nearest

/-! # How numbers are shown

A layout shows a magnitude by its digits before and behind the point, with zeros in the required
places. The digits before the point stand in groups, unless there is an exponent. Padding, trimming
and grouping give just such texts.
-/

namespace CellDisplay

namespace NumberPattern

/-- The digits before and behind the point that a layout shows of a magnitude. A digit stands before
the point where there is none behind it. -/
structure Layout.Shows (layout : Layout) (m : ℚ) (whole fraction : Text) : Prop where
  pads : Text.Pads (if fraction = [] then max layout.minInteger 1 else layout.minInteger) ⌊m⌋₊ whole
  trims : Text.Trims layout.minFraction (Int.fract m) fraction
  length_le : fraction.length ≤ layout.maxFraction

/-- Digits in groups, counted from the right, with a separator before every group but the first. -/
def IsGrouped (separator : Char) : Option ℕ → Text → Text → Prop
  | none, digits, text => text = digits
  | some size, digits, text => ∃ (first : Text) (rest : List Text),
      digits = first ++ rest.flatten ∧ text = first ++ rest.flatMap (separator :: ·) ∧
        first.length ≤ size ∧ (∀ group ∈ rest, group.length = size) ∧ (digits ≠ [] → first ≠ [])

/-- The letter of an exponent, a sign if it is negative or asked for, and its digits. -/
def Exponent.Writes (spec : Exponent) (e : ℤ) (text : Text) : Prop :=
  ∃ digits, Text.Pads (max spec.minDigits 1) e.natAbs digits ∧
    text = 'E' :: (if e < 0 then ['-'] else if spec.showPlus then ['+'] else []) ++ digits

/-- The text of digits before and behind the point, with separators and the exponent, if any. -/
inductive Layout.Writes (layout : Layout) (locale : Locale) (whole fraction : Text) :
    Option ℤ → Text → Prop
  | fixed {text : Text} (h : layout.exponent = none)
      (hg : IsGrouped locale.groupSeparator layout.groupSize whole text) :
      layout.Writes locale whole fraction none
        (text ++ if fraction = [] then [] else locale.decimalSeparator :: fraction)
  | scientific {spec : Exponent} {e : ℤ} {text : Text} (h : layout.exponent = some spec)
      (he : spec.Writes e text) :
      layout.Writes locale whole fraction (some e)
        (whole ++ (if fraction = [] then [] else locale.decimalSeparator :: fraction) ++ text)

/-- The text shows a magnitude with an exponent, if any. -/
def Layout.Renders (layout : Layout) (locale : Locale) (m : ℚ) (e : Option ℤ) (text : Text) :
    Prop :=
  ∃ whole fraction, layout.Shows m whole fraction ∧ layout.Writes locale whole fraction e text

variable {layout : Layout} {locale : Locale} {whole fraction s t : Text} {m : ℚ} {e : Option ℤ}
  {least size : ℕ} {separator : Char}

section Digits

open Text

theorem allZeros_iff (h : IsDigits t) : allZeros t = true ↔ value t = 0 := by
  rw [value_eq_zero_iff h, allZeros, List.all_eq_true]
  simp only [decide_eq_true_eq]

/-- Trimming drops zeros only. -/
theorem exists_trimFraction_append (least : ℕ) (fraction : Text) :
    ∃ k, trimFraction least fraction ++ List.replicate k '0' = fraction := by
  obtain ⟨zeros, happend, hzeros⟩ := exists_trimEnd_append (· = '0') (fraction.drop least)
  have hreplicate : zeros = List.replicate zeros.length '0' :=
    List.eq_replicate_iff.mpr ⟨rfl, fun c hc => by simpa using hzeros c hc⟩
  refine ⟨zeros.length, ?_⟩
  rw [← hreplicate, trimFraction, List.append_assoc, happend, List.take_append_drop]

theorem trims_trimFraction (h : IsDigits fraction) (hle : least ≤ fraction.length) :
    Trims least (value fraction / 10 ^ fraction.length) (trimFraction least fraction) := by
  obtain ⟨k, hsplit⟩ := exists_trimFraction_append least fraction
  have htake : (fraction.take least).length = least := List.length_take_of_le hle
  refine ⟨fun c hc => h c (hsplit ▸ List.mem_append_left _ hc), ?_, ?_, fun hlast => ?_⟩
  · conv_rhs => rw [← hsplit]
    rw [value_append, value_zeros, List.length_append, List.length_replicate, pow_add]
    push_cast
    field_simp
    ring
  · rw [trimFraction, List.length_append]
    omega
  · rw [trimFraction, List.getLast?_append] at hlast
    cases htrim : (trimEnd (· = '0') (fraction.drop least)).getLast? with
    | some c =>
      rw [htrim, Option.some_or] at hlast
      obtain rfl := Option.some.inj hlast
      simpa using eq_false_of_getLast?_trimEnd htrim
    | none =>
      rw [trimFraction, List.getLast?_eq_none_iff.mp htrim, List.append_nil, htake]

theorem pads_wholeDigits (h : IsDigits whole) :
    Pads (if fraction = [] then max least 1 else least) (value whole)
      (wholeDigits least whole fraction) := by
  have hpads := pads_zeroPadded least h
  rw [wholeDigits]
  by_cases hf : fraction = []
  · rw [if_pos hf]
    by_cases hd : zeroPadded least (whole.dropWhile (· = '0')) = []
    · rw [hd] at hpads
      have hleast : least = 0 := Nat.le_zero.mp hpads.least_le
      rw [if_pos ⟨hd, hf⟩, ← hpads.value_eq, hleast]
      exact ⟨isDigits_zeros 1, rfl, le_rfl, fun _ => rfl⟩
    · rw [if_neg fun hn => hd hn.1]
      have hpos := List.length_pos_of_ne_nil hd
      refine ⟨hpads.isDigits, hpads.value_eq, Nat.max_le.mpr ⟨hpads.least_le, hpos⟩, fun hz => ?_⟩
      have := hpads.zero_head hz
      omega
  · rwa [if_neg hf, if_neg fun hn => hf hn.2]

/-- Padded and trimmed, the digits of a magnitude are what the layout shows of it. -/
theorem shows_of_isDigits (hwhole : IsDigits whole) (hfraction : IsDigits fraction)
    (hlength : fraction.length = layout.maxFraction)
    (hm : m = value whole + value fraction / 10 ^ layout.maxFraction) :
    layout.Shows m (wholeDigits layout.minInteger whole (trimFraction layout.minFraction fraction))
      (trimFraction layout.minFraction fraction) := by
  rw [← hlength] at hm
  have hpos : (0 : ℚ) ≤ value fraction / 10 ^ fraction.length := by positivity
  have hlt : (value fraction / 10 ^ fraction.length : ℚ) < 1 := by
    rw [div_lt_one (by positivity)]
    exact_mod_cast value_lt hfraction
  have hfloor : ⌊m⌋₊ = value whole := by
    rw [hm, Nat.floor_eq_iff (by positivity)]
    constructor <;> linarith
  have hfract : Int.fract m = value fraction / 10 ^ fraction.length := by
    rw [hm, Int.fract_natCast_add, Int.fract_eq_self]
    exact ⟨hpos, hlt⟩
  have hmin : layout.minFraction ≤ fraction.length :=
    hlength ▸ (List.count_le_length : layout.minFraction ≤ layout.maxFraction)
  obtain ⟨k, hsplit⟩ := exists_trimFraction_append layout.minFraction fraction
  have hle : (trimFraction layout.minFraction fraction).length ≤ fraction.length := by
    conv_rhs => rw [← hsplit, List.length_append]
    exact Nat.le_add_right _ _
  exact ⟨hfloor ▸ pads_wholeDigits hwhole, hfract ▸ trims_trimFraction hfraction hmin,
    hlength ▸ hle⟩

theorem Layout.Shows.floor_add_fract (h : layout.Shows m whole fraction) (hm : 0 ≤ m) :
    m = value whole + value fraction / 10 ^ fraction.length := by
  have hfloor := Int.floor_add_fract m
  rw [← natCast_floor_eq_intCast_floor hm] at hfloor
  rw [h.pads.value_eq, h.trims.value_eq, hfloor]

/-- Shown digits are all zeros if they are shown of zero. -/
theorem Layout.Shows.eq_zero_iff (h : layout.Shows m whole fraction) (hm : 0 ≤ m) :
    m = 0 ↔ value whole = 0 ∧ value fraction = 0 := by
  have hvalue : (0 : ℚ) ≤ value fraction / 10 ^ fraction.length := by positivity
  rw [h.floor_add_fract hm, add_eq_zero_iff_of_nonneg (Nat.cast_nonneg _) hvalue,
    div_eq_zero_iff, Nat.cast_eq_zero, Nat.cast_eq_zero, or_iff_left (by positivity)]

theorem isZero_iff_of_shows (h : IsDigits whole)
    (hs : layout.Shows m (wholeDigits least whole fraction) fraction) (hm : 0 ≤ m) :
    (allZeros whole && allZeros fraction) = true ↔ m = 0 := by
  rw [hs.eq_zero_iff hm, (pads_wholeDigits h).value_eq, Bool.and_eq_true, allZeros_iff h,
    allZeros_iff hs.trims.isDigits]

end Digits

section Groups

variable {digits first first' : Text} {groups groups' : List Text}

theorem map_length_of_length_eq (h : ∀ group ∈ groups, group.length = size) :
    groups.map List.length = List.replicate groups.length size :=
  List.eq_replicate_iff.mpr ⟨List.length_map _, by simpa using h⟩

theorem length_flatten_of_length_eq (h : ∀ group ∈ groups, group.length = size) :
    groups.flatten.length = groups.length * size := by
  rw [List.length_flatten, map_length_of_length_eq h, List.sum_replicate_nat]

theorem length_first_of_append_flatten (hne : first ≠ []) (hle : first.length ≤ size)
    (h : ∀ group ∈ groups, group.length = size) :
    first.length = ((first ++ groups.flatten).length - 1) % size + 1 := by
  have hpos := List.length_pos_of_ne_nil hne
  rw [List.length_append, length_flatten_of_length_eq h, Nat.sub_add_comm hpos,
    Nat.add_mul_mod_self_right, Nat.mod_eq_of_lt (by omega)]
  omega

/-- Digits are grouped in one way. -/
theorem IsGrouped.unique {groupSize : Option ℕ} (hsize : groupSize ≠ some 0)
    (h : IsGrouped separator groupSize digits s) (h' : IsGrouped separator groupSize digits t) :
    s = t := by
  cases groupSize with
  | none => exact h.trans h'.symm
  | some size =>
    obtain ⟨first, groups, rfl, rfl, hle, hall, hne⟩ := h
    obtain ⟨first', groups', hdigits, rfl, hle', hall', hne'⟩ := h'
    have hfirst : first.length = first'.length := by
      by_cases hnil : first ++ groups.flatten = []
      · have hnil' := hdigits ▸ hnil
        rw [(List.append_eq_nil_iff.mp hnil).1, (List.append_eq_nil_iff.mp hnil').1]
      · rw [length_first_of_append_flatten (hne hnil) hle hall, hdigits,
          ← length_first_of_append_flatten (hne' hnil) hle' hall']
    obtain ⟨rfl, hflatten⟩ := List.append_inj hdigits hfirst
    have hcount : groups.length = groups'.length := by
      have hlength := congrArg List.length hflatten
      rw [length_flatten_of_length_eq hall, length_flatten_of_length_eq hall'] at hlength
      exact Nat.eq_of_mul_eq_mul_right (Nat.pos_of_ne_zero fun hz => hsize (hz ▸ rfl)) hlength
    have hgroups : groups = groups' := List.eq_iff_flatten_eq.mpr
      ⟨hflatten, by rw [map_length_of_length_eq hall, map_length_of_length_eq hall', hcount]⟩
    rw [hgroups]

theorem isGrouped_grouped (separator : Char) (hsize : 0 < size) (digits : Text) :
    IsGrouped separator (some size) digits (grouped size separator digits) := by
  fun_induction grouped size separator digits with
  | case1 => exact ⟨[], [], rfl, rfl, Nat.zero_le _, by simp, fun h => absurd rfl h⟩
  | case2 c => exact ⟨[c], [], rfl, rfl, hsize, by simp, fun _ => List.cons_ne_nil _ _⟩
  | case3 c d rest hmod ih =>
    obtain ⟨first, groups, hdigits, htext, hle, hall, hne⟩ := ih
    have hpos := List.length_pos_of_ne_nil (hne (List.cons_ne_nil _ _))
    rw [hdigits, List.length_append, length_flatten_of_length_eq hall,
      Nat.add_mul_mod_self_right] at hmod
    -- The first group is full, and `c` starts another one.
    have hfull : first.length = size := by
      by_contra hlt
      rw [Nat.mod_eq_of_lt (by omega)] at hmod
      omega
    refine ⟨[c], first :: groups, by rw [hdigits]; rfl, by rw [htext]; rfl, hsize, ?_,
      fun _ => List.cons_ne_nil _ _⟩
    rintro group (_ | ⟨_, hmem⟩)
    · exact hfull
    · exact hall group hmem
  | case4 c d rest hmod ih =>
    obtain ⟨first, groups, hdigits, htext, hle, hall, hne⟩ := ih
    rw [hdigits, List.length_append, length_flatten_of_length_eq hall,
      Nat.add_mul_mod_self_right] at hmod
    have hlt : first.length < size := by
      rcases Nat.lt_or_eq_of_le hle with h | h
      · exact h
      · rw [h, Nat.mod_self] at hmod
        exact absurd rfl hmod
    exact ⟨c :: first, groups, by rw [hdigits]; rfl, by rw [htext]; rfl, hlt, hall,
      fun _ => List.cons_ne_nil _ _⟩

end Groups

/-- The digits that a layout shows are determined by the magnitude. -/
theorem Layout.Shows.unique {whole' fraction' : Text} (h : layout.Shows m whole fraction)
    (h' : layout.Shows m whole' fraction') : whole = whole' ∧ fraction = fraction' := by
  obtain rfl := h.trims.unique h'.trims
  exact ⟨h.pads.unique h'.pads, rfl⟩

theorem Exponent.Writes.unique {spec : Exponent} {e : ℤ} (h : spec.Writes e s)
    (h' : spec.Writes e t) : s = t := by
  obtain ⟨digits, hdigits, rfl⟩ := h
  obtain ⟨digits', hdigits', rfl⟩ := h'
  rw [hdigits.unique hdigits']

theorem Layout.Writes.unique (hsize : layout.groupSize ≠ some 0)
    (h : layout.Writes locale whole fraction e s) (h' : layout.Writes locale whole fraction e t) :
    s = t := by
  cases h with
  | fixed _ hg =>
    cases h' with
    | fixed _ hg' => rw [hg.unique hsize hg']
  | scientific hspec he =>
    cases h' with
    | scientific hspec' he' =>
      obtain rfl := Option.some.inj (hspec.symm.trans hspec')
      rw [he.unique he']

/-- A magnitude is shown by one text. -/
theorem Layout.Renders.unique (hsize : layout.groupSize ≠ some 0)
    (h : layout.Renders locale m e s) (h' : layout.Renders locale m e t) : s = t := by
  obtain ⟨whole, fraction, hshows, hwrites⟩ := h
  obtain ⟨whole', fraction', hshows', hwrites'⟩ := h'
  obtain ⟨rfl, rfl⟩ := hshows.unique hshows'
  exact hwrites.unique hsize hwrites'

end NumberPattern

end CellDisplay
