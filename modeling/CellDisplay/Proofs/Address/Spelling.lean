import CellDisplay.Proofs.Checked.Address

/-! # Spellings of addresses

An address is spelled by letters and digits, each with a dollar sign before it or without. Reading
accepts these texts, as far as both numbers are in range, and an address is shown by the one of its
spellings in upper case that has neither dollar signs nor zeros in front.
-/

namespace CellDisplay.CellAddress

open Text

/-- A text in A1 notation. -/
structure Spelling where
  /-- A dollar sign stands before the letters -/
  fixedColumn : Bool
  letters : Text
  /-- A dollar sign stands before the digits -/
  fixedRow : Bool
  digits : Text
  isAlpha : ∀ c ∈ letters, c.isAlpha
  isDigits : IsDigits digits
  letters_ne_nil : letters ≠ []
  digits_ne_nil : digits ≠ []

namespace Spelling

def dollar (fixed : Bool) : Text := if fixed then ['$'] else []

variable (a : Spelling)

def text : Text := dollar a.fixedColumn ++ (a.letters ++ (dollar a.fixedRow ++ a.digits))

/-- The value of the letters in base 26, where the digits are those from 1 to 26. -/
def column : ℕ := Nat.ofDigits 26 (a.letters.reverse.map letterNumber)

theorem column_eq : a.column = lettersNumber a.letters := (lettersNumber_eq_ofDigits _).symm

def row : ℕ := value a.digits

/-- Both numbers are numbers from one on that fit into 32 bits. -/
def InRange : Prop :=
  (1 ≤ a.column ∧ a.column ≤ 4294967295) ∧ 1 ≤ a.row ∧ a.row ≤ 4294967295

instance : Decidable a.InRange := inferInstanceAs (Decidable (_ ∧ _))

/-- The letters in upper case, and the digits without zeros in front. -/
def canonical : Text := a.letters.map Char.toUpper ++ a.digits.dropWhile (· = '0')

/-- The address has the column and the row of the spelling, which count from one. -/
def Spells (address : CellAddress) : Prop :=
  address.column.toNat + 1 = a.column ∧ address.row.toNat + 1 = a.row

instance (address : CellAddress) : Decidable (a.Spells address) :=
  inferInstanceAs (Decidable (_ ∧ _))

end Spelling

open Spelling

variable {s t : Text} {a b : Spelling} {address address' : CellAddress} {n : ℕ}
  {p : Char → Bool}

section Reading

theorem dropDollar_of_head (h : t.head? ≠ some '$') : dropDollar t = t := by
  unfold dropDollar
  split
  · exact absurd rfl h
  · rfl

theorem dropDollar_append (fixed : Bool) (h : t.head? ≠ some '$') :
    dropDollar (dollar fixed ++ t) = t := by
  cases fixed with
  | false => exact dropDollar_of_head h
  | true => rfl

theorem exists_dollar_append (t : Text) : ∃ fixed, dollar fixed ++ dropDollar t = t := by
  by_cases h : t.head? = some '$'
  · obtain ⟨rest, rfl⟩ := List.head?_eq_some_iff.mp h
    exact ⟨true, rfl⟩
  · exact ⟨false, dropDollar_of_head h⟩

theorem takeWhile_append_of_head (hs : ∀ c ∈ s, p c) (ht : ∀ c ∈ t.head?, p c = false) :
    (s ++ t).takeWhile p = s ∧ (s ++ t).dropWhile p = t := by
  rw [List.takeWhile_append_of_pos hs, List.dropWhile_append_of_pos hs]
  cases t with
  | nil => exact ⟨List.append_nil s, rfl⟩
  | cons c t =>
    have hc : ¬ p c := Bool.eq_false_iff.mp (ht c rfl)
    rw [List.takeWhile_cons_of_neg hc, List.dropWhile_cons_of_neg hc, List.append_nil]
    exact ⟨rfl, rfl⟩

theorem head?_letters_append (a : Spelling) (t : Text) : (a.letters ++ t).head? ≠ some '$' := by
  rw [List.head?_append_of_ne_nil _ a.letters_ne_nil]
  intro h
  exact absurd (a.isAlpha _ (List.mem_of_mem_head? h)) (by decide)

theorem head?_digits (a : Spelling) : a.digits.head? ≠ some '$' := fun h =>
  absurd (a.isDigits _ (List.mem_of_mem_head? h)) (by decide)

theorem isAlpha_of_isDigit {c : Char} (h : c.isDigit) : c.isAlpha = false :=
  of_toNat_lt (P := fun c => c.isDigit → c.isAlpha = false) (by decide) (toNat_of_isDigit h).2 h

theorem isAlpha_of_head (a : Spelling) :
    ∀ c ∈ (dollar a.fixedRow ++ a.digits).head?, c.isAlpha = false := by
  intro c hc
  rcases List.mem_append.mp (List.mem_of_mem_head? hc) with hc | hc
  · rw [dollar] at hc
    split at hc
    · rw [List.mem_singleton.mp hc]
      rfl
    · exact absurd hc List.not_mem_nil
  · exact isAlpha_of_isDigit (a.isDigits c hc)

/-- Reading cuts a spelling into its parts. -/
theorem parts_text (a : Spelling) :
    (dropDollar a.text).takeWhile Char.isAlpha = a.letters ∧
      dropDollar ((dropDollar a.text).dropWhile Char.isAlpha) = a.digits := by
  obtain ⟨hletters, hrest⟩ := takeWhile_append_of_head a.isAlpha (isAlpha_of_head a)
  rw [text, dropDollar_append _ (head?_letters_append a _), hletters, hrest,
    dropDollar_append _ (head?_digits a)]
  exact ⟨rfl, rfl⟩

theorem ordinal?_eq_some_iff {k : UInt32} :
    ordinal? n = some k ↔ n < UInt32.size ∧ k.toNat + 1 = n := by
  rw [ordinal?]
  split
  · rename_i h
    have hnat : (UInt32.ofNat (n - 1)).toNat = n - 1 :=
      UInt32.toNat_ofNat_of_lt' (by omega)
    rw [Option.some_inj, ← UInt32.toNat_inj, hnat]
    omega
  · rename_i h
    constructor
    · intro hk
      cases hk
    · rintro ⟨hn, hk⟩
      omega

/-- A spelling is read exactly if its numbers are in range, as the address it spells. -/
theorem ofText?_text_eq_some_iff :
    ofText? a.text = some address ↔ a.InRange ∧ a.Spells address := by
  obtain ⟨hletters, hdigits⟩ := parts_text a
  have hall : a.digits.all Char.isDigit := List.all_eq_true.mpr a.isDigits
  rw [ofText?, hletters, hdigits, if_pos ⟨a.letters_ne_nil, a.digits_ne_nil, hall⟩, ← column_eq,
    digitsNumber_eq_value, ← Spelling.row]
  simp only [Option.bind_eq_bind, Option.bind_eq_some_iff, ordinal?_eq_some_iff,
    Option.pure_def, Option.some_inj]
  constructor
  · rintro ⟨column, ⟨hcolumn, hcolumn'⟩, row, ⟨hrow, hrow'⟩, rfl⟩
    exact ⟨⟨⟨by omega, Nat.le_of_lt_succ hcolumn⟩, by omega, Nat.le_of_lt_succ hrow⟩,
      hcolumn', hrow'⟩
  · rintro ⟨⟨⟨-, hcolumn⟩, -, hrow⟩, hcolumn', hrow'⟩
    exact ⟨_, ⟨Nat.lt_succ_of_le hcolumn, hcolumn'⟩, _, ⟨Nat.lt_succ_of_le hrow, hrow'⟩, rfl⟩

theorem exists_text_of_ofText? (h : ofText? t = some address) :
    ∃ a : Spelling, a.text = t := by
  rw [ofText?] at h
  split at h
  · rename_i hparts
    obtain ⟨hletters, hdigits, hall⟩ := hparts
    obtain ⟨fixedColumn, hcolumn⟩ := exists_dollar_append t
    obtain ⟨fixedRow, hrow⟩ := exists_dollar_append ((dropDollar t).dropWhile Char.isAlpha)
    refine ⟨⟨fixedColumn, _, fixedRow, _, fun c hc => List.mem_takeWhile_imp hc,
      List.all_eq_true.mp hall, hletters, hdigits⟩, ?_⟩
    rw [text, hrow, List.takeWhile_append_dropWhile, hcolumn]
  · cases h

end Reading

section Showing

theorem Spelling.Spells.toText_eq (h : a.Spells address) : toText address = a.canonical := by
  have hrow : 0 < value a.digits := Nat.lt_of_lt_of_eq (Nat.succ_pos _) h.2
  rw [toText, h.1, h.2, column_eq, letters_lettersNumber a.isAlpha, Spelling.row,
    decimal_value a.isDigits hrow, canonical]

/-- The spelling by which an address is shown. -/
def spellingOf (address : CellAddress) : Spelling where
  fixedColumn := false
  letters := letters (address.column.toNat + 1)
  fixedRow := false
  digits := decimal (address.row.toNat + 1)
  isAlpha := isAlpha_letters _
  isDigits := isDigits_decimal _
  letters_ne_nil := letters_succ_ne_nil _
  digits_ne_nil := List.ne_nil_of_length_pos (length_decimal_pos _)

theorem text_spellingOf (address : CellAddress) : (spellingOf address).text = toText address := rfl

theorem spells_spellingOf (address : CellAddress) : (spellingOf address).Spells address := by
  constructor
  · rw [column_eq]
    exact (lettersNumber_letters _).symm
  · exact (value_decimal _).symm

theorem Spelling.Spells.unique (h : a.Spells address) (h' : a.Spells address') :
    address = address' := by
  have hrow : address.row.toNat = address'.row.toNat := Nat.succ.inj (h.2.trans h'.2.symm)
  have hcolumn : address.column.toNat = address'.column.toNat :=
    Nat.succ.inj (h.1.trans h'.1.symm)
  obtain ⟨row, column⟩ := address
  exact congrArg₂ CellAddress.mk (UInt32.toNat_inj.mp hrow) (UInt32.toNat_inj.mp hcolumn)

theorem exists_spells (h : a.InRange) : ∃ address, a.Spells address := by
  obtain ⟨⟨hcolumn, hcolumn'⟩, hrow, hrow'⟩ := h
  refine ⟨⟨UInt32.ofNat (a.row - 1), UInt32.ofNat (a.column - 1)⟩, ?_, ?_⟩
  · rw [UInt32.toNat_ofNat_of_lt' (Nat.sub_lt_of_lt (Nat.lt_succ_of_le hcolumn')),
      Nat.sub_add_cancel hcolumn]
  · rw [UInt32.toNat_ofNat_of_lt' (Nat.sub_lt_of_lt (Nat.lt_succ_of_le hrow')),
      Nat.sub_add_cancel hrow]

theorem spells_congr (h : a.text = b.text) : a.Spells address ↔ b.Spells address := by
  obtain ⟨hletters, hdigits⟩ := parts_text a
  obtain ⟨hletters', hdigits'⟩ := parts_text b
  rw [h] at hletters hdigits
  rw [Spells, Spells, column_eq, column_eq, Spelling.row, Spelling.row, ← hletters, hletters',
    ← hdigits, hdigits']

theorem toText_injective : Function.Injective toText := by
  intro address address' h
  have htext : (spellingOf address).text = (spellingOf address').text := h
  have hspells := (spells_congr htext).mp (spells_spellingOf address)
  exact hspells.unique (spells_spellingOf address')

end Showing

section Roundtrip

theorem ofText_eq_ok_iff : ofText t = .ok address ↔ ofText? t = some address := by
  rw [ofText]
  cases ofText? t <;> simp

theorem ofText_of_forall_ne (h : ∀ address, ofText t ≠ .ok address) : ofText t = .error ⟨t⟩ := by
  rw [ofText]
  cases hread : ofText? t with
  | none => rfl
  | some address => exact absurd (ofText_eq_ok_iff.mpr hread) (h address)

theorem ofText_text_eq_ok_iff : ofText a.text = .ok address ↔ a.InRange ∧ a.Spells address :=
  ofText_eq_ok_iff.trans ofText?_text_eq_some_iff

theorem exists_ofText_eq_ok_iff :
    (∃ address, ofText t = .ok address) ↔ ∃ a : Spelling, a.text = t ∧ a.InRange := by
  constructor
  · rintro ⟨address, hread⟩
    obtain ⟨a, rfl⟩ := exists_text_of_ofText? (ofText_eq_ok_iff.mp hread)
    exact ⟨a, rfl, (ofText_text_eq_ok_iff.mp hread).1⟩
  · rintro ⟨a, rfl, hrange⟩
    obtain ⟨address, h⟩ := exists_spells hrange
    exact ⟨address, ofText_text_eq_ok_iff.mpr ⟨hrange, h⟩⟩

/-- The last row and the last column have numbers that do not fit into 32 bits. -/
theorem inRange_spellingOf_iff :
    (spellingOf address).InRange ↔
      ¬ (address.row = 4294967295 ∨ address.column = 4294967295) := by
  obtain ⟨hcolumn, hrow⟩ := spells_spellingOf address
  have hrow' := address.row.toNat_lt
  have hcolumn' := address.column.toNat_lt
  rw [InRange, ← hcolumn, ← hrow, ← UInt32.toNat_inj, ← UInt32.toNat_inj]
  change _ ↔ ¬ (_ = 4294967295 ∨ _ = 4294967295)
  omega

/-- Addresses are told apart by their texts, and an address is read back from its text, unless it is
in the last row or the last column. -/
theorem ofText_toText (address address' : CellAddress) :
    (toText address = toText address' ↔ address = address') ∧
      ofText (toText address) =
        if address.row = 4294967295 ∨ address.column = 4294967295 then .error ⟨toText address⟩
        else .ok address := by
  refine ⟨toText_injective.eq_iff, ?_⟩
  rw [← text_spellingOf]
  split
  · rename_i h
    refine ofText_of_forall_ne fun read hread => ?_
    exact inRange_spellingOf_iff.mp (ofText_text_eq_ok_iff.mp hread).1 h
  · rename_i h
    exact ofText_text_eq_ok_iff.mpr ⟨inRange_spellingOf_iff.mpr h, spells_spellingOf address⟩

/-- The text of the first cell of the last row is not read. -/
theorem ofText_toText_last_row :
    toText ⟨4294967295, 0⟩ = "A4294967296".toList ∧
      ofText (toText ⟨4294967295, 0⟩) ≠ .ok ⟨4294967295, 0⟩ := by
  have htext : toText ⟨4294967295, 0⟩ = "A4294967296".toList := by decide +kernel
  refine ⟨htext, ?_⟩
  rw [htext]
  decide +kernel

end Roundtrip

/-- Exactly the spellings whose numbers are in range are read, as the address they spell, which is
shown by their canonical form. Any other text is the error itself, and machine integers hold all
numbers that occur on the way. -/
theorem ofText_eq_ok_iff_spelling (t : Text) :
    ((∃ address, ofText t = .ok address) ↔ ∃ a : Spelling, a.text = t ∧ a.InRange) ∧
    (∀ (a : Spelling) (address : CellAddress), a.text = t → ofText t = .ok address →
      a.Spells address ∧ toText address = a.canonical) ∧
    (∀ (u : Text) (a b : Spelling) (address address' : CellAddress), a.text = t → b.text = u →
      ofText t = .ok address → ofText u = .ok address' →
        (address = address' ↔ a.canonical = b.canonical)) ∧
    ((¬ ∃ a : Spelling, a.text = t ∧ a.InRange) → ofText t = .error ⟨t⟩) ∧
    Checked.addressOfText t = some (ofText t) := by
  have hspells {t : Text} (a : Spelling) (address : CellAddress) (ht : a.text = t)
      (hread : ofText t = .ok address) : a.Spells address ∧ toText address = a.canonical := by
    have h := (ofText_text_eq_ok_iff.mp (ht ▸ hread)).2
    exact ⟨h, h.toText_eq⟩
  refine ⟨exists_ofText_eq_ok_iff, hspells, fun u a b address address' ht hu hread hread' => ?_,
    fun hnone => ?_, Checked.addressOfText_eq t⟩
  · rw [← (hspells a address ht hread).2, ← (hspells b address' hu hread').2,
      toText_injective.eq_iff]
  · exact ofText_of_forall_ne fun address hread =>
      hnone (exists_ofText_eq_ok_iff.mp ⟨address, hread⟩)

/-- The spelling `$aa$010`. -/
def absoluteSpelling : Spelling :=
  ⟨true, "aa".toList, true, "010".toList, List.all_eq_true.mp rfl, List.all_eq_true.mp rfl,
    by decide, by decide⟩

theorem ofText_eq_ok_iff_spelling_absolute :
    ofText "$aa$010".toList = .ok ⟨9, 26⟩ ∧ toText ⟨9, 26⟩ = "AA10".toList := by
  obtain ⟨hiff, hspells, -⟩ := ofText_eq_ok_iff_spelling "$aa$010".toList
  obtain ⟨address, hread⟩ := hiff.mpr ⟨absoluteSpelling, rfl, by decide +kernel⟩
  obtain ⟨h, hshown⟩ := hspells absoluteSpelling address rfl hread
  obtain rfl : address = ⟨9, 26⟩ := h.unique (by decide +kernel)
  exact ⟨hread, hshown⟩

end CellDisplay.CellAddress
