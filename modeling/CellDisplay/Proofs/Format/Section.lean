import CellDisplay.Format.Piece
import Mathlib.Data.List.Chain
import Mathlib.Data.List.Infix
import Mathlib.Tactic.SplitIfs

/-! # Where the first section ends

The scan that cuts a section into pieces has its own view of quotes, brackets and skipped
characters. Read over a whole code it stops at the first semicolon that it takes for code, and
this place is compared with the end of the first section.
-/

namespace CellDisplay.FormatCode

/-- How the scan into pieces reads the next character of a code. -/
inductive Reading where
  | plain
  | quotes
  | brackets
  /-- Behind a backslash, an underscore or an asterisk -/
  | skipping
  deriving Repr, DecidableEq

namespace Reading

/-- How the scan into pieces reads on behind a character. -/
def after : Reading → Char → Reading
  | plain, c =>
    if c = '"' then quotes
    else if c = '[' then brackets
    else if c ∈ ['\\', '_', '*'] then skipping
    else plain
  | quotes, c => if c = '"' then plain else quotes
  | brackets, c => if c = ']' then plain else brackets
  | skipping, _ => plain

def behind (t : Text) : Reading := t.foldl after plain

end Reading

def codeFrom : Reading → Text → Text
  | _, [] => []
  | reading, c :: rest =>
    if reading = .plain ∧ reading.after c = .plain then c :: codeFrom .plain rest
    else codeFrom (reading.after c) rest

def plainSectionFrom : Reading → Text → Text
  | _, [] => []
  | reading, c :: rest =>
    if c = ';' ∧ reading = .plain then [] else c :: plainSectionFrom (reading.after c) rest

/-- The text of a code up to the first semicolon that the scan into pieces takes for code. -/
def plainSection (code : Text) : Text := plainSectionFrom .plain code

section Scan

variable {c : Char} {rest : Text}

theorem codeFrom_plain (h : Reading.after .plain c = .plain) :
    codeFrom .plain (c :: rest) = c :: codeFrom .plain rest := by
  simp [codeFrom, h]

theorem codeFrom_skipping (t : Text) : codeFrom .skipping t = codeFrom .plain (t.drop 1) := by
  cases t <;> simp [codeFrom, Reading.after]

theorem codeFrom_splitAtStop {reading : Reading} {stop : Char} (hr : reading ≠ .plain)
    (h : ∀ c, reading.after c = if c = stop then .plain else reading) (t : Text) :
    codeFrom reading t = codeFrom .plain (splitAtStop stop t).2 := by
  induction t with
  | nil => simp [codeFrom, splitAtStop]
  | cons c t ih =>
    by_cases hc : c = stop
    · simp [codeFrom, hr, h, hc, splitAtStop]
    · simpa [codeFrom, hr, h, hc, splitAtStop] using ih

theorem codeFrom_quotes (t : Text) :
    codeFrom .quotes t = codeFrom .plain (splitAtStop '"' t).2 := by
  exact codeFrom_splitAtStop (by decide) (fun _ => rfl) t

theorem codeFrom_brackets (t : Text) :
    codeFrom .brackets t = codeFrom .plain (splitAtStop ']' t).2 := by
  exact codeFrom_splitAtStop (by decide) (fun _ => rfl) t

end Scan

@[simp] theorem codeText_cons_code (t : Text) (pieces : List Piece) :
    codeText (.code t :: pieces) = t ++ codeText pieces := rfl

@[simp] theorem codeText_cons_literal (t : Text) (pieces : List Piece) :
    codeText (.literal t :: pieces) = codeText pieces := rfl

@[simp] theorem codeText_cons_elapsed (unit : ElapsedUnit) (width : Nat) (pieces : List Piece) :
    codeText (.elapsed unit width :: pieces) = codeText pieces := rfl

@[simp] theorem codeText_consCode (c : Char) (pieces : List Piece) :
    codeText (Piece.consCode c pieces) = c :: codeText pieces := by
  unfold Piece.consCode
  split <;> simp

@[simp] theorem codeText_consLiteral (t : Text) (pieces : List Piece) :
    codeText (Piece.consLiteral t pieces) = codeText pieces := by
  unfold Piece.consLiteral
  split
  · rfl
  · split <;> simp

theorem exists_elapsed_of_elapsedTag? {tag : Text} {piece : Piece}
    (h : elapsedTag? tag = some piece) : ∃ unit width, piece = .elapsed unit width := by
  cases tag with
  | nil => simp [elapsedTag?] at h
  | cons letter letters =>
    simp only [elapsedTag?] at h
    split at h
    · obtain ⟨unit, -, rfl⟩ := Option.map_eq_some_iff.mp h
      exact ⟨unit, letters.length + 1, rfl⟩
    · simp at h

@[simp] theorem codeText_consTag (tag : Text) (pieces : List Piece) :
    codeText (consTag tag pieces) = codeText pieces := by
  unfold consTag
  split
  · simp
  · split
    · rename_i h
      obtain ⟨unit, width, rfl⟩ := exists_elapsed_of_elapsedTag? h
      rfl
    · rfl

/-- The pieces of a section hold as code what the scan takes for code. -/
theorem codeText_sectionPieces (t : Text) : codeText (sectionPieces t) = codeFrom .plain t := by
  fun_induction sectionPieces t with
  | case1 => rfl
  | case2 rest ih => rw [codeText_consLiteral, ih, ← codeFrom_quotes]; rfl
  | case3 rest ih => rw [codeText_consTag, ih, ← codeFrom_brackets]; rfl
  | case4 rest ih => rw [codeText_consLiteral, ih, ← codeFrom_skipping]; rfl
  | case5 rest ih => rw [codeText_consLiteral, ih, ← codeFrom_skipping]; rfl
  | case6 rest ih => rw [ih, ← codeFrom_skipping]; rfl
  | case7 c rest h₁ h₂ h₃ h₄ h₅ ih =>
    have hc : Reading.after .plain c = .plain := by
      simp_all [Reading.after]
    rw [codeText_consCode, ih, codeFrom_plain hc]

theorem codeFrom_sublist (reading : Reading) (t : Text) : (codeFrom reading t).Sublist t := by
  induction t generalizing reading with
  | nil => exact List.Sublist.refl _
  | cons c rest ih =>
    rw [codeFrom]
    split
    · exact (ih _).cons_cons c
    · exact (ih _).cons c

section Plain

variable {reading : Reading} {s t : Text}

theorem plainSectionFrom_prefix_self (reading : Reading) (t : Text) :
    plainSectionFrom reading t <+: t := by
  induction t generalizing reading with
  | nil => exact List.prefix_refl _
  | cons c t ih =>
    rw [plainSectionFrom]
    split
    · exact List.nil_prefix
    · exact List.cons_prefix_cons.mpr ⟨rfl, ih _⟩

theorem plainSectionFrom_eq_self_iff :
    plainSectionFrom reading t = t ↔ ';' ∉ codeFrom reading t := by
  induction t generalizing reading with
  | nil => simp [plainSectionFrom, codeFrom]
  | cons c t ih =>
    rw [plainSectionFrom, codeFrom]
    by_cases hp : reading = .plain
    · subst hp
      by_cases hc : c = ';'
      · subst hc
        simp [Reading.after]
      · by_cases ha : Reading.after .plain c = .plain
        · simp [hc, ha, ih, Ne.symm hc]
        · simp [hc, ha, ih]
    · simp [hp, ih]

theorem plainSectionFrom_append :
    plainSectionFrom reading (s ++ t) =
      if plainSectionFrom reading s = s then s ++ plainSectionFrom (s.foldl .after reading) t
      else plainSectionFrom reading s := by
  induction s generalizing reading with
  | nil => simp [plainSectionFrom]
  | cons c s ih =>
    simp only [List.cons_append, plainSectionFrom, List.foldl_cons]
    split
    · simp
    · simp only [ih, List.cons.injEq, true_and]
      split <;> simp_all

/-- A beginning of a code has no semicolon of code exactly if it lies in the plain section. -/
theorem semicolon_not_mem_codeFrom_iff (h : s <+: t) :
    ';' ∉ codeFrom .plain s ↔ s <+: plainSection t := by
  obtain ⟨rest, rfl⟩ := h
  rw [← plainSectionFrom_eq_self_iff, plainSection, plainSectionFrom_append]
  split
  · rename_i hs
    simp [hs]
  · rename_i hs
    refine iff_of_false hs fun h => hs ?_
    exact (plainSectionFrom_prefix_self _ s).eq_of_length_le h.length_le

theorem exists_of_plainSectionFrom_ne (h : plainSectionFrom reading t ≠ t) :
    ∃ rest, t = plainSectionFrom reading t ++ ';' :: rest ∧
      (plainSectionFrom reading t).foldl .after reading = .plain := by
  induction t generalizing reading with
  | nil => exact absurd rfl h
  | cons c t ih =>
    rw [plainSectionFrom] at h ⊢
    split
    · rename_i hc
      exact ⟨t, by simp [hc.1], hc.2⟩
    · rename_i hc
      rw [if_neg hc] at h
      obtain ⟨rest, ht, hr⟩ := ih fun he => h (by rw [he])
      exact ⟨rest, by rw [List.cons_append, ← ht], hr⟩

theorem plainSection_prefix_self (code : Text) : plainSection code <+: code :=
  plainSectionFrom_prefix_self .plain code

/-- A semicolon that the scan takes for code ends the plain section if it is the first one. -/
theorem plainSection_append_semicolon (hs : ';' ∉ codeFrom .plain s)
    (hb : Reading.behind s = .plain) : plainSection (s ++ ';' :: t) = s := by
  rw [Reading.behind] at hb
  rw [plainSection, plainSectionFrom_append, if_pos (plainSectionFrom_eq_self_iff.mpr hs), hb]
  simp [plainSectionFrom]

end Plain

section First

theorem sectionFrom_prefix_self (surround : Surround) (t : Text) :
    sectionFrom surround t <+: t := by
  fun_induction sectionFrom surround t with
  | case1 => exact List.prefix_refl _
  | case2 => exact List.prefix_refl _
  | case3 _ _ _ _ _ ih => simpa using ih
  | case4 => exact List.nil_prefix
  | case5 _ _ _ _ _ ih => simpa using ih

theorem exists_of_sectionFrom_ne {surround : Surround} {t : Text}
    (h : sectionFrom surround t ≠ t) : ∃ rest, t = sectionFrom surround t ++ ';' :: rest := by
  fun_induction sectionFrom surround t with
  | case1 => exact absurd rfl h
  | case2 => exact absurd rfl h
  | case3 _ _ _ _ _ ih =>
    obtain ⟨rest, hr⟩ := ih (by simpa using h)
    exact ⟨rest, by simpa using hr⟩
  | case4 surround c rest _ hc => exact ⟨rest, by simp [hc.1]⟩
  | case5 _ _ _ _ _ ih =>
    obtain ⟨rest, hr⟩ := ih (by simpa using h)
    exact ⟨rest, by simpa using hr⟩

theorem sectionFrom_cons {surround : Surround} {c : Char} (h : ¬ (c = '\\' ∧ surround ≠ .quotes))
    (t : Text) :
    sectionFrom surround (c :: t) =
      if c = ';' ∧ surround = .plain then [] else c :: sectionFrom (surround.after c) t := by
  rw [sectionFrom.eq_def]
  exact if_neg h

/-- A section is its own first section. -/
theorem sectionFrom_sectionFrom (surround : Surround) (t : Text) :
    sectionFrom surround (sectionFrom surround t) = sectionFrom surround t := by
  fun_induction sectionFrom surround t with
  | case1 => rfl
  | case2 surround c hc => simp [sectionFrom, hc]
  | case3 surround c hc d rest ih => simp [sectionFrom, hc, ih]
  | case4 => rfl
  | case5 surround c rest hb hs ih => rw [sectionFrom_cons hb, if_neg hs, ih]

/-- A section keeps a beginning of the text in which nothing ends a section or hides its end. -/
theorem isPrefix_sectionFrom_iff {s t : Text} (hb : '\\' ∉ s) (hs : ';' ∉ s)
    (surround : Surround) : s <+: sectionFrom surround t ↔ s <+: t := by
  refine ⟨fun h => h.trans (sectionFrom_prefix_self surround t), fun h => ?_⟩
  induction s generalizing surround t with
  | nil => exact List.nil_prefix
  | cons c s ih =>
    obtain ⟨rest, rfl⟩ := h
    obtain ⟨hbc, hb⟩ := not_or.mp (mt List.mem_cons.mpr hb)
    obtain ⟨hsc, hs⟩ := not_or.mp (mt List.mem_cons.mpr hs)
    rw [List.cons_append, sectionFrom_cons fun h => hbc h.1.symm, if_neg fun h => hsc h.1.symm]
    exact List.cons_prefix_cons.mpr ⟨rfl, ih hb hs _ (List.prefix_append _ _)⟩

theorem firstSection_prefix_self (code : Text) : firstSection code <+: code :=
  sectionFrom_prefix_self .plain code

/-- The code of the first section stands in the format code in its order. -/
theorem codeText_pieces_sublist (code : Text) : (codeText (pieces code)).Sublist code := by
  rw [pieces, codeText_sectionPieces]
  exact (codeFrom_sublist _ _).trans (firstSection_prefix_self code).sublist

theorem exists_of_firstSection_ne {code : Text} (h : firstSection code ≠ code) :
    ∃ rest, code = firstSection code ++ ';' :: rest :=
  exists_of_sectionFrom_ne h

@[simp] theorem firstSection_firstSection (code : Text) :
    firstSection (firstSection code) = firstSection code :=
  sectionFrom_sectionFrom .plain code

@[simp] theorem pieces_firstSection (code : Text) : pieces (firstSection code) = pieces code := by
  rw [pieces, firstSection_firstSection, pieces]

theorem isPrefixOf_firstSection {s : Text} (hb : '\\' ∉ s) (hs : ';' ∉ s) (code : Text) :
    s.isPrefixOf (firstSection code) = s.isPrefixOf code := by
  rw [Bool.eq_iff_iff, List.isPrefixOf_iff_prefix, List.isPrefixOf_iff_prefix]
  exact isPrefix_sectionFrom_iff hb hs .plain

/-- No piece of code holds a semicolon exactly if the first section lies in the plain one. -/
theorem semicolon_not_mem_codeText_iff (code : Text) :
    ';' ∉ codeText (pieces code) ↔ firstSection code <+: plainSection code := by
  rw [pieces, codeText_sectionPieces]
  exact semicolon_not_mem_codeFrom_iff (firstSection_prefix_self code)

/-- The first section is the plain section exactly if its pieces hold no semicolon as code and
the semicolon behind it, if there is one, is taken for code. -/
theorem firstSection_eq_plainSection_iff (code : Text) :
    firstSection code = plainSection code ↔
      ';' ∉ codeText (pieces code) ∧
        (firstSection code = code ∨ Reading.behind (firstSection code) = .plain) := by
  rw [semicolon_not_mem_codeText_iff]
  constructor
  · intro h
    refine ⟨h ▸ List.prefix_refl _, or_iff_not_imp_left.mpr fun hne => ?_⟩
    rw [h] at hne ⊢
    obtain ⟨rest, -, hp⟩ := exists_of_plainSectionFrom_ne hne
    exact hp
  · rintro ⟨h, hp⟩
    by_cases hw : firstSection code = code
    · have hl := (plainSection_prefix_self code).length_le
      exact h.eq_of_length_le (by rw [hw]; exact hl)
    · obtain ⟨rest, hr⟩ := exists_of_firstSection_ne hw
      have hs := (semicolon_not_mem_codeFrom_iff ⟨_, hr.symm⟩).mpr h
      have he := plainSection_append_semicolon (t := rest) hs (hp.resolve_left hw)
      rwa [← hr, eq_comm] at he

end First

section InStep

/-- Two neighbours at which the scans for the first section and for the pieces can part: only
the latter skips what follows an underscore or an asterisk, and only the former skips what
follows a backslash in brackets. -/
def Parts (c d : Char) : Prop :=
  c ∈ ['_', '*'] ∧ d ∈ [';', '"', '[', '\\'] ∨ c = '\\' ∧ d = ']'

instance (c d : Char) : Decidable (Parts c d) := inferInstanceAs (Decidable (_ ∨ _))

theorem Surround.after_plain (c : Char) :
    plain.after c = if c = '"' then quotes else if c = '[' then brackets else plain := by
  unfold after
  split <;> simp_all

theorem Surround.after_quotes (c : Char) :
    quotes.after c = if c = '"' then plain else quotes := by
  unfold after
  split <;> simp_all

theorem Surround.after_brackets (c : Char) :
    brackets.after c = if c = ']' then plain else brackets := by
  unfold after
  split <;> simp_all

/-- The two scans are in step, or only the scan into pieces skips a character that means nothing
to the other one. -/
inductive InStep : Surround → Reading → Text → Prop where
  | plain {t : Text} : InStep .plain .plain t
  | quotes {t : Text} : InStep .quotes .quotes t
  | brackets {t : Text} : InStep .brackets .brackets t
  | skipping {t : Text} : (∀ d ∈ t.head?, d ∉ [';', '"', '[', '\\']) →
      InStep .plain .skipping t

theorem InStep.after {surround : Surround} {reading : Reading} {c : Char} {t : Text}
    (h : InStep surround reading (c :: t)) (hp : ∀ d ∈ t.head?, ¬ Parts c d)
    (hc : ¬ (c = '\\' ∧ surround ≠ .quotes)) :
    InStep (surround.after c) (reading.after c) t := by
  cases h with
  | plain =>
    have hb : c ≠ '\\' := by simpa using hc
    rw [Surround.after_plain, Reading.after]
    split_ifs with hq hb hs
    · exact .quotes
    · exact .brackets
    · exact .skipping fun d hd hm => hp d hd (.inl ⟨by simp_all, hm⟩)
    · exact .plain
  | quotes =>
    rw [Surround.after_quotes, Reading.after]
    split_ifs
    · exact .plain
    · exact .quotes
  | brackets =>
    rw [Surround.after_brackets, Reading.after]
    split_ifs
    · exact .plain
    · exact .brackets
  | skipping hd =>
    have hn : c ∉ [';', '"', '[', '\\'] := hd c rfl
    have ha : Surround.plain.after c = .plain := by simp_all [Surround.after_plain]
    rw [ha]
    exact .plain

theorem sectionFrom_eq_of_inStep {surround : Surround} {reading : Reading} {t : Text}
    (hc : t.IsChain fun c d => ¬ Parts c d) (h : InStep surround reading t) :
    sectionFrom surround t = plainSectionFrom reading t := by
  fun_induction sectionFrom surround t generalizing reading with
  | case1 => rfl
  | case2 surround c hs => simp [plainSectionFrom, hs.1]
  | case3 surround c hs d rest ih =>
    obtain ⟨rfl, hs⟩ := hs
    obtain ⟨hp, hc⟩ := List.isChain_cons.mp hc
    cases h with
    | plain => simp [plainSectionFrom, Reading.after, ih hc.tail .plain]
    | quotes => exact absurd rfl hs
    | brackets =>
      have hd : d ≠ ']' := fun hd => hp d rfl (.inr ⟨rfl, hd⟩)
      simp [plainSectionFrom, Reading.after, hd, ih hc.tail .brackets]
    | skipping hd => simp at hd
  | case4 surround c rest _ hs =>
    obtain ⟨rfl, rfl⟩ := hs
    cases h with
    | plain => simp [plainSectionFrom]
    | skipping hd => simp at hd
  | case5 surround c rest hb hs ih =>
    obtain ⟨hp, hr⟩ := List.isChain_cons.mp hc
    rw [ih hr (h.after hp hb), plainSectionFrom, if_neg]
    rintro ⟨rfl, rfl⟩
    cases h
    exact hs ⟨rfl, rfl⟩

/-- The first section is the plain section of every code in which the two scans cannot part. -/
theorem firstSection_eq_plainSection_of_isChain {code : Text}
    (h : code.IsChain fun c d => ¬ Parts c d) : firstSection code = plainSection code :=
  sectionFrom_eq_of_inStep h .plain

end InStep

end CellDisplay.FormatCode
