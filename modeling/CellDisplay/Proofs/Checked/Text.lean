import CellDisplay.Checked.Text
import CellDisplay.Proofs.Format.Section
import CellDisplay.Proofs.Text.Cut

/-! # Byte offsets stay on boundaries

A word found byte by byte, up to the case of ASCII letters, is a word found character by
character: no character opens with the bytes of another one, and lower case keeps the number
of bytes. So every slice of a search falls on a boundary.
-/

namespace CellDisplay.Checked

open Text

variable {α : Type} {a b s t u word : Text} {n : Nat}

section Loops

variable {β : Type}

/-- A search whose tests all succeed finds what the tests say. -/
theorem findM?_eq_some {l : List α} {f : α → Option Bool} {p : α → Bool}
    (h : ∀ x ∈ l, f x = some (p x)) : l.findM? f = some (l.find? p) := by
  induction l with
  | nil => rfl
  | cons x l ih =>
    rw [List.findM?, h x List.mem_cons_self, List.find?_cons]
    cases p x with
    | true => rfl
    | false => exact ih fun y hy => h y (List.mem_cons_of_mem _ hy)

theorem anyM_eq_some {l : List α} {f : α → Option Bool} {p : α → Bool}
    (h : ∀ x ∈ l, f x = some (p x)) : l.anyM f = some (l.any p) := by
  induction l with
  | nil => rfl
  | cons x l ih =>
    rw [List.anyM, h x List.mem_cons_self, List.any_cons]
    cases p x with
    | true => rfl
    | false => exact ih fun y hy => h y (List.mem_cons_of_mem _ hy)

theorem mapM_eq_some {l : List α} {f : α → Option β} {g : α → β}
    (h : ∀ x ∈ l, f x = some (g x)) : l.mapM f = some (l.map g) := by
  induction l with
  | nil => rfl
  | cons x l ih =>
    rw [List.mapM_cons, h x List.mem_cons_self, ih fun y hy => h y (List.mem_cons_of_mem _ hy)]
    rfl

end Loops

section Slices

theorem cutAt_append (a b : Text) : cutAt a.utf8Length (a ++ b) = some (a, b) := by
  induction a with
  | nil => cases b <;> rfl
  | cons c a ih =>
    obtain ⟨n, hn⟩ : ∃ n, c.utf8Size + utf8Length a = n + 1 :=
      Nat.exists_eq_add_one.mpr (Nat.add_pos_left c.utf8Size_pos _)
    rw [utf8Length_cons, hn, List.cons_append, cutAt, if_pos (by omega), ← hn,
      Nat.add_sub_cancel_left, ih]
    rfl

theorem cutAt_eq_some_iff : cutAt n t = some (a, b) ↔ t = a ++ b ∧ n = a.utf8Length := by
  constructor
  · intro h
    induction t generalizing n a with
    | nil => cases n <;> simp_all [cutAt]
    | cons c t ih =>
      cases n with
      | zero =>
        obtain ⟨rfl, rfl⟩ : [] = a ∧ c :: t = b := by simpa [cutAt] using h
        exact ⟨rfl, rfl⟩
      | succ n =>
        rw [cutAt] at h
        split at h
        · obtain ⟨⟨before, rest⟩, hr, he⟩ := Option.map_eq_some_iff.mp h
          obtain ⟨rfl, rfl⟩ := Prod.mk.inj he
          obtain ⟨rfl, hn⟩ := ih hr
          exact ⟨rfl, by rw [utf8Length_cons]; omega⟩
        · simp at h
  · rintro ⟨rfl, rfl⟩
    exact cutAt_append a b

theorem isBoundary_iff : isBoundary t n ↔ ∃ a b, t = a ++ b ∧ n = a.utf8Length := by
  simp [isBoundary, Option.isSome_iff_exists, cutAt_eq_some_iff]

theorem sliceTo_append (a b : Text) : sliceTo a.utf8Length (a ++ b) = some a := by
  rw [sliceTo, cutAt_append, Option.map_some]

theorem sliceFrom_append (a b : Text) : sliceFrom a.utf8Length (a ++ b) = some b := by
  rw [sliceFrom, cutAt_append, Option.map_some]

theorem slice_append (a s b : Text) :
    slice a.utf8Length (a.utf8Length + s.utf8Length) (a ++ (s ++ b)) = some s := by
  rw [slice, ← utf8Length_append, ← List.append_assoc, sliceTo_append, Option.bind_some,
    sliceFrom_append]

theorem length_le_utf8Length (t : Text) : t.length ≤ t.utf8Length := by
  induction t with
  | nil => rfl
  | cons c t ih =>
    have := c.utf8Size_pos
    rw [List.length_cons, utf8Length_cons]
    omega

theorem utf8Length_le_of_sublist (h : s.Sublist t) : s.utf8Length ≤ t.utf8Length := by
  induction h with
  | slnil => exact Nat.le_refl _
  | cons c _ ih => exact Nat.le_trans ih (Nat.le_add_left _ _)
  | cons_cons c _ ih => exact Nat.add_le_add_left ih _

theorem utf8Length_le_of_append (h : t = a ++ b) : a.utf8Length ≤ t.utf8Length :=
  utf8Length_le_of_sublist (h ▸ List.sublist_append_left a b)

end Slices

section Bytes

theorem bytes_append (s t : Text) : bytes (s ++ t) = bytes s ++ bytes t := List.flatMap_append

@[simp] theorem length_bytes (t : Text) : (bytes t).length = t.utf8Length := by
  induction t with
  | nil => rfl
  | cons c t ih =>
    rw [bytes, List.flatMap_cons, List.length_append, String.length_utf8EncodeChar,
      utf8Length_cons, ← ih, bytes]

theorem lowerByte_ofNat (h : 128 ≤ n) (hn : n < 256) :
    lowerByte (UInt8.ofNat n) = UInt8.ofNat n := by
  refine if_neg fun hb => ?_
  have hle := UInt8.le_iff_toNat_le.mp hb.2
  rw [UInt8.toNat_ofNat', Nat.mod_eq_of_lt hn] at hle
  exact absurd (Nat.le_trans h hle) (by decide)

/-- Only the one byte of an ASCII character changes in lower case. -/
theorem map_lowerByte_utf8EncodeChar (c : Char) :
    (String.utf8EncodeChar c).map lowerByte = String.utf8EncodeChar c.toLower := by
  by_cases hc : c.toNat < 128
  · have ascii : ∀ n < 128, (String.utf8EncodeChar (Char.ofNat n)).map lowerByte =
        String.utf8EncodeChar (Char.ofNat n).toLower := by decide
    rw [← Char.ofNat_toNat c]
    exact ascii _ hc
  · have hl : c.toLower = c := dif_neg fun h =>
      hc (Nat.lt_of_le_of_lt (UInt32.le_iff_toNat_le.mp h.2) (by decide))
    have hv : ¬ c.val.toNat ≤ 0x7f := fun h => hc (Nat.lt_succ_of_le h)
    rw [hl, String.utf8EncodeChar, if_neg hv]
    -- every byte of a longer character is at least 128
    split
    · simp (disch := omega) only [List.map_cons, List.map_nil, lowerByte_ofNat]
    · split <;> simp (disch := omega) only [List.map_cons, List.map_nil, lowerByte_ofNat]

theorem map_lowerByte_bytes (t : Text) : (bytes t).map lowerByte = bytes (lower t) := by
  simp only [bytes, lower, List.map_flatMap, List.flatMap_map, map_lowerByte_utf8EncodeChar]

@[simp] theorem utf8Length_lower (t : Text) : (lower t).utf8Length = t.utf8Length := by
  rw [← length_bytes, ← map_lowerByte_bytes, List.length_map, length_bytes]

/-- The bytes of a character tell where it ends. -/
theorem eq_of_utf8EncodeChar_append {c d : Char} {x y : List UInt8}
    (h : String.utf8EncodeChar c ++ x = String.utf8EncodeChar d ++ y) : c = d := by
  have hb := congrArg (fun bs => ByteArray.utf8DecodeChar? (List.toByteArray bs) 0) h
  simp only [List.toByteArray_append, ByteArray.utf8DecodeChar?_utf8EncodeChar_append] at hb
  exact Option.some.inj hb

theorem bytes_isPrefix_iff : bytes s <+: bytes t ↔ s <+: t := by
  constructor
  · intro h
    induction s generalizing t with
    | nil => exact List.nil_prefix
    | cons c s ih =>
      obtain ⟨rest, hr⟩ := h
      rw [bytes, List.flatMap_cons, List.append_assoc] at hr
      cases t with
      | nil =>
        have hl := congrArg List.length hr
        rw [List.length_append, String.length_utf8EncodeChar] at hl
        exact absurd hl (Nat.ne_of_gt (Nat.add_pos_left c.utf8Size_pos _))
      | cons d t =>
        rw [bytes, List.flatMap_cons] at hr
        obtain rfl := eq_of_utf8EncodeChar_append hr
        exact (List.prefix_cons_inj c).mpr (ih ⟨rest, List.append_cancel_left hr⟩)
  · rintro ⟨rest, rfl⟩
    exact ⟨bytes rest, (bytes_append s rest).symm⟩

theorem bytes_eq_nil_iff : bytes t = [] ↔ t = [] := by
  rw [← List.prefix_nil, show ([] : List UInt8) = bytes [] from rfl, bytes_isPrefix_iff,
    List.prefix_nil]

theorem utf8Length_take_of_startsWith (h : startsWith word t) :
    utf8Length (t.take word.length) = word.utf8Length := by
  have hp := List.prefix_iff_eq_take.mp (startsWith_iff.mp h)
  rw [← utf8Length_lower, lower_take, ← length_lower word, ← hp, utf8Length_lower]

theorem utf8Length_le_of_startsWith (h : startsWith word t) :
    word.utf8Length ≤ t.utf8Length := by
  rw [← utf8Length_take_of_startsWith h]
  exact utf8Length_le_of_append (List.take_append_drop _ t).symm

/-- At a boundary with enough bytes behind it, comparing bytes compares characters. -/
theorem matchesAt_append (h : word.utf8Length ≤ b.utf8Length)
    (hl : (a ++ b).utf8Length < 2 ^ 64) :
    matchesAt (bytes word) (bytes (a ++ b)) a.utf8Length = some (startsWith word b) := by
  rw [utf8Length_append] at hl
  have hr : byteRange a.utf8Length (a.utf8Length + word.utf8Length) (bytes (a ++ b)) =
      some ((bytes b).take word.utf8Length) := by
    rw [byteRange, if_pos (by simp; omega), bytes_append, ← length_bytes a, List.take_append,
      List.drop_append]
    simp
  have hs : (((bytes b).take word.utf8Length).map lowerByte == (bytes word).map lowerByte) =
      startsWith word b := by
    rw [Bool.eq_iff_iff, beq_iff_eq, startsWith_iff, ← bytes_isPrefix_iff, List.map_take,
      map_lowerByte_bytes, map_lowerByte_bytes, List.prefix_iff_eq_take, length_bytes,
      utf8Length_lower, eq_comm]
  rw [matchesAt, length_bytes, Unsigned.value?_ofNat_add (by omega)]
  simp only [Option.bind_eq_bind, Option.bind_some, hr, Option.pure_def, hs]

end Bytes

section Searches

/-- The word stands in the text at an offset, which is a boundary. -/
def standsAt (word t : Text) (i : Nat) : Bool :=
  (cutAt i t).any fun (_, rest) => startsWith word rest

theorem standsAt_iff :
    standsAt word t n ↔ ∃ a b, t = a ++ b ∧ n = a.utf8Length ∧ startsWith word b := by
  simp [standsAt, Option.any_eq_true, cutAt_eq_some_iff, and_assoc]

theorem standsAt_append (word a b : Text) :
    standsAt word (a ++ b) a.utf8Length = startsWith word b := by
  rw [standsAt, cutAt_append, Option.any_some]

/-- Of two beginnings of a text, the shorter one has fewer bytes. -/
theorem length_lt_iff_of_append (h : a ++ b = s ++ u) :
    a.length < s.length ↔ a.utf8Length < s.utf8Length := by
  rcases Nat.le_total a.length s.length with hle | hle
  · obtain ⟨r, rfl⟩ := List.prefix_of_prefix_length_le ⟨b, h⟩ ⟨u, rfl⟩ hle
    have := length_le_utf8Length r
    cases r with
    | nil => simp
    | cons c r =>
      simp only [List.length_append, utf8Length_append, List.length_cons] at this ⊢
      omega
  · obtain ⟨r, rfl⟩ := List.prefix_of_prefix_length_le ⟨u, h.symm⟩ ⟨b, rfl⟩ hle
    rw [List.length_append, utf8Length_append]
    omega

/-- The first offset at which a word stands is that of its first occurrence. -/
theorem find?_standsAt (hw : word ≠ []) (hl : word.utf8Length ≤ t.utf8Length) :
    (List.range (t.utf8Length - word.utf8Length + 1)).find?
      (fun i => decide (isBoundary t i ∧ standsAt word t i)) = find? word t := by
  rw [find?, breakOn, if_neg (by simpa using hw)]
  cases hb : breakAt (startsWith word) t with
  | none =>
    refine List.find?_eq_none.mpr fun i _ hi => ?_
    obtain ⟨a, b, rfl, -, hs⟩ := standsAt_iff.mp (of_decide_eq_true hi).2
    exact absurd hs (Bool.eq_false_iff.mp (breakAt_eq_none_iff.mp hb a b rfl))
  | some found =>
    obtain ⟨before, rest⟩ := found
    obtain ⟨rfl, hs⟩ := append_of_breakAt hb
    have hle := utf8Length_le_of_startsWith hs
    rw [Option.map_some, List.find?_range_eq_some]
    refine ⟨?_, List.mem_range.mpr (by simp; omega), fun j hj => ?_⟩
    · rw [decide_eq_true_iff, standsAt_append]
      exact ⟨isBoundary_iff.mpr ⟨before, rest, rfl, rfl⟩, hs⟩
    · rw [Bool.not_eq_true', decide_eq_false_iff_not]
      rintro ⟨-, hj'⟩
      obtain ⟨a, b, hab, rfl, hsb⟩ := standsAt_iff.mp hj'
      have hlt := (length_lt_iff_of_append hab.symm).mpr hj
      exact absurd hsb (Bool.eq_false_iff.mp (eq_false_of_breakAt (hab ▸ hb) hlt))

theorem find?_eq_none_of_lt (h : t.utf8Length < word.utf8Length) : find? word t = none := by
  have hnone : breakAt (startsWith word) t = none := by
    refine breakAt_eq_none_iff.mpr ?_
    rintro a b rfl
    refine Bool.eq_false_iff.mpr fun hs => ?_
    have := utf8Length_le_of_startsWith hs
    rw [utf8Length_append] at h
    omega
  simp [find?, breakOn, hnone]

theorem find_eq (word : Text) (h : t.utf8Length < 2 ^ 64) : find word t = some (find? word t) := by
  simp only [find, bytes_eq_nil_iff, length_bytes]
  by_cases hw : word = []
  · simp [hw, find?, breakOn]
  by_cases hl : t.utf8Length < word.utf8Length
  · simp [hl, find?_eq_none_of_lt hl]
  -- the offsets that are tried are those at which the word can fit
  have htest : ∀ i ∈ (List.range (t.utf8Length - word.utf8Length + 1)).filter (isBoundary t),
      matchesAt (bytes word) (bytes t) i = some (standsAt word t i) := by
    intro i hi
    obtain ⟨hr, hb⟩ := List.mem_filter.mp hi
    obtain ⟨a, b, rfl, rfl⟩ := isBoundary_iff.mp hb
    have hr := List.mem_range.mp hr
    rw [matchesAt_append (by simp at hr hl; omega) h, standsAt_append]
  rw [if_neg (not_or.mpr ⟨hw, hl⟩), Unsigned.value?_ofNat_sub h (by omega),
    Option.bind_eq_bind, Option.bind_some, findM?_eq_some htest, List.find?_filter,
    find?_standsAt hw (Nat.le_of_not_lt hl)]

theorem contains_eq (word : Text) (h : t.utf8Length < 2 ^ 64) :
    contains word t = some (Text.contains word t) := by
  rw [contains, find_eq word h, Option.map_some, find?, Option.isSome_map, Text.contains]

theorem replaceFrom_eq (hw : word ≠ []) (replacement : Text) (h : t.utf8Length < 2 ^ 64)
    (hn : t.length < n) :
    replaceFrom word replacement n t = some (Text.replace word replacement t) := by
  induction n generalizing t with
  | zero => exact absurd hn (Nat.not_lt_zero _)
  | succ n ih =>
    rw [replaceFrom, find_eq word h, find?]
    cases hb : breakOn word t with
    | none => simp [replace_of_breakOn_none hw hb]
    | some found =>
      obtain ⟨before, rest⟩ := found
      have hbreak : breakAt (startsWith word) t = some (before, rest) :=
        breakOn_of_ne_nil hw t ▸ hb
      obtain ⟨rfl, hs⟩ := append_of_breakAt hbreak
      have hword := utf8Length_take_of_startsWith hs
      have hlen := congrArg utf8Length (List.take_append_drop word.length rest)
      rw [utf8Length_append, hword] at hlen
      rw [utf8Length_append] at h
      have hafter : sliceFrom (before.utf8Length + word.utf8Length) (before ++ rest) =
          some (rest.drop word.length) := by
        rw [← hword, ← utf8Length_append, ← List.take_append_drop word.length rest,
          ← List.append_assoc, List.take_append_drop, sliceFrom_append]
      have hpos := List.length_pos_iff.mpr hw
      have hle := length_le_of_startsWith hs
      have hrec := ih (t := rest.drop word.length) (by omega)
        (by rw [List.length_append] at hn; rw [List.length_drop]; omega)
      simp only [Option.map_some, Option.bind_eq_bind, Option.bind_some]
      rw [Unsigned.value?_ofNat_add (by omega)]
      simp only [Option.bind_some, sliceTo_append, hafter, hrec, Option.pure_def,
        replace_of_breakOn_some hw hb]

theorem replace_eq (hw : word ≠ []) (replacement : Text) (h : t.utf8Length < 2 ^ 64) :
    replace word replacement t = some (Text.replace word replacement t) := by
  rw [replace, if_neg hw]
  exact replaceFrom_eq hw replacement h (Nat.lt_succ_of_le (length_le_utf8Length t))

end Searches

section Cuts

variable {spelling : α → Text} {words : List α} {front : Text} {start i : Nat}

theorem wordAt_append (words : List α) (h : (a ++ b).utf8Length < 2 ^ 64) :
    wordAt spelling words (a ++ b) a.utf8Length =
      some (words.find? fun word => startsWith (spelling word) b) := by
  have htest : ∀ word ∈ words,
      (if (bytes (spelling word)).length ≤ b.utf8Length then
        matchesAt (bytes (spelling word)) (bytes (a ++ b)) a.utf8Length
      else some false) = some (startsWith (spelling word) b) := by
    intro word _
    rw [length_bytes]
    split
    · exact matchesAt_append ‹_› h
    · rename_i hl
      exact congrArg some (Bool.eq_false_iff.mpr (mt utf8Length_le_of_startsWith hl)).symm
  rw [wordAt, if_pos (isBoundary_iff.mpr ⟨a, b, rfl, rfl⟩), length_bytes,
    Unsigned.value?_ofNat_sub h (utf8Length_le_of_append rfl), utf8Length_append,
    Nat.add_sub_cancel_left]
  exact findM?_eq_some htest

theorem wordAt_eq_none (h : t.utf8Length < 2 ^ 64)
    (hnot : ∀ word ∈ words, standsAt (spelling word) t i = false) :
    wordAt spelling words t i = some none := by
  by_cases hb : isBoundary t i
  · obtain ⟨a, b, rfl, rfl⟩ := isBoundary_iff.mp hb
    rw [wordAt_append words h, List.find?_eq_none.mpr fun word hw => ?_]
    rw [← standsAt_append, hnot word hw]
    exact Bool.false_ne_true
  · rw [wordAt, if_neg hb]

/-- The plain run of a text, unless it is empty. -/
def runOf (s : Text) : List (Run α) := if s = [] then [] else [.plain s]

theorem plainRun_append (a s b : Text) :
    plainRun a.utf8Length (a.utf8Length + s.utf8Length) (a ++ (s ++ b)) =
      some (runOf s : List (Run α)) := by
  have hs := length_le_utf8Length s
  by_cases hne : s = []
  · simp [plainRun, runOf, hne]
  · have := List.length_pos_iff.mpr hne
    rw [plainRun, if_pos (by omega), slice_append, runOf, if_neg hne, Option.map_some]

theorem cut_append {find : Text → Option (α × Nat)} (hf : Fits find) (hq : Quiet find s t)
    (ht : Stops find t) : Text.cut find (s ++ t) = runOf s ++ Text.cut find t := by
  by_cases hs : s = []
  · simp [runOf, hs]
  · rw [cut_append_of_quiet hf hq ht hs, runOf, if_neg hs, List.singleton_append]

/-- Where no word is found, the search steps to the next offset. -/
theorem cutFrom_of_not_standsAt (hi : i < t.utf8Length) (h : t.utf8Length < 2 ^ 64)
    (hnot : ∀ word ∈ words, standsAt (spelling word) t i = false) :
    cutFrom spelling words t (n + 1) start i = cutFrom spelling words t n start (i + 1) := by
  rw [cutFrom, if_neg (Nat.not_le_of_lt hi), wordAt_eq_none h hnot]
  simp only [Option.bind_eq_bind, Option.bind_some]
  rw [Unsigned.literal_eq, Unsigned.value?_ofNat_add (by omega), Option.bind_some]

/-- In a quiet text no word stands at an offset. -/
theorem standsAt_eq_false_of_quiet (hq : Quiet (Text.wordAt spelling words) s u)
    (hi : front.utf8Length ≤ i) (hs : i < front.utf8Length + s.utf8Length) {w : α}
    (hw : w ∈ words) : standsAt (spelling w) (front ++ (s ++ u)) i = false := by
  refine Bool.eq_false_iff.mpr fun hstands => ?_
  obtain ⟨a, b, hab, rfl, hb⟩ := standsAt_iff.mp hstands
  have hle : front.length ≤ a.length := Nat.le_of_not_lt fun hl =>
    Nat.not_lt_of_le hi ((length_lt_iff_of_append hab.symm).mp hl)
  obtain ⟨s₁, rfl⟩ := List.prefix_of_prefix_length_le ⟨_, rfl⟩ ⟨b, hab.symm⟩ hle
  rw [List.append_assoc, List.append_cancel_left_eq] at hab
  rw [utf8Length_append] at hs
  have hlt := (length_lt_iff_of_append hab.symm).mpr (Nat.lt_of_add_lt_add_left hs)
  obtain ⟨s₂, rfl⟩ := List.prefix_of_prefix_length_le ⟨b, hab.symm⟩ ⟨u, rfl⟩ hlt.le
  rw [List.append_assoc, List.append_cancel_left_eq] at hab
  have hne : s₂ ≠ [] := by
    rintro rfl
    simp at hlt
  have hn := wordAt_eq_none_iff.mp (hq s₁ s₂ rfl hne) w hw
  exact Bool.eq_false_iff.mp hn (hab ▸ hb)

/-- The search passes over a quiet text. -/
theorem cutFrom_of_quiet (hq : Quiet (Text.wordAt spelling words) s u)
    (h : (front ++ (s ++ u)).utf8Length < 2 ^ 64) {k : Nat} (hi : front.utf8Length ≤ i)
    (hk : i + k = front.utf8Length + s.utf8Length) :
    cutFrom spelling words (front ++ (s ++ u)) (k + n) start i =
      cutFrom spelling words (front ++ (s ++ u)) n start (front.utf8Length + s.utf8Length) := by
  induction k generalizing i with
  | zero => rw [Nat.zero_add, ← hk, Nat.add_zero]
  | succ k ih =>
    rw [Nat.add_right_comm, cutFrom_of_not_standsAt (by simp; omega) h
      fun _ => standsAt_eq_false_of_quiet hq hi (by omega), ih (by omega) (by omega)]

/-- At a word, the search gives the run before it and the word, and goes on behind it. -/
theorem cutFrom_of_found {found : α} {written rest : Text}
    (hf : words.find? (fun word => startsWith (spelling word) (written ++ rest)) = some found)
    (hlen : written.utf8Length = (spelling found).utf8Length) (hpos : 0 < written.utf8Length)
    (h : (front ++ (s ++ (written ++ rest))).utf8Length < 2 ^ 64) :
    cutFrom spelling words (front ++ (s ++ (written ++ rest))) (n + 1) front.utf8Length
        (front.utf8Length + s.utf8Length) =
      (cutFrom spelling words (front ++ (s ++ (written ++ rest))) n
        (front ++ (s ++ written)).utf8Length (front ++ (s ++ written)).utf8Length).map
          fun runs => runOf s ++ .word found written :: runs := by
  have hword : wordAt spelling words (front ++ (s ++ (written ++ rest)))
      (front.utf8Length + s.utf8Length) = some (some found) := by
    rw [← utf8Length_append, ← List.append_assoc, wordAt_append words (by simpa using h), hf]
  have hslice : slice (front.utf8Length + s.utf8Length)
      (front.utf8Length + s.utf8Length + (spelling found).utf8Length)
      (front ++ (s ++ (written ++ rest))) = some written := by
    rw [← hlen, ← utf8Length_append, ← List.append_assoc, slice_append]
  have hstop : (front ++ (s ++ written)).utf8Length =
      front.utf8Length + s.utf8Length + (spelling found).utf8Length := by
    simp [hlen, Nat.add_assoc]
  simp only [utf8Length_append] at h
  rw [cutFrom, if_neg (by simp; omega), hword, hstop]
  simp only [Option.bind_eq_bind, Option.bind_some, plainRun_append]
  rw [Unsigned.value?_ofNat_add (by omega)]
  simp only [Option.bind_some, hslice, Option.map_eq_bind, Function.comp_def, Option.pure_def]

/-- From the end of a quiet text on, the search gives the runs that are still to come. -/
theorem cutFrom_eq (hw : ∀ word ∈ words, spelling word ≠ [])
    (hu : Stops (Text.wordAt spelling words) u)
    (h : (front ++ (s ++ u)).utf8Length < 2 ^ 64) (hn : u.utf8Length < n) :
    cutFrom spelling words (front ++ (s ++ u)) n front.utf8Length
        (front.utf8Length + s.utf8Length) =
      some (runOf s ++ Text.cut (Text.wordAt spelling words) u) := by
  induction n using Nat.strongRecOn generalizing front s u with
  | ind n ih =>
    obtain ⟨n, rfl⟩ := Nat.exists_eq_add_one.mpr (Nat.zero_lt_of_lt hn)
    rcases hu with rfl | hu
    · have hend : (front ++ (s ++ [])).utf8Length = front.utf8Length + s.utf8Length := by simp
      rw [cutFrom, if_pos hend.le, hend, plainRun_append]
      simp
    · obtain ⟨⟨found, k⟩, hfound⟩ := Option.ne_none_iff_exists'.mp hu
      obtain ⟨hf, rfl⟩ := wordAt_eq_some_iff.mp hfound
      obtain ⟨hm, hs, -⟩ := mem_of_wordAt hfound
      have hlen := utf8Length_take_of_startsWith hs
      have hpos := (List.length_pos_iff.mpr (hw found hm)).trans_le (length_le_utf8Length _)
      have hcut := cut_of_some (fits_wordAt hw) hfound
      obtain ⟨s', u', hr, hq, hu'⟩ :=
        exists_quiet (Text.wordAt spelling words) (u.drop (spelling found).length)
      have hsplit := (List.take_append_drop (spelling found).length u).symm
      generalize u.take (spelling found).length = written at hlen hcut hsplit
      rw [hr, cut_append (fits_wordAt hw) hq hu'] at hcut
      rw [hr] at hsplit
      subst hsplit
      rw [hcut, cutFrom_of_found hf hlen (hlen ▸ hpos) h]
      have hassoc : front ++ (s ++ (written ++ (s' ++ u'))) =
          front ++ (s ++ written) ++ (s' ++ u') := by simp
      rw [hassoc] at h ⊢
      simp only [utf8Length_append] at hn
      -- the rounds that the quiet text takes, and those left behind it
      obtain ⟨m, rfl⟩ : ∃ m, n = s'.utf8Length + m := Nat.exists_eq_add_of_le (by omega)
      rw [cutFrom_of_quiet hq h le_rfl rfl, ih m (by omega) hu' h (by omega), Option.map_some]

theorem cut_eq (hw : ∀ word ∈ words, spelling word ≠ []) (h : t.utf8Length < 2 ^ 64) :
    cut spelling words t = some (Text.cut (Text.wordAt spelling words) t) := by
  obtain ⟨s, u, rfl, hq, hu⟩ := exists_quiet (Text.wordAt spelling words) t
  have h' : utf8Length ([] ++ (s ++ u)) < 2 ^ 64 := h
  rw [cut, utf8Length_append, cut_append (fits_wordAt hw) hq hu, Nat.add_assoc]
  exact (cutFrom_of_quiet hq h' (Nat.zero_le 0) rfl).trans
    (cutFrom_eq hw hu h' (Nat.lt_succ_self _))

/-- What stands for the runs of a text takes at most `k` times the bytes of the text. -/
theorem utf8Length_flatMap_cut_le {find : Text → Option (α × Nat)} {f : Run α → Text} {k : Nat}
    (h : ∀ run ∈ Text.cut find t, (f run).utf8Length ≤ k * run.written.utf8Length) :
    utf8Length ((Text.cut find t).flatMap f) ≤ k * t.utf8Length := by
  conv_rhs => rw [← flatMap_written_cut find t]
  generalize Text.cut find t = runs at h ⊢
  induction runs with
  | nil => exact Nat.zero_le _
  | cons run runs ih =>
    have hhead := h run List.mem_cons_self
    have htail := ih fun r hr => h r (List.mem_cons_of_mem _ hr)
    rw [List.flatMap_cons, List.flatMap_cons, utf8Length_append, utf8Length_append, Nat.mul_add]
    exact Nat.add_le_add hhead htail

theorem utf8Length_replace_nil_le (word t : Text) :
    (Text.replace word [] t).utf8Length ≤ t.utf8Length := by
  rw [Text.replace, ← Nat.one_mul t.utf8Length]
  refine utf8Length_flatMap_cut_le fun run _ => ?_
  cases run with
  | plain s => rw [Nat.one_mul]; exact Nat.le_refl _
  | word found written => exact Nat.zero_le _

end Cuts

section Sections

open FormatCode (Surround sectionFrom)

theorem sectionEnd?_eq (surround : Surround) (offset : Nat) (t : Text) :
    sectionEnd? surround offset t =
      if sectionFrom surround t = t then none
      else some (offset + (sectionFrom surround t).utf8Length) := by
  fun_induction sectionFrom surround t generalizing offset with
  | case1 => simp [sectionEnd?]
  | case2 surround c h => simp [sectionEnd?, h]
  | case3 surround c h d rest ih => simp [sectionEnd?, h, ih, Nat.add_assoc]
  | case4 surround c rest h hs =>
    unfold sectionEnd?
    simp [hs]
  | case5 surround c rest h hs ih =>
    unfold sectionEnd?
    simp [if_neg h, if_neg hs, ih, Nat.add_assoc]

theorem firstSection_eq (code : Text) :
    firstSection code = some (FormatCode.firstSection code) := by
  rw [firstSection, sectionEnd?_eq, ← FormatCode.firstSection]
  by_cases h : FormatCode.firstSection code = code
  · rw [if_pos h, h]
  · obtain ⟨rest, hr⟩ := FormatCode.firstSection_prefix_self code
    have hs := sliceTo_append (FormatCode.firstSection code) rest
    rw [hr] at hs
    simpa [if_neg h] using hs

theorem pieces_eq (code : Text) : pieces code = some (FormatCode.pieces code) := by
  rw [pieces, firstSection_eq, Option.map_some, FormatCode.pieces]

end Sections

end CellDisplay.Checked
