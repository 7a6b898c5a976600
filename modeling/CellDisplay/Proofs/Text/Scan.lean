import CellDisplay.Proofs.Text.Cut
import Mathlib.Data.List.Chain
import Mathlib.Data.List.MinMax

/-! # One scan for several cuts

Cutting a text at some words and what is left of it at other words finds the same words as one
scan for all of them, if no word of the later list can cover the start of an earlier one. The
first listed word at a place is the longest one if longer words are listed before their
beginnings.
-/

namespace CellDisplay.Text

variable {α : Type}

/-- Reads a text once from the left. A word that `find` sees is replaced by its value, and any
other character is kept. -/
def scan (find : Text → Option (α × Nat)) (value : α → Text) (t : Text) : Text :=
  match t with
  | [] => []
  | c :: rest =>
    match find (c :: rest) with
    | some (found, n + 1) => value found ++ scan find value (rest.drop n)
    | _ => c :: scan find value rest
termination_by t.length

/-- The longest of the listed words whose spelling the text starts with, and its length. -/
def longestAt (spelling : α → Text) (words : List α) (t : Text) : Option (α × Nat) :=
  ((words.filter fun word => startsWith (spelling word) t).argmax
    fun word => (spelling word).length).map fun word => (word, (spelling word).length)

/-- Cuts a text at the words of the first list, what is left of it at those of the second, and so
on, and replaces each word by its value. -/
def staged (spelling : α → Text) (value : α → Text) : List (List α) → Text → Text
  | [], t => t
  | words :: stages, t =>
    (cut (wordAt spelling words) t).flatMap fun
      | .plain s => staged spelling value stages s
      | .word found _ => value found

section Scan

variable {find : Text → Option (α × Nat)} {value : α → Text} {found : α} {n : Nat} {c : Char}
  {t : Text}

@[simp] theorem scan_nil : scan find value [] = [] := by rw [scan]

theorem scan_of_some (hf : Fits find) (h : find t = some (found, n)) :
    scan find value t = value found ++ scan find value (t.drop n) := by
  obtain ⟨hn, hl⟩ := hf t found n h
  cases t with
  | nil => simp at hl; omega
  | cons c rest =>
    obtain ⟨m, rfl⟩ : ∃ m, n = m + 1 := ⟨n - 1, by omega⟩
    rw [scan, h]
    simp

theorem scan_of_none (h : find (c :: t) = none) :
    scan find value (c :: t) = c :: scan find value t := by
  rw [scan, h]

/-- A scan cuts the text at its words and replaces each one. -/
theorem scan_eq_flatMap_cut (find : Text → Option (α × Nat)) (value : α → Text) (t : Text) :
    scan find value t = (cut find t).flatMap fun
      | .plain s => s
      | .word found _ => value found := by
  fun_induction cut find t with
  | case1 => simp
  | case2 c rest found n h ih =>
    rw [scan, h, List.flatMap_cons, ← ih]
  | case3 c rest h ih =>
    have hscan : scan find value (c :: rest) = c :: scan find value rest := by
      rw [scan]
      split
      · rename_i found n hf
        exact absurd hf (h found n)
      · rfl
    rw [hscan, ih]
    cases cut find rest with
    | nil => rfl
    | cons run runs => cases run <;> rfl

theorem scan_of_forall_none (h : ∀ t, find t = none) (t : Text) : scan find value t = t := by
  induction t with
  | nil => exact scan_nil
  | cons c t ih => rw [scan_of_none (h _), ih]

end Scan

section Longest

variable {spelling : α → Text} {words : List α}

/-- No listed word is the beginning of one that is listed behind it. -/
def LongerFirst (spelling : α → Text) (words : List α) : Prop :=
  words.Pairwise fun a b => ¬ lower (spelling a) <+: lower (spelling b)

instance [DecidableEq α] : Decidable (LongerFirst spelling words) :=
  inferInstanceAs (Decidable (List.Pairwise _ _))

theorem length_le_of_not_prefix {a b t : Text} (ha : startsWith a t) (hb : startsWith b t)
    (h : ¬ lower a <+: lower b) : b.length ≤ a.length := by
  by_contra hl
  exact h (List.prefix_of_prefix_length_le (startsWith_iff.mp ha) (startsWith_iff.mp hb)
    (by simp; omega))

theorem argmax_filter_eq_find? (h : LongerFirst spelling words) (t : Text) :
    (words.filter fun word => startsWith (spelling word) t).argmax
        (fun word => (spelling word).length) =
      words.find? fun word => startsWith (spelling word) t := by
  induction words with
  | nil => rfl
  | cons a words ih =>
    obtain ⟨ha, hw⟩ := List.pairwise_cons.mp h
    by_cases hs : startsWith (spelling a) t
    · rw [List.filter_cons_of_pos (by simpa using hs), List.find?_cons_of_pos (by simpa using hs),
        List.argmax_cons]
      cases hm : List.argmax (fun word => (spelling word).length)
          (words.filter fun word => startsWith (spelling word) t) with
      | none => rfl
      | some b =>
        obtain ⟨hb, hbs⟩ := List.mem_filter.mp (List.argmax_mem hm)
        have hl := length_le_of_not_prefix hs hbs (ha b hb)
        exact if_neg (by omega)
    · rw [List.filter_cons_of_neg (by simpa using hs), List.find?_cons_of_neg (by simpa using hs),
        ih hw]

/-- If longer words are listed first, the first listed word at a place is the longest one. -/
theorem longestAt_eq_wordAt (h : LongerFirst spelling words) :
    longestAt spelling words = wordAt spelling words := by
  funext t
  rw [longestAt, argmax_filter_eq_find? h, wordAt]

end Longest

section Stages

variable {spelling : α → Text} {value : α → Text} {words first rest : List α} {found : α}
  {n : Nat} {s t : Text}

theorem wordAt_of_append (h : wordAt spelling words (s ++ t) = some (found, n))
    (hn : n ≤ s.length) : wordAt spelling words s = some (found, n) := by
  obtain ⟨hf, rfl⟩ := wordAt_eq_some_iff.mp h
  obtain ⟨hs, before, after, rfl, hb⟩ := List.find?_eq_some_iff_append.mp hf
  have hbefore : ∀ word ∈ before, !startsWith (spelling word) s := by
    intro word hw
    simpa using startsWith_eq_false_of_append (by simpa using hb word hw)
  exact wordAt_eq_some_iff.mpr ⟨List.find?_eq_some_iff_append.mpr
    ⟨startsWith_of_append hs hn, before, after, rfl, hbefore⟩, rfl⟩

theorem wordAt_of_append_none (h : wordAt spelling words (s ++ t) = none) :
    wordAt spelling words s = none := by
  rw [wordAt_eq_none_iff] at h ⊢
  intro word hw
  exact startsWith_eq_false_of_append (h word hw)

/-- Where a word of the second list covers the start of one of the first list, another word of
the first list is found before it. -/
def Shields (spelling : α → Text) (first rest : List α) : Prop :=
  ∀ b ∈ rest, ∀ i < (spelling b).length, 0 < i → ∀ a ∈ first,
    lower ((spelling b).drop i) <+: lower (spelling a) ∨
        lower (spelling a) <+: lower ((spelling b).drop i) →
      ∃ a' ∈ first, lower (spelling a') <+: lower ((spelling b).take i ++ spelling a)

instance [DecidableEq α] : Decidable (Shields spelling first rest) :=
  inferInstanceAs (Decidable (∀ b ∈ rest, _))

/-- In a plain run, a shielded word does not reach into the word that follows. -/
theorem length_le_of_shields (hs : Shields spelling first rest)
    (hq : Quiet (wordAt spelling first) s t) (ht : Stops (wordAt spelling first) t)
    (hne : s ≠ []) (hf : wordAt spelling rest (s ++ t) = some (found, n)) : n ≤ s.length := by
  obtain ⟨hb, hbs, rfl⟩ := mem_of_wordAt hf
  by_contra hl
  have hbl := length_le_of_startsWith hbs
  rcases ht with rfl | ht
  · simp at hbl
    omega
  · obtain ⟨⟨a, k⟩, ha⟩ := Option.ne_none_iff_exists'.mp ht
    obtain ⟨ham, has, -⟩ := mem_of_wordAt ha
    rw [startsWith_iff, lower_append] at hbs
    have htake : lower ((spelling found).take s.length) = lower s := by
      refine List.IsPrefix.eq_of_length ?_ (by simp; omega)
      simpa [lower_take] using hbs.take s.length
    have hdrop : lower ((spelling found).drop s.length) <+: lower t := by
      simpa [lower_drop] using hbs.drop s.length
    obtain ⟨a', ha', hp⟩ := hs found hb s.length (by omega) (List.length_pos_iff.mpr hne) a ham
      (List.prefix_or_prefix_of_prefix hdrop (startsWith_iff.mp has))
    have hyes : startsWith (spelling a') (s ++ t) := by
      rw [startsWith_iff, lower_append]
      refine hp.trans ?_
      rw [lower_append, htake]
      exact (List.prefix_append_right_inj _).mpr (startsWith_iff.mp has)
    exact Bool.eq_false_iff.mp (wordAt_eq_none_iff.mp (hq.head hne) a' ha') hyes

/-- Before a word of the first list, one scan for both lists finds the words of the second. -/
theorem scan_append (hw : ∀ word ∈ first ++ rest, spelling word ≠ [])
    (hs : Shields spelling first rest) (hq : Quiet (wordAt spelling first) s t)
    (ht : Stops (wordAt spelling first) t) :
    scan (wordAt spelling (first ++ rest)) value (s ++ t) =
      scan (wordAt spelling rest) value s ++ scan (wordAt spelling (first ++ rest)) value t := by
  have hfit := fits_wordAt hw
  have hfit' : Fits (wordAt spelling rest) :=
    fits_wordAt fun word h => hw word (List.mem_append_right _ h)
  induction h : s.length using Nat.strongRecOn generalizing s with
  | ind k ih =>
    cases s with
    | nil => simp
    | cons c s =>
      have hrest : wordAt spelling (first ++ rest) (c :: s ++ t) =
          wordAt spelling rest (c :: s ++ t) := by
        rw [wordAt_append, hq.head (by simp), Option.none_or]
      cases hf : wordAt spelling rest (c :: s ++ t) with
      | none =>
        rw [hf] at hrest
        rw [List.cons_append] at hrest ⊢
        rw [scan_of_none hrest, scan_of_none (wordAt_of_append_none hf),
          ih s.length (by simp at h; omega) hq.tail rfl, List.cons_append]
      | some word =>
        obtain ⟨found, n⟩ := word
        have hn := length_le_of_shields hs hq ht (by simp) hf
        have hf' := wordAt_of_append hf hn
        have hpos := (hfit' _ _ _ hf').1
        rw [hf] at hrest
        rw [scan_of_some hfit hrest, scan_of_some hfit' hf', List.drop_append_of_le_length hn,
          ih _ (by simp at h ⊢; omega) (hq.drop n) rfl, List.append_assoc]

/-- Cutting at shielding words and scanning what is left is one scan. -/
theorem flatMap_cut_eq_scan (hw : ∀ word ∈ first ++ rest, spelling word ≠ [])
    (hs : Shields spelling first rest) (t : Text) :
    ((cut (wordAt spelling first) t).flatMap fun
      | .plain s => scan (wordAt spelling rest) value s
      | .word found _ => value found) =
      scan (wordAt spelling (first ++ rest)) value t := by
  have hf : Fits (wordAt spelling first) :=
    fits_wordAt fun word h => hw word (List.mem_append_left _ h)
  induction t using cut_induction hf with
  | nil => simp
  | word t found n hn ih =>
    have hn' : wordAt spelling (first ++ rest) t = some (found, n) := by
      rw [wordAt_append, hn, Option.some_or]
    rw [cut_of_some hf hn, List.flatMap_cons, ih, scan_of_some (fits_wordAt hw) hn']
  | plain s t hne hq ht ih =>
    rw [cut_append_of_quiet hf hq ht hne, List.flatMap_cons, ih, scan_append hw hs hq ht]

/-- Stages of which each shields those behind it find the words of one scan. -/
theorem staged_eq_scan {stages : List (List α)}
    (hw : ∀ word ∈ stages.flatten, spelling word ≠ [])
    (hs : stages.Pairwise (Shields spelling)) (t : Text) :
    staged spelling value stages t = scan (wordAt spelling stages.flatten) value t := by
  induction stages generalizing t with
  | nil => exact (scan_of_forall_none (fun _ => rfl) t).symm
  | cons words stages ih =>
    rw [List.flatten_cons] at hw ⊢
    obtain ⟨hfirst, hrest⟩ := List.pairwise_cons.mp hs
    have hshields : Shields spelling words stages.flatten := by
      intro b hb
      obtain ⟨rest, hr, hbr⟩ := List.mem_flatten.mp hb
      exact hfirst rest hr b hbr
    have hstaged : staged spelling value stages =
        scan (wordAt spelling stages.flatten) value :=
      funext fun s => ih (fun word h => hw word (List.mem_append_right _ h)) hrest s
    rw [staged, hstaged]
    exact flatMap_cut_eq_scan hw hshields t

theorem staged_cons_congr {after after' : List (List α)} {t : Text}
    (h : ∀ s, .plain s ∈ cut (wordAt spelling words) t →
      staged spelling value after s = staged spelling value after' s) :
    staged spelling value (words :: after) t = staged spelling value (words :: after') t := by
  rw [staged, staged]
  refine List.flatMap_congr fun run hrun => ?_
  cases run with
  | plain s => exact h s hrun
  | word found written => rfl

theorem staged_of_not_contains {before after : List (List α)}
    (hw : ∀ word ∈ words, spelling word ≠ []) {t : Text}
    (h : ∀ word ∈ words, contains (spelling word) t = false)
    (hb : ∀ stage ∈ before, ∀ word ∈ stage, spelling word ≠ []) :
    staged spelling value (before ++ words :: after) t =
      staged spelling value (before ++ after) t := by
  induction before generalizing t with
  | nil =>
    by_cases ht : t = []
    · subst ht
      cases after <;> simp [staged]
    · simp [staged, cut_of_not_contains hw h ht]
  | cons stage before ih =>
    refine staged_cons_congr fun s hs => ?_
    have hinfix := plain_isInfix (fits_wordAt (hb stage (by simp))) hs
    exact ih (fun word hm => contains_eq_false_of_isInfix hinfix (h word hm))
      fun stage' hstage => hb stage' (by simp [hstage])

/-- A stage finds nothing if each of its words holds a word of a stage before it. -/
theorem staged_drop_stage {before between after : List (List α)} {dead : List α}
    (hw : ∀ stage ∈ before ++ words :: (between ++ [dead]), ∀ word ∈ stage, spelling word ≠ [])
    (h : ∀ word ∈ dead, ∃ part ∈ words, spelling part <:+: spelling word) (t : Text) :
    staged spelling value (before ++ words :: (between ++ dead :: after)) t =
      staged spelling value (before ++ words :: (between ++ after)) t := by
  induction before generalizing t with
  | nil =>
    have hwords : ∀ word ∈ words, spelling word ≠ [] := hw words (by simp)
    refine staged_cons_congr fun s hs => ?_
    refine staged_of_not_contains (hw dead (by simp)) (fun word hm => ?_)
      fun stage hstage => hw stage (by simp [hstage])
    obtain ⟨part, hp, hinfix⟩ := h word hm
    have hno := not_contains_of_plain_mem_cut hwords hs hp
    exact Bool.eq_false_iff.mpr fun hc =>
      Bool.eq_false_iff.mp hno (contains_of_word_isInfix (hwords part hp) hinfix hc)
  | cons stage before ih =>
    have hrest := ih fun stage' hs => hw stage' (by simp at hs ⊢; tauto)
    exact staged_cons_congr fun s _ => hrest s

end Stages

section Boundary

variable {spelling : α → Text} {value : α → Text} {words : List α} {R : Char → Char → Prop}
  {found : α} {n : Nat} {s t : Text}

/-- Any two characters next to each other in a listed word are related, but the last one of the
first text and the first one of the second text are not. -/
structure Apart (spelling : α → Text) (words : List α) (R : Char → Char → Prop) (s t : Text) :
    Prop where
  related : ∀ word ∈ words, (lower (spelling word)).IsChain R
  unrelated : ∀ c ∈ s.getLast?, ∀ d ∈ t.head?, ¬ R c.toLower d.toLower

/-- No word covers the boundary of two texts that are apart. -/
theorem length_le_of_apart (h : Apart spelling words R s t) (hs : s ≠ [])
    (hf : wordAt spelling words (s ++ t) = some (found, n)) : n ≤ s.length := by
  obtain ⟨hmem, hstarts, rfl⟩ := mem_of_wordAt hf
  by_contra hlt
  obtain ⟨front, c, rfl⟩ := (List.eq_nil_or_concat' s).resolve_left hs
  cases t with
  | nil =>
    have := length_le_of_startsWith hstarts
    simp only [List.append_nil] at this
    omega
  | cons d t =>
    rw [startsWith_iff] at hstarts
    have htext : lower (front ++ [c] ++ d :: t) =
        lower front ++ c.toLower :: d.toLower :: lower t := by
      simp [lower]
    have hboundary : lower front ++ [c.toLower, d.toLower] <+: lower (spelling found) := by
      refine List.prefix_of_prefix_length_le ⟨lower t, ?_⟩ hstarts ?_
      · rw [htext, List.append_assoc]
        rfl
      · simp only [List.length_append, List.length_cons, List.length_nil, length_lower] at hlt ⊢
        omega
    obtain ⟨behind, hbehind⟩ := hboundary
    have hchain := h.related found hmem
    rw [← hbehind, List.append_assoc] at hchain
    obtain ⟨-, hrelated, -⟩ := List.isChain_append_cons_cons.mp hchain
    exact h.unrelated c (by simp) d (by simp) hrelated

/-- Two texts that are apart are scanned one after the other. -/
theorem scan_append_of_apart (hw : ∀ word ∈ words, spelling word ≠ [])
    (h : Apart spelling words R s t) :
    scan (wordAt spelling words) value (s ++ t) =
      scan (wordAt spelling words) value s ++ scan (wordAt spelling words) value t := by
  have hfit := fits_wordAt hw
  induction hn : s.length using Nat.strongRecOn generalizing s with
  | ind k ih =>
    cases s with
    | nil => simp
    | cons c s =>
      -- What is left of the first text ends as it does, and so is apart from the second as well.
      have hrest (m : Nat) (hm : 0 < m) :
          scan (wordAt spelling words) value ((c :: s).drop m ++ t) =
            scan (wordAt spelling words) value ((c :: s).drop m) ++
              scan (wordAt spelling words) value t := by
        refine ih _ (by simp at hn ⊢; omega) ⟨h.related, ?_⟩ rfl
        intro d hd
        rw [List.getLast?_drop] at hd
        split at hd
        · cases hd
        · exact h.unrelated d hd
      cases hf : wordAt spelling words (c :: s ++ t) with
      | none =>
        have hnone := wordAt_of_append_none hf
        rw [List.cons_append] at hf ⊢
        rw [scan_of_none hf, scan_of_none hnone, List.cons_append]
        exact congrArg (c :: ·) (hrest 1 Nat.one_pos)
      | some word =>
        obtain ⟨found, n⟩ := word
        -- A word found at the front lies within the first text.
        have hle := length_le_of_apart h (List.cons_ne_nil c s) hf
        have hsome := wordAt_of_append hf hle
        rw [scan_of_some hfit hf, scan_of_some hfit hsome, List.drop_append_of_le_length hle,
          hrest n (hfit _ _ _ hsome).1, List.append_assoc]

end Boundary

end CellDisplay.Text
