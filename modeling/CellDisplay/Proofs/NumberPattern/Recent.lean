import CellDisplay.NumberPattern.Recent
import Mathlib.Data.List.Dedup
import Mathlib.Data.List.Induction

/-! # What recently used patterns answer

A text that is asked for is answered as if it were read anew, in every map that makes room by
dropping what was used longest ago. What is kept is determined by the texts that were asked for: the
patterns among them, the latest ones first, as many as there is room for.
-/

namespace CellDisplay.NumberPattern

/-- The map keeps the given entries, the one used last first, and has room for so many of them: one
that is looked up comes first, and so does one that is put, before which the last may go. -/
structure PatternMap.IsLeastRecentlyUsed {σ : Type} (map : PatternMap σ)
    (kept : σ → List (Text × NumberPattern)) (size : ℕ) : Prop where
  kept_empty : kept map.empty = []
  get_of_lookup_none {state : σ} {text : Text} :
    (kept state).lookup text = none → map.get state text = (none, state)
  get_of_lookup_some {state : σ} {text : Text} {pattern : NumberPattern} :
    (kept state).lookup text = some pattern →
      ∃ moved, map.get state text = (some pattern, moved) ∧
        kept moved = toFront text pattern (kept state)
  kept_put (state : σ) (text : Text) (pattern : NumberPattern) :
    kept (map.put state text pattern) = (toFront text pattern (kept state)).take size

/-- What is kept after some texts were asked for, from nothing. -/
def PatternMap.after {σ : Type} (map : PatternMap σ) (texts : List Text) : σ :=
  texts.foldl (fun state text => (map.getOrParse state text).2) map.empty

def isPattern (text : Text) : Bool := (parse text).isOk

/-- The patterns among some texts, each of them once and the one asked for last first. -/
def latest (texts : List Text) : List Text := (texts.filter isPattern).dedup.reverse

/-- The latest patterns are kept with what is read of them, as many as there is room for. -/
structure Holds (size : ℕ) (entries : List (Text × NumberPattern)) (texts : List Text) : Prop where
  length_le : entries.length ≤ size
  nodup : (entries.map Prod.fst).Nodup
  keys_eq : entries.map Prod.fst = (latest texts).take size
  parsed : ∀ entry ∈ entries, parse entry.1 = .ok entry.2

section Lists

variable {α : Type} [DecidableEq α] {l : List α}

theorem dedup_concat (l : List α) (a : α) : (l ++ [a]).dedup = l.dedup.filter (· ≠ a) ++ [a] := by
  induction l with
  | nil => rfl
  | cons b l ih =>
    rw [List.cons_append]
    by_cases hl : b ∈ l
    · rw [List.dedup_cons_of_mem hl, List.dedup_cons_of_mem (List.mem_append_left _ hl), ih]
    · rw [List.dedup_cons_of_notMem hl]
      by_cases ha : b = a
      · subst ha
        rw [List.dedup_cons_of_mem (by simp), ih, List.filter_cons_of_neg (by simp)]
      · rw [List.dedup_cons_of_notMem (by simp [hl, ha]), ih, List.filter_cons_of_pos (by simpa)]
        rfl

/-- Where one element is dropped, one more of the others has to be looked at. -/
theorem take_filter_take (hl : l.Nodup) (a : α) (n : Nat) :
    ((l.take (n + 1)).filter (· ≠ a)).take n = (l.filter (· ≠ a)).take n := by
  induction l generalizing n with
  | nil => rfl
  | cons b l ih =>
    obtain ⟨hb, hl⟩ := List.nodup_cons.mp hl
    rw [List.take_succ_cons]
    by_cases ha : b = a
    · subst ha
      have hne (k : Nat) : (l.take k).filter (· ≠ b) = l.take k :=
        List.filter_eq_self.mpr fun c hc => by
          simpa using fun h : c = b => hb (h ▸ List.mem_of_mem_take hc)
      have hall := hne l.length
      rw [List.take_length] at hall
      rw [List.filter_cons_of_neg (by simp), List.filter_cons_of_neg (by simp), hne, hall,
        List.take_take, Nat.min_self]
    · rw [List.filter_cons_of_pos (by simpa), List.filter_cons_of_pos (by simpa)]
      cases n with
      | zero => rfl
      | succ n => rw [List.take_succ_cons, List.take_succ_cons, ih hl]

end Lists

section Latest

variable {texts : List Text} {text : Text}

theorem nodup_latest (texts : List Text) : (latest texts).Nodup :=
  List.nodup_reverse.mpr (List.nodup_dedup _)

theorem isPattern_of_parse {pattern : NumberPattern} (h : parse text = .ok pattern) :
    isPattern text = true := by
  simp [isPattern, h, Except.isOk, Except.toBool]

theorem isPattern_of_parse_error {fault : Fault} (h : parse text = .error fault) :
    isPattern text = false := by
  simp [isPattern, h, Except.isOk, Except.toBool]

/-- A pattern that is asked for becomes the latest one. -/
theorem latest_concat_of_isPattern (h : isPattern text) :
    latest (texts ++ [text]) = text :: (latest texts).filter (· ≠ text) := by
  have hfilter : (texts ++ [text]).filter isPattern = texts.filter isPattern ++ [text] := by
    simp [h]
  rw [latest, hfilter, dedup_concat, List.reverse_append, ← List.filter_reverse]
  rfl

theorem latest_concat_of_not_isPattern (h : isPattern text = false) :
    latest (texts ++ [text]) = latest texts := by
  simp [latest, h]

end Latest

section Entries

variable {entries : List (Text × NumberPattern)} {texts : List Text} {text : Text}
  {pattern : NumberPattern} {fault : Fault} {size : ℕ}

theorem keys_toFront :
    (toFront text pattern entries).map Prod.fst =
      text :: (entries.map Prod.fst).filter (· ≠ text) := by
  rw [toFront, List.map_cons, List.filter_map]
  rfl

theorem mem_of_lookup (h : entries.lookup text = some pattern) : (text, pattern) ∈ entries := by
  obtain ⟨before, rest, rfl, -⟩ := List.lookup_eq_some_iff.mp h
  exact List.mem_append_right _ List.mem_cons_self

/-- An entry that is kept already takes no more room in front. -/
theorem length_toFront_le (h : (text, pattern) ∈ entries) :
    (toFront text pattern entries).length ≤ entries.length := by
  have hlt : (entries.filter (·.1 ≠ text)).length < entries.length :=
    List.length_filter_lt_length_iff_exists.mpr ⟨(text, pattern), h, by simp⟩
  exact hlt

theorem holds_nil (size : ℕ) : Holds size [] [] where
  length_le := Nat.zero_le _
  nodup := List.nodup_nil
  keys_eq := List.take_nil.symm
  parsed := by simp

/-- A pattern that is asked for comes first, and the one asked for longest ago may go. -/
theorem Holds.put (h : Holds (size + 1) entries texts) (hparse : parse text = .ok pattern) :
    Holds (size + 1) ((toFront text pattern entries).take (size + 1)) (texts ++ [text]) := by
  have hkeys : ((toFront text pattern entries).take (size + 1)).map Prod.fst =
      (latest (texts ++ [text])).take (size + 1) := by
    rw [List.map_take, keys_toFront, h.keys_eq,
      latest_concat_of_isPattern (isPattern_of_parse hparse)]
    exact congrArg (text :: ·) (take_filter_take (nodup_latest texts) text size)
  constructor
  · exact List.length_take_le ..
  · rw [hkeys]
    exact (List.take_sublist ..).nodup (nodup_latest _)
  · exact hkeys
  · intro entry hentry
    rcases List.mem_cons.mp (List.mem_of_mem_take hentry) with rfl | hentry
    · exact hparse
    · exact h.parsed entry (List.mem_of_mem_filter hentry)

theorem Holds.concat_of_error (h : Holds size entries texts)
    (hparse : parse text = .error fault) : Holds size entries (texts ++ [text]) where
  length_le := h.length_le
  nodup := h.nodup
  keys_eq := by
    rw [latest_concat_of_not_isPattern (isPattern_of_parse_error hparse), h.keys_eq]
  parsed := h.parsed

end Entries

section Asked

variable {σ : Type} {map : PatternMap σ} {kept : σ → List (Text × NumberPattern)} {size : ℕ}
  {state moved : σ} {texts : List Text} {text : Text} {pattern : NumberPattern} {fault : Fault}

theorem getOrParse_of_some (h : map.get state text = (some pattern, moved)) :
    map.getOrParse state text = (.ok pattern, moved) := by
  rw [PatternMap.getOrParse, h]

theorem getOrParse_of_ok (h : map.get state text = (none, state))
    (hparse : parse text = .ok pattern) :
    map.getOrParse state text = (.ok pattern, map.put state text pattern) := by
  simp only [PatternMap.getOrParse, h, hparse]

theorem getOrParse_of_error (h : map.get state text = (none, state))
    (hparse : parse text = .error fault) : map.getOrParse state text = (.error fault, state) := by
  simp only [PatternMap.getOrParse, h, hparse]

/-- A text is answered as it is read. Only a pattern changes what is kept: it comes first. -/
structure Answers {σ : Type} (map : PatternMap σ) (kept : σ → List (Text × NumberPattern))
    (size : ℕ) (state : σ) (text : Text) : Prop where
  answer_eq : (map.getOrParse state text).1 = parse text
  kept_of_ok {pattern : NumberPattern} : parse text = .ok pattern →
    kept (map.getOrParse state text).2 = (toFront text pattern (kept state)).take size
  state_of_error {fault : Fault} : parse text = .error fault →
    (map.getOrParse state text).2 = state

/-- What is kept of a text is what is read of it, so that it does not matter for the answer whether
the text is kept. -/
theorem Holds.answers (hmap : map.IsLeastRecentlyUsed kept size)
    (h : Holds size (kept state) texts) (text : Text) : Answers map kept size state text := by
  cases hparse : parse text with
  | ok pattern =>
    suffices ∃ after, map.getOrParse state text = (.ok pattern, after) ∧
        kept after = (toFront text pattern (kept state)).take size by
      obtain ⟨after, hanswer, hkept⟩ := this
      constructor <;> simp [hanswer, hparse, hkept]
    cases hlookup : (kept state).lookup text with
    | none =>
      exact ⟨_, getOrParse_of_ok (hmap.get_of_lookup_none hlookup) hparse, hmap.kept_put ..⟩
    | some found =>
      have hmem := mem_of_lookup hlookup
      obtain rfl : pattern = found := Except.ok.inj (hparse.symm.trans (h.parsed _ hmem))
      obtain ⟨moved, hget, hkept⟩ := hmap.get_of_lookup_some hlookup
      have hroom := Nat.le_trans (length_toFront_le hmem) h.length_le
      exact ⟨moved, getOrParse_of_some hget, by rw [hkept, List.take_of_length_le hroom]⟩
  | error fault =>
    have hlookup : (kept state).lookup text = none := by
      rw [Option.eq_none_iff_forall_ne_some]
      intro found hfound
      have hfound := h.parsed _ (mem_of_lookup hfound)
      rw [hparse] at hfound
      cases hfound
    have hanswer := getOrParse_of_error (hmap.get_of_lookup_none hlookup) hparse
    constructor <;> simp [hanswer, hparse]

theorem Holds.getOrParse (hmap : map.IsLeastRecentlyUsed kept (size + 1))
    (h : Holds (size + 1) (kept state) texts) (text : Text) :
    Holds (size + 1) (kept (map.getOrParse state text).2) (texts ++ [text]) := by
  have hanswers := h.answers hmap text
  cases hparse : parse text with
  | ok pattern =>
    rw [hanswers.kept_of_ok hparse]
    exact h.put hparse
  | error fault =>
    rw [hanswers.state_of_error hparse]
    exact h.concat_of_error hparse

theorem holds_after (hmap : map.IsLeastRecentlyUsed kept (size + 1)) (texts : List Text) :
    Holds (size + 1) (kept (map.after texts)) texts := by
  induction texts using List.reverseRecOn with
  | nil =>
    rw [PatternMap.after, List.foldl_nil, hmap.kept_empty]
    exact holds_nil _
  | append_singleton texts text ih =>
    rw [PatternMap.after, List.foldl_concat]
    exact ih.getOrParse hmap text

end Asked

namespace Recent

theorem isLeastRecentlyUsed_map : map.IsLeastRecentlyUsed entries capacity where
  kept_empty := rfl
  get_of_lookup_none h := by simp only [map, get, h]
  get_of_lookup_some {state text pattern} h :=
    ⟨⟨toFront text pattern state.entries⟩, by simp only [map, get, h], rfl⟩
  kept_put _ _ _ := rfl

end Recent

/-- In a map that drops what was used longest ago, the latest patterns among any texts are kept
after them, and the next text is answered as it is read. Only a pattern changes what is kept: it
comes first. -/
theorem PatternMap.getOrParse_after {σ : Type} {map : PatternMap σ}
    {kept : σ → List (Text × NumberPattern)}
    (hmap : map.IsLeastRecentlyUsed kept Recent.capacity) (texts : List Text) (text : Text) :
    Holds Recent.capacity (kept (map.after texts)) texts ∧
      Answers map kept Recent.capacity (map.after texts) text :=
  have h := holds_after hmap texts
  ⟨h, h.answers hmap text⟩

/-- A pattern that is asked for again comes first, and what is no pattern is not kept. -/
theorem PatternMap.getOrParse_after_recent :
    Recent.map.IsLeastRecentlyUsed Recent.entries Recent.capacity ∧
      Answers Recent.map Recent.entries Recent.capacity
        (Recent.map.after ["0".toList, "x".toList, "#,##0".toList, "0".toList]) "x".toList ∧
      (Recent.map.after ["0".toList, "x".toList, "#,##0".toList, "0".toList]).entries.map
        Prod.fst = ["0".toList, "#,##0".toList] := by
  obtain ⟨-, hanswers⟩ := getOrParse_after Recent.isLeastRecentlyUsed_map
    ["0".toList, "x".toList, "#,##0".toList, "0".toList] "x".toList
  exact ⟨Recent.isLeastRecentlyUsed_map, hanswers, by decide +kernel⟩

namespace Recent

/-- The next text is answered as it is read, and only a pattern changes what is kept. -/
theorem getOrParse_after_empty (texts : List Text) (text : Text) :
    Holds capacity (map.after texts).entries texts ∧
      (map.after texts).getOrParse text =
        (parse text,
          match parse text with
          | .ok pattern => (map.after texts).put text pattern
          | .error _ => map.after texts) := by
  have h := holds_after isLeastRecentlyUsed_map texts
  have hanswers := h.answers isLeastRecentlyUsed_map text
  refine ⟨h, Prod.ext hanswers.answer_eq ?_⟩
  change (map.getOrParse (map.after texts) text).2 = _
  split
  · rename_i pattern hparse
    exact congrArg Recent.mk (hanswers.kept_of_ok hparse)
  · rename_i fault hparse
    exact hanswers.state_of_error hparse

end Recent

end CellDisplay.NumberPattern
