import CellDisplay.NumberPattern.Token
import Mathlib.Data.List.TakeWhile

/-! # What the tokens of a pattern spell

A quoted run spells its characters one by one, and every other token spells itself. The
spelling of a pattern is computed from its characters by what an apostrophe does outside a
run, inside one, and behind one that may have been closed.
-/

namespace CellDisplay.NumberPattern

/-- A token with quoted text taken apart into literal characters. -/
def Token.spelled : Token → List Token
  | quoted text => text.map literal
  | token => [token]

/-- The tokens with quoted text taken apart, unless a run is not closed. -/
def Tokens.spelled? : Tokens → Option (List Token)
  | finished _ => some []
  | unclosed _ => none
  | next token _ rest => rest.spelled?.map (token.spelled ++ ·)

def spelling (t : Text) : Option (List Token) := (tokensFrom 0 t).spelled?

/-- The spelling of a text that starts inside a quoted run. -/
def runSpelling (t : Text) : Option (List Token) :=
  (closeRun t).bind fun (text, after) => (spelling after).map (text.map .literal ++ ·)

/-- The spelling of a text behind an apostrophe that closes a run, unless the text goes on with
an apostrophe of its own. -/
def tailSpelling (t : Text) : Option (List Token) := runSpelling (apostrophe :: t)

variable {c : Char} {t : Text}

@[simp] theorem Token.ofChar_apostrophe : Token.ofChar apostrophe = .literal apostrophe := rfl

@[simp] theorem Token.spelled_ofChar (c : Char) : (Token.ofChar c).spelled = [Token.ofChar c] := by
  unfold Token.ofChar
  split <;> rfl

theorem spelled?_tokensFrom (start : Nat) (t : Text) :
    (tokensFrom start t).spelled? = spelling t := by
  induction h : t.length using Nat.strongRecOn generalizing start t with
  | ind n ih =>
    unfold spelling
    rw [tokensFrom, tokensFrom.eq_def 0]
    cases step t with
    | finished => rfl
    | unclosed => rfl
    | token token rest shorter =>
      simp only [Tokens.spelled?]
      rw [ih _ (h ▸ shorter) _ rest rfl, ih _ (h ▸ shorter) _ rest rfl]

theorem spelling_of_step {token : Token} {rest : Text} {shorter : rest.length < t.length}
    (h : step t = .token token rest shorter) :
    spelling t = (spelling rest).map (token.spelled ++ ·) := by
  rw [spelling, tokensFrom, h]
  simp only [Tokens.spelled?, spelled?_tokensFrom]

@[simp] theorem spelling_nil : spelling [] = some [] := by
  rw [spelling, tokensFrom, step]
  rfl

theorem spelling_cons (h : c ≠ apostrophe) :
    spelling (c :: t) = (spelling t).map (.ofChar c :: ·) := by
  have hs : step (c :: t) = .token (.ofChar c) t (Nat.lt_succ_self _) := by simp [step, h]
  simpa using spelling_of_step hs

@[simp] theorem spelling_pair :
    spelling (apostrophe :: apostrophe :: t) = (spelling t).map (.literal apostrophe :: ·) := by
  have hs : step (apostrophe :: apostrophe :: t) =
      .token (.literal apostrophe) t (Nat.lt_succ_of_lt (Nat.lt_succ_self _)) := by
    simp [step]
  simpa [Token.spelled] using spelling_of_step hs

/-- An apostrophe that does not come in a pair opens a run. -/
theorem spelling_open (h : t.head? ≠ some apostrophe) :
    spelling (apostrophe :: t) = runSpelling t := by
  cases t with
  | nil =>
    rw [spelling, tokensFrom, step]
    rfl
  | cons d after =>
    have hd : d ≠ apostrophe := by simpa using h
    rw [spelling, tokensFrom, runSpelling]
    simp only [step, if_true, if_neg hd]
    split <;> rename_i hs
    · split at hs <;> simp at hs
    · split at hs
      · rename_i hc
        simp [hc, Tokens.spelled?]
      · simp at hs
    · split at hs
      · simp at hs
      · rename_i text rest hc
        injection hs with ht hr
        subst ht hr
        simp [hc, Tokens.spelled?, spelled?_tokensFrom, Token.spelled]

theorem closeRun_cons (h : c ≠ apostrophe) :
    closeRun (c :: t) = (closeRun t).map fun (text, after) => (c :: text, after) := by
  cases t with
  | nil => simp [closeRun, h]
  | cons d t => rw [closeRun, if_neg h]

theorem closeRun_pair :
    closeRun (apostrophe :: apostrophe :: t) =
      (closeRun t).map fun (text, after) => (apostrophe :: text, after) := by
  rw [closeRun, if_pos rfl, if_pos rfl]

theorem closeRun_close (h : t.head? ≠ some apostrophe) :
    closeRun (apostrophe :: t) = some ([], t) := by
  cases t with
  | nil => simp [closeRun]
  | cons d t =>
    have hd : d ≠ apostrophe := by simpa using h
    rw [closeRun, if_pos rfl, if_neg hd]

theorem runSpelling_cons (h : c ≠ apostrophe) :
    runSpelling (c :: t) = (runSpelling t).map (.literal c :: ·) := by
  rw [runSpelling, runSpelling, closeRun_cons h]
  cases closeRun t <;> simp [Function.comp_def]

@[simp] theorem runSpelling_pair :
    runSpelling (apostrophe :: apostrophe :: t) =
      (runSpelling t).map (.literal apostrophe :: ·) := by
  rw [runSpelling, runSpelling, closeRun_pair]
  cases closeRun t <;> simp [Function.comp_def]

/-- An apostrophe in a run closes it if no other one follows. -/
theorem tailSpelling_of_head (h : t.head? ≠ some apostrophe) : tailSpelling t = spelling t := by
  rw [tailSpelling, runSpelling, closeRun_close h]
  simp

@[simp] theorem tailSpelling_nil : tailSpelling [] = some [] := by
  rw [tailSpelling_of_head (by simp), spelling_nil]

/-- An apostrophe behind that of a run takes it for its own pair, and the run goes on. -/
@[simp] theorem tailSpelling_apostrophe :
    tailSpelling (apostrophe :: t) = (runSpelling t).map (.literal apostrophe :: ·) :=
  runSpelling_pair

/-- The text has apostrophes only, so that quoting it opens no run. -/
def isBare (t : Text) : Bool := t.all (· = apostrophe)

/-- The spelling of a text that stands outside a run, or behind an apostrophe that closes one. -/
def spellingAt (behind : Bool) (t : Text) : Option (List Token) :=
  if behind then tailSpelling t else spelling t

@[simp] theorem spellingAt_nil (behind : Bool) : spellingAt behind [] = some [] := by
  cases behind <;> simp [spellingAt]

@[simp] theorem doubled_nil : doubled [] = [] := rfl

@[simp] theorem doubled_cons_apostrophe (t : Text) :
    doubled (apostrophe :: t) = apostrophe :: apostrophe :: doubled t := rfl

theorem doubled_cons (h : c ≠ apostrophe) (t : Text) : doubled (c :: t) = c :: doubled t := by
  simp [doubled, h]

theorem spelling_doubled (s t : Text) :
    spelling (doubled s ++ t) = (spelling t).map (s.map .ofChar ++ ·) := by
  induction s with
  | nil => simp
  | cons c s ih =>
    by_cases h : c = apostrophe
    · subst h
      simp [ih, Function.comp_def]
    · simp [doubled_cons h, spelling_cons h, ih, Function.comp_def]

theorem runSpelling_doubled (s t : Text) :
    runSpelling (doubled s ++ t) = (runSpelling t).map (s.map .literal ++ ·) := by
  induction s with
  | nil => simp
  | cons c s ih =>
    by_cases h : c = apostrophe
    · subst h
      simp [ih, Function.comp_def]
    · simp [doubled_cons h, runSpelling_cons h, ih, Function.comp_def]

/-- Behind a run a doubled text spells the same as outside; while it has apostrophes only, what
follows still stands behind the run. -/
theorem tailSpelling_doubled (s t : Text) :
    tailSpelling (doubled s ++ t) =
      (spellingAt (isBare s) t).map (s.map .ofChar ++ ·) := by
  induction s with
  | nil => simp [isBare, spellingAt]
  | cons c s ih =>
    by_cases h : c = apostrophe
    · subst h
      have hb : isBare (apostrophe :: s) = isBare s := by simp [isBare]
      simp only [doubled_cons_apostrophe, List.cons_append, tailSpelling_apostrophe, hb]
      change (tailSpelling (doubled s ++ t)).map _ = _
      simp [ih, Function.comp_def]
    · have hb : isBare (c :: s) = false := by simp [isBare, h]
      rw [doubled_cons h, List.cons_append, tailSpelling_of_head (by simpa using h), hb,
        spelling_cons h, spelling_doubled]
      simp [Function.comp_def, spellingAt]

theorem spellingAt_doubled (behind : Bool) (s t : Text) :
    spellingAt behind (doubled s ++ t) =
      (spellingAt (behind && isBare s) t).map (s.map .ofChar ++ ·) := by
  cases behind with
  | false => exact spelling_doubled s t
  | true => exact tailSpelling_doubled s t

theorem map_ofChar_of_isBare {s : Text} (h : isBare s) : s.map Token.ofChar = s.map .literal := by
  apply List.map_congr_left
  intro c hc
  obtain rfl : c = apostrophe := by simpa using List.all_eq_true.mp h c hc
  rfl

theorem map_literal_append_of_isBare {s : Text} (h : isBare s) (u : List Token) :
    s.map .literal ++ .literal apostrophe :: u = .literal apostrophe :: (s.map .literal ++ u) := by
  have hs : s = List.replicate s.length apostrophe :=
    List.eq_replicate_of_mem fun c hc => by simpa using List.all_eq_true.mp h c hc
  rw [hs, List.map_replicate, List.append_cons, ← List.replicate_succ', List.replicate_succ,
    List.cons_append]

theorem quote_of_isBare {s : Text} (h : isBare s) : quote s = doubled s := by
  have ht : s.takeWhile (· = apostrophe) = s := by
    rw [List.takeWhile_eq_self_iff]
    exact fun c hc => List.all_eq_true.mp h c hc
  have hd : s.dropWhile (· = apostrophe) = [] := by
    rw [List.dropWhile_eq_nil_iff]
    exact fun c hc => List.all_eq_true.mp h c hc
  rw [quote, ht, hd, List.append_nil]

/-- A text that is not bare is quoted as apostrophes and a run that opens with another
character. -/
theorem exists_run_of_not_isBare {s : Text} (h : isBare s = false) :
    ∃ bare c rest, isBare bare = true ∧ c ≠ apostrophe ∧ s = bare ++ c :: rest ∧
      quote s = doubled bare ++ apostrophe :: (doubled (c :: rest) ++ [apostrophe]) := by
  cases hd : s.dropWhile (· = apostrophe) with
  | nil =>
    rw [List.dropWhile_eq_nil_iff] at hd
    simp [isBare] at h hd
    obtain ⟨c, hc, hn⟩ := h
    exact absurd (hd c hc) hn
  | cons c rest =>
    refine ⟨s.takeWhile (· = apostrophe), c, rest, List.all_takeWhile, ?_, ?_, ?_⟩
    · have hc := List.head_dropWhile_not (· = apostrophe) (l := s) (by rw [hd]; simp)
      simpa [hd] using hc
    · rw [← hd, List.takeWhile_append_dropWhile]
    · rw [quote, hd]
      rfl

/-- A quoted text spells its characters. A run that opens where another one has just been
closed spells one more apostrophe. -/
theorem spellingAt_quote (behind : Bool) (s t : Text) :
    spellingAt behind (quote s ++ t) =
      (spellingAt (behind || !isBare s) t).map
        ((if behind && !isBare s then [.literal apostrophe] else []) ++ s.map .literal ++ ·) := by
  cases hs : isBare s with
  | true =>
    rw [quote_of_isBare hs, spellingAt_doubled, hs, map_ofChar_of_isBare hs]
    simp
  | false =>
    obtain ⟨bare, c, rest, hb, hc, rfl, hq⟩ := exists_run_of_not_isBare hs
    have hrun : runSpelling (doubled (c :: rest) ++ apostrophe :: t) =
        (tailSpelling t).map ((c :: rest).map .literal ++ ·) := runSpelling_doubled (c :: rest) _
    rw [hq, List.append_assoc, List.cons_append, List.append_assoc, List.singleton_append,
      spellingAt_doubled, hb, map_ofChar_of_isBare hb]
    cases behind with
    | false =>
      have hopen : (doubled (c :: rest) ++ apostrophe :: t).head? ≠ some apostrophe := by
        simpa [doubled_cons hc] using hc
      simp [spellingAt, spelling_open hopen, hrun, Function.comp_def]
    | true =>
      simp [spellingAt, hrun, Function.comp_def, map_literal_append_of_isBare hb]

end CellDisplay.NumberPattern
