import CellDisplay.Proofs.NumberPattern.Position

/-! # Inside and outside of quoted runs

Read from the left, the apostrophes of a pattern tell of each place whether it lies in a quoted
run. Reading ends with an error exactly if one of them opens a run outside of all others and those
behind it come in pairs. A quoted text is read back as it was, and what follows it is read as if it
stood alone.
-/

namespace CellDisplay.NumberPattern

/-- Where a place in a pattern lies, as the apostrophes before it tell. -/
inductive Quoting where
  | outside
  /-- Behind an apostrophe outside of runs, which opens one unless another apostrophe follows -/
  | opening
  | inside
  /-- Behind an apostrophe in a run, which closes the run unless another apostrophe follows -/
  | closing
  deriving Repr, DecidableEq

namespace Quoting

def after (quoting : Quoting) (c : Char) : Quoting :=
  match quoting with
  | outside => if c = apostrophe then opening else outside
  | opening => if c = apostrophe then outside else inside
  | inside => if c = apostrophe then closing else inside
  | closing => if c = apostrophe then inside else outside

def behind (t : Text) : Quoting := t.foldl after outside

/-- What follows starts outside of runs. -/
def StartsOutside (t : Text) (quoting : Quoting) : Prop :=
  quoting = outside ∨ quoting = closing ∧ t.head? ≠ some apostrophe

end Quoting

/-- At the offset an apostrophe outside of runs opens one, behind which all apostrophes come in
pairs. -/
def OpensAt (pattern : Text) (position : Nat) : Prop :=
  ∃ front text, pattern = front ++ apostrophe :: doubled text ∧ Quoting.behind front = .outside ∧
    text.head? ≠ some apostrophe ∧ position = front.utf8Length

/-- What is left to read behind all tokens: the end, or a run that is not closed. -/
def Tokens.ending : Tokens → Tokens
  | next _ _ rest => rest.ending
  | tokens => tokens

section Reading

open Quoting

variable {c : Char} {t u rest text : Text} {quoting : Quoting} {token : Token}
  {run : List Token}

theorem Quoting.after_of_startsOutside (h : quoting.StartsOutside (c :: t)) :
    quoting.after c = outside.after c := by
  rcases h with rfl | ⟨rfl, hc⟩
  · rfl
  · have hne : c ≠ apostrophe := by simpa using hc
    simp [after, hne]

theorem Quoting.foldl_doubled (text : Text) : (doubled text).foldl after inside = inside := by
  induction text with
  | nil => rfl
  | cons c text ih =>
    by_cases hc : c = apostrophe
    · subst hc
      rw [doubled_cons_apostrophe]
      exact ih
    · rw [doubled_cons hc, List.foldl_cons]
      simpa [after, hc] using ih

theorem Quoting.startsOutside_written (h : quoting.StartsOutside (token.written ++ rest))
    (hread : token.IsReadBefore rest) :
    (token.written.foldl after quoting).StartsOutside rest := by
  obtain ⟨written, hw⟩ := written_eq_cons token
  rw [hw, List.cons_append] at h
  rw [hw, List.foldl_cons, after_of_startsOutside h, ← List.foldl_cons, ← hw]
  cases token with
  | literal c =>
    left
    by_cases hc : c = apostrophe
    · subst hc
      rfl
    · simp [Token.written, doubled, hc, after]
  | quoted text =>
    obtain ⟨⟨c, hfirst, hc⟩, hhead⟩ := hread
    obtain ⟨text, rfl⟩ := List.head?_eq_some_iff.mp hfirst
    refine .inr ⟨?_, hhead⟩
    simp [Token.written, doubled_cons hc, after, hc, foldl_doubled]
  | _ => exact .inl rfl

theorem Quoting.startsOutside_writtenText (h : quoting.StartsOutside (writtenText run ++ u))
    (hread : AreReadBefore u run) :
    ((writtenText run).foldl after quoting).StartsOutside u := by
  induction run generalizing quoting with
  | nil => exact h
  | cons token run ih =>
    have hwritten : writtenText (token :: run) = token.written ++ writtenText run := rfl
    rw [hwritten, List.append_assoc] at h
    rw [hwritten, List.foldl_append]
    exact ih (startsOutside_written h hread.1) hread.2

/-- Where all apostrophes come in pairs, a run is not closed. -/
theorem Quoting.foldl_inside_ne_outside (h : t <+: doubled text) :
    t.foldl after inside ≠ outside := by
  induction text generalizing t with
  | nil => simp [List.prefix_nil.mp h]
  | cons c text ih =>
    by_cases hc : c = apostrophe
    · subst hc
      rw [doubled_cons_apostrophe] at h
      match t, h with
      | [], _ => simp
      | [_], h => simp [(List.cons_prefix_cons.mp h).1, after]
      | _ :: _ :: t, h =>
        obtain ⟨rfl, hpair⟩ := List.cons_prefix_cons.mp h
        obtain ⟨rfl, ht⟩ := List.cons_prefix_cons.mp hpair
        simpa [after] using ih ht
    · rw [doubled_cons hc] at h
      cases t with
      | nil => simp
      | cons d t =>
        obtain ⟨rfl, ht⟩ := List.cons_prefix_cons.mp h
        simpa [after, hc] using ih ht

theorem Quoting.foldl_opening_ne_outside (h : t <+: doubled text)
    (hhead : text.head? ≠ some apostrophe) : t.foldl after opening ≠ outside := by
  cases t with
  | nil => simp
  | cons d t =>
    cases text with
    | nil => simp at h
    | cons c text =>
      have hc : c ≠ apostrophe := by simpa using hhead
      rw [doubled_cons hc] at h
      obtain ⟨rfl, ht⟩ := List.cons_prefix_cons.mp h
      simpa [after, hc] using foldl_inside_ne_outside ht

end Reading

section Ending

open Quoting

variable {pattern front front' text text' : Text} {start n m : Nat} {tokens : Tokens}

theorem reads_ending (tokens : Tokens) : ∃ run, Reads tokens run tokens.ending := by
  induction tokens with
  | finished | unclosed => exact ⟨[], .nil _⟩
  | next token start rest ih =>
    obtain ⟨run, hr⟩ := ih
    exact ⟨token :: run, .cons hr⟩

theorem ending_eq (tokens : Tokens) :
    ∃ start, tokens.ending = .finished start ∨ tokens.ending = .unclosed start := by
  induction tokens with
  | finished start => exact ⟨start, .inl rfl⟩
  | unclosed start => exact ⟨start, .inr rfl⟩
  | next token start rest ih => exact ih

theorem eq_nil_of_step (h : step pattern = .finished) : pattern = [] := by
  cases pattern with
  | nil => rfl
  | cons c rest =>
    rw [step.eq_def] at h
    dsimp only at h
    split at h
    · cases rest with
      | nil => cases h
      | cons d after =>
        dsimp only at h
        split at h
        · cases h
        · split at h <;> cases h
    · cases h

theorem eq_nil_of_tokensFrom (h : tokensFrom start pattern = .finished n) :
    pattern = [] ∧ n = start := by
  rw [tokensFrom] at h
  cases hs : step pattern with
  | finished => exact ⟨eq_nil_of_step hs, by simpa [hs, eq_comm] using h⟩
  | unclosed => simp [hs] at h
  | token => simp [hs] at h

theorem ending_tokens_of_finished (h : (NumberPattern.tokens pattern).ending = .finished n) :
    n = pattern.utf8Length ∧ Quoting.StartsOutside [] (behind pattern) := by
  obtain ⟨run, hr⟩ := reads_ending (NumberPattern.tokens pattern)
  obtain ⟨u, rfl, hread, he⟩ := reads_tokensFrom_iff.mp hr
  obtain ⟨rfl, rfl⟩ := eq_nil_of_tokensFrom (he.symm.trans h)
  refine ⟨by simp, ?_⟩
  rw [List.append_nil, behind]
  exact startsOutside_writtenText (.inl rfl) hread

theorem opensAt_of_ending (h : (NumberPattern.tokens pattern).ending = .unclosed n) :
    OpensAt pattern n := by
  obtain ⟨run, hr⟩ := reads_ending (NumberPattern.tokens pattern)
  obtain ⟨u, rfl, hread, he⟩ := reads_tokensFrom_iff.mp hr
  obtain ⟨rfl, text, rfl, hhead⟩ := unclosed_of_tokensFrom (he.symm.trans h)
  refine ⟨writtenText run, text, rfl, ?_, hhead, Nat.zero_add _⟩
  rcases startsOutside_writtenText (.inl rfl) hread with h | ⟨-, h⟩
  · exact h
  · exact absurd rfl h

theorem behind_append_apostrophe (h : behind front = .outside) (rest : Text) :
    behind (front ++ apostrophe :: rest) = rest.foldl after opening := by
  rw [behind, List.foldl_append, ← behind, h]
  rfl

/-- A run that is opened and not closed goes on to the end, so that no other one is opened behind
its apostrophe. -/
theorem isPrefix_of_opens
    (h : front ++ apostrophe :: doubled text = front' ++ apostrophe :: doubled text')
    (hfront : behind front = .outside) (hhead : text.head? ≠ some apostrophe)
    (hfront' : behind front' = .outside) : front' <+: front := by
  rcases List.prefix_or_prefix_of_prefix ⟨_, h⟩ (List.prefix_append front' _) with ⟨rest, rfl⟩ | hle
  · rw [List.append_assoc, List.append_cancel_left_eq] at h
    cases rest with
    | nil => simp
    | cons c rest =>
      -- The second run would be opened behind the first apostrophe, where no place is outside.
      obtain ⟨rfl, hrest⟩ := List.cons.inj h
      rw [behind_append_apostrophe hfront] at hfront'
      exact absurd hfront' (foldl_opening_ne_outside ⟨_, hrest.symm⟩ hhead)
  · exact hle

theorem OpensAt.unique (h : OpensAt pattern n) (h' : OpensAt pattern m) : n = m := by
  obtain ⟨front, text, rfl, hfront, hhead, rfl⟩ := h
  obtain ⟨front', text', hsplit, hfront', hhead', rfl⟩ := h'
  have hle := isPrefix_of_opens hsplit hfront hhead hfront'
  have hge := isPrefix_of_opens hsplit.symm hfront' hhead' hfront
  rw [hle.eq_of_length_le hge.length_le]

theorem OpensAt.not_startsOutside (h : OpensAt pattern n) :
    ¬ Quoting.StartsOutside [] (behind pattern) := by
  obtain ⟨front, text, rfl, hfront, hhead, -⟩ := h
  rw [behind_append_apostrophe hfront]
  rintro (h | ⟨h, -⟩)
  · exact foldl_opening_ne_outside (List.prefix_refl _) hhead h
  · cases text with
    | nil => simp at h
    | cons c text =>
      have hc : c ≠ apostrophe := by simpa using hhead
      simp [doubled_cons hc, after, hc, foldl_doubled] at h

/-- Reading a pattern ends at an apostrophe exactly if it opens a run that is not closed. -/
theorem ending_tokens_eq_unclosed_iff :
    (NumberPattern.tokens pattern).ending = .unclosed n ↔ OpensAt pattern n := by
  refine ⟨opensAt_of_ending, fun h => ?_⟩
  obtain ⟨m, hfinished | hunclosed⟩ := ending_eq (NumberPattern.tokens pattern)
  · exact absurd (ending_tokens_of_finished hfinished).2 h.not_startsOutside
  · rw [hunclosed, h.unique (opensAt_of_ending hunclosed)]

end Ending

section Quoted

variable {s t : Text}

/-- The tokens, read from a number of bytes further on. -/
def Tokens.shifted (bytes : Nat) : Tokens → Tokens
  | finished start => finished (bytes + start)
  | unclosed start => unclosed (bytes + start)
  | next token start rest => next token (bytes + start) (rest.shifted bytes)

theorem tokensFrom_add (bytes start : Nat) (t : Text) :
    tokensFrom (bytes + start) t = (tokensFrom start t).shifted bytes := by
  induction h : t.length using Nat.strongRecOn generalizing start t with
  | ind n ih =>
    rw [tokensFrom, tokensFrom.eq_def start]
    cases step t with
    | finished => rfl
    | unclosed => rfl
    | token token rest shorter =>
      simp only [Tokens.shifted]
      rw [Nat.add_assoc, ih _ (h ▸ shorter) _ rest rfl]

theorem tokensFrom_eq_shifted (bytes : Nat) (t : Text) :
    tokensFrom bytes t = (tokens t).shifted bytes := tokensFrom_add bytes 0 t

/-- The token stands for text. -/
def Token.isText (token : Token) : Bool := token matches literal _ | quoted _

theorem all_isText_map_literal (s : Text) : (s.map Token.literal).all Token.isText := by
  simp [Token.isText]

theorem writtenText_map_literal (s : Text) : writtenText (s.map .literal) = doubled s := by
  simp [writtenText, List.flatMap_map, Token.written, doubled]

theorem areReadBefore_map_literal (h : isBare s) (t : Text) :
    AreReadBefore t (s.map .literal) := by
  induction s with
  | nil => trivial
  | cons c s ih =>
    obtain ⟨hc, hs⟩ : c = apostrophe ∧ isBare s := by simpa [isBare] using h
    exact ⟨.inl hc, ih hs⟩

theorem flatMap_spelled_map_literal (s : Text) :
    (s.map .literal).flatMap Token.spelled = s.map .literal := by
  rw [List.flatMap_map, List.map_eq_flatMap]
  rfl

theorem reads_doubled (h : isBare s) (start : Nat) (t : Text) :
    Reads (tokensFrom start (doubled s ++ t)) (s.map .literal)
      (tokensFrom (start + (doubled s).utf8Length) t) := by
  refine reads_tokensFrom_iff.mpr ⟨t, ?_, areReadBefore_map_literal h t, ?_⟩
  · rw [writtenText_map_literal]
  · rw [writtenText_map_literal]

theorem reads_quoted {c : Char} (hc : c ≠ apostrophe) (ht : t.head? ≠ some apostrophe)
    (start : Nat) (rest : Text) :
    Reads (tokensFrom start ((Token.quoted (c :: rest)).written ++ t)) [.quoted (c :: rest)]
      (tokensFrom (start + (Token.quoted (c :: rest)).written.utf8Length) t) := by
  refine reads_cons_iff.mpr ⟨start, _, ?_, .nil _⟩
  exact tokensFrom_eq_next_iff.mpr ⟨rfl, t, rfl, ⟨⟨c, rfl, hc⟩, ht⟩, rfl⟩

/-- A quoted text is read as literal characters and quoted runs that spell the text. The tokens of
what follows it are the same as if it stood alone, and so is their ending. -/
theorem reads_quote_append (ht : t.head? ≠ some apostrophe) (s : Text) :
    ∃ run, Reads (tokens (quote s ++ t)) run ((tokens t).shifted (quote s).utf8Length) ∧
      run.all Token.isText ∧ run.flatMap Token.spelled = s.map .literal := by
  rw [← tokensFrom_eq_shifted, ← Nat.zero_add (quote s).utf8Length]
  cases hs : isBare s with
  | true =>
    rw [quote_of_isBare hs]
    exact ⟨s.map .literal, reads_doubled hs 0 t, all_isText_map_literal s,
      flatMap_spelled_map_literal s⟩
  | false =>
    -- Apostrophes at the start stand before the run, which would otherwise open with a pair.
    obtain ⟨bare, c, rest, hb, hc, rfl, hq⟩ := exists_run_of_not_isBare hs
    have hquote : quote (bare ++ c :: rest) =
        doubled bare ++ (Token.quoted (c :: rest)).written := hq
    refine ⟨bare.map .literal ++ [.quoted (c :: rest)], ?_, ?_, ?_⟩
    · rw [hquote, List.append_assoc, Text.utf8Length_append, ← Nat.add_assoc]
      exact (reads_doubled hb 0 _).append (reads_quoted hc ht _ rest)
    · rw [List.all_append, all_isText_map_literal]
      rfl
    · rw [List.flatMap_append, flatMap_spelled_map_literal, List.flatMap_singleton,
        Token.spelled, List.map_append]

/-- A text with apostrophes at its start, within and at its end, before a run that is not closed. -/
theorem reads_quote_append_apostrophes :
    "0'".toList.head? ≠ some apostrophe ∧
      ∃ run, Reads (tokens (quote "''it's'".toList ++ "0'".toList)) run
          ((tokens "0'".toList).shifted (quote "''it's'".toList).utf8Length) ∧
        run.all Token.isText ∧ run.flatMap Token.spelled = "''it's'".toList.map .literal :=
  have ht : "0'".toList.head? ≠ some apostrophe := by decide
  ⟨ht, reads_quote_append ht "''it's'".toList⟩

end Quoted

end CellDisplay.NumberPattern
