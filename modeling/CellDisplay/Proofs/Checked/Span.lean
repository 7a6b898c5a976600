import CellDisplay.Proofs.Checked.NumberPattern
import CellDisplay.Proofs.NumberPattern.Quoting

/-! # The spans of tokens

The tokens of a pattern stand side by side from its start to the place where reading ends. Each of
them spans a part of the pattern that is not empty and lies between boundaries, and the part alone
is read as that token.
-/

namespace CellDisplay

namespace NumberPattern

/-- A token with the byte offsets at which it starts and stops. -/
structure Span where
  token : Token
  start : Nat
  stop : Nat

/-- The tokens before the ending, each of which stops where the next one starts. -/
def Tokens.spans : Tokens → List Span
  | next token start rest => ⟨token, start, rest.start⟩ :: rest.spans
  | _ => []

/-- The spans are not empty and lie side by side from one offset to another. -/
inductive Adjoin : Nat → List Span → Nat → Prop where
  | nil (start : Nat) : Adjoin start [] start
  | cons {token : Token} {start stop last : Nat} {spans : List Span} : start < stop →
      Adjoin stop spans last → Adjoin start (⟨token, start, stop⟩ :: spans) last

section Spans

variable {start : Nat} {t : Text} {tokens : Tokens} {token : Token} {span : Span}

theorem start_tokensFrom (start : Nat) (t : Text) : (tokensFrom start t).start = start := by
  rw [tokensFrom]
  cases step t <;> rfl

theorem length_written_pos (token : Token) : 0 < token.written.length := by
  obtain ⟨t, ht⟩ := written_eq_cons token
  rw [ht, List.length_cons]
  exact Nat.succ_pos _

theorem utf8Length_written_pos (token : Token) : 0 < token.written.utf8Length :=
  Nat.lt_of_lt_of_le (length_written_pos token) (Checked.length_le_utf8Length _)

theorem adjoin_spans (start : Nat) (t : Text) :
    Adjoin start (tokensFrom start t).spans (tokensFrom start t).ending.start := by
  generalize h : tokensFrom start t = tokens
  induction tokens generalizing start t with
  | finished | unclosed =>
    obtain rfl := h ▸ start_tokensFrom start t
    exact .nil _
  | next token start' rest ih =>
    obtain ⟨rfl, u, rfl, -, rfl⟩ := tokensFrom_eq_next_iff.mp h
    have hpos := utf8Length_written_pos token
    rw [Tokens.spans, start_tokensFrom]
    exact .cons (Nat.lt_add_of_pos_right hpos) (ih _ u rfl)

/-- There are no more tokens than characters. -/
theorem length_spans_le (start : Nat) (t : Text) :
    (tokensFrom start t).spans.length ≤ t.length := by
  generalize h : tokensFrom start t = tokens
  induction tokens generalizing start t with
  | finished | unclosed => exact Nat.zero_le _
  | next token start' rest ih =>
    obtain ⟨rfl, u, rfl, -, rfl⟩ := tokensFrom_eq_next_iff.mp h
    have hrest := ih _ u rfl
    have hpos := length_written_pos token
    simp only [Tokens.spans, List.length_cons, List.length_append]
    omega

/-- Each token spans the part of the text that it is written as. -/
theorem exists_written_of_mem_spans (h : span ∈ (tokensFrom start t).spans) :
    ∃ front rest, t = front ++ (span.token.written ++ rest) ∧
      span.start = start + front.utf8Length ∧
      span.stop = start + (front ++ span.token.written).utf8Length ∧
      span.token.IsReadBefore rest := by
  generalize htokens : tokensFrom start t = tokens at h
  induction tokens generalizing start t with
  | finished | unclosed => cases h
  | next token start' rest ih =>
    obtain ⟨rfl, u, rfl, hread, rfl⟩ := tokensFrom_eq_next_iff.mp htokens
    rcases List.mem_cons.mp h with rfl | hmem
    · exact ⟨[], u, rfl, rfl, start_tokensFrom _ u, hread⟩
    · obtain ⟨front, rest, rfl, hstart, hstop, hread⟩ := ih rfl hmem
      refine ⟨token.written ++ front, rest, (List.append_assoc ..).symm, ?_, ?_, hread⟩
      · rw [hstart, Text.utf8Length_append, Nat.add_assoc]
      · rw [hstop, List.append_assoc, Text.utf8Length_append token.written, Nat.add_assoc]

theorem tokensFrom_nil (start : Nat) : tokensFrom start [] = .finished start := by
  rw [tokensFrom, step]

/-- What follows a token does not change how the token is read. -/
theorem tokens_written (h : token.IsReadBefore t) :
    NumberPattern.tokens token.written =
      .next token 0 (.finished token.written.utf8Length) := by
  have hread : token.IsReadBefore [] := by
    cases token with
    | literal => exact h
    | quoted => exact ⟨h.1, by simp⟩
    | _ => trivial
  refine tokensFrom_eq_next_iff.mpr ⟨rfl, [], (List.append_nil _).symm, hread, ?_⟩
  rw [tokensFrom_nil, Nat.zero_add]

theorem ne_quoted_nil_of_isReadBefore (h : token.IsReadBefore t) : token ≠ .quoted [] := by
  rintro rfl
  obtain ⟨⟨c, hc, -⟩, -⟩ := h
  cases hc

theorem ending_tokens_cases (t : Text) :
    (NumberPattern.tokens t).ending = .finished t.utf8Length ∨
      ∃ position, (NumberPattern.tokens t).ending = .unclosed position := by
  obtain ⟨start, hfinished | hunclosed⟩ := ending_eq (NumberPattern.tokens t)
  · exact .inl (by rw [hfinished, (ending_tokens_of_finished hfinished).1])
  · exact .inr ⟨start, hunclosed⟩

end Spans

end NumberPattern

namespace Checked

open NumberPattern

/-- The span is that of a token in the text: it lies between boundaries, and its part of the text
alone is read as the token. No quoted run is empty. -/
structure Span.Covers (t : Text) (span : Span) : Prop where
  isBoundary_start : isBoundary t span.start
  isBoundary_stop : isBoundary t span.stop
  ne_quoted_nil : span.token ≠ .quoted []
  exists_part : ∃ part, slice span.start span.stop t = some part ∧
    NumberPattern.tokens part = .next span.token 0 (.finished part.utf8Length)

theorem covers_of_mem_spans {t : Text} {span : Span}
    (h : span ∈ (NumberPattern.tokens t).spans) : Span.Covers t span := by
  obtain ⟨front, rest, rfl, hstart, hstop, hread⟩ := exists_written_of_mem_spans h
  rw [Nat.zero_add] at hstart hstop
  refine ⟨?_, ?_, ne_quoted_nil_of_isReadBefore hread, span.token.written, ?_,
    tokens_written hread⟩
  · exact isBoundary_iff.mpr ⟨front, _, rfl, hstart⟩
  · exact isBoundary_iff.mpr ⟨front ++ span.token.written, rest, by simp, hstop⟩
  · rw [hstart, hstop, Text.utf8Length_append, slice_append]

theorem lexemeAt_of_mem_spans {t : Text} {span : Span} (ht : t.utf8Length < 2 ^ 64)
    (h : span ∈ (NumberPattern.tokens t).spans) :
    lexemeAt t span.start = some (.token span.token span.stop) := by
  obtain ⟨front, rest, hsplit, hstart, hstop, hread⟩ := exists_written_of_mem_spans h
  obtain ⟨shorter, hstep⟩ := exists_step_of_isReadBefore hread
  rw [hstart, hstop, Nat.zero_add, Nat.zero_add, lexemeAt_eq hsplit ht, hstep,
    Text.utf8Length_append]
  rfl

/-- Reading a pattern takes at most one step for each character and one for the ending. The spans of
the tokens lie side by side from the start of the pattern to the ending, which is the end of the
pattern or an apostrophe that opens a run without a closing one, and each span covers its token. For
texts whose offsets fit into 64 bits, the same is read at byte offsets. -/
theorem spans_tokens_tile (t : Text) :
    (NumberPattern.tokens t).spans.length ≤ t.length ∧
      Adjoin 0 (NumberPattern.tokens t).spans (NumberPattern.tokens t).ending.start ∧
      (∀ span ∈ (NumberPattern.tokens t).spans, Span.Covers t span) ∧
      ((NumberPattern.tokens t).ending = .finished t.utf8Length ∨
        ∃ position, (NumberPattern.tokens t).ending = .unclosed position) ∧
      (∀ position,
        (NumberPattern.tokens t).ending = .unclosed position ↔ OpensAt t position) ∧
      (t.utf8Length < 2 ^ 64 →
        tokensFrom t (t.length + 1) 0 = some (NumberPattern.tokens t) ∧
          ∀ span ∈ (NumberPattern.tokens t).spans,
            lexemeAt t span.start = some (.token span.token span.stop)) := by
  refine ⟨length_spans_le 0 t, adjoin_spans 0 t, fun _ => covers_of_mem_spans,
    ending_tokens_cases t, fun _ => ending_tokens_eq_unclosed_iff, ?_⟩
  intro h
  refine ⟨?_, fun _ => lexemeAt_of_mem_spans h⟩
  exact tokensFrom_eq (List.nil_append t).symm h (Nat.lt_succ_self _)

/-- A pair of apostrophes outside of runs, one inside a run, and a run that is not closed. -/
theorem spans_tokens_tile_unclosed :
    Text.utf8Length "''0'it''s'年'x".toList < 2 ^ 64 ∧
      tokensFrom "''0'it''s'年'x".toList 14 0 =
        some (NumberPattern.tokens "''0'it''s'年'x".toList) ∧
      OpensAt "''0'it''s'年'x".toList 13 := by
  obtain ⟨-, -, -, -, hopens, hchecked⟩ := spans_tokens_tile "''0'it''s'年'x".toList
  have hlength : Text.utf8Length "''0'it''s'年'x".toList < 2 ^ 64 := by decide +kernel
  have hending : (NumberPattern.tokens "''0'it''s'年'x".toList).ending = .unclosed 13 := by
    decide +kernel
  exact ⟨hlength, (hchecked hlength).1, (hopens 13).mp hending⟩

end Checked

end CellDisplay
