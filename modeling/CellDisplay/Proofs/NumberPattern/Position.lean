import CellDisplay.Proofs.NumberPattern.Readers

/-! # Where the tokens of a pattern stand

The tokens of a pattern, written one behind the other, are the pattern again, and each of them
starts at the byte offset behind those before it. What follows a token matters by its first
character only, which tells whether a quoted run ends there.
-/

namespace CellDisplay.NumberPattern

section Token

variable {c d : Char} {t u text after rest rest' : Text} {token : Token}

/-- A run is closed by the first apostrophe that is not one of a pair. -/
theorem closeRun_eq_some_iff :
    closeRun t = some (text, after) ↔
      t = doubled text ++ apostrophe :: after ∧ after.head? ≠ some apostrophe := by
  constructor
  · intro h
    fun_induction closeRun t generalizing text after with
    | case1 => cases h
    | case2 => simp_all [doubled]
    | case3 => cases h
    | case4 rest ih =>
      obtain ⟨⟨u, v⟩, hu, hv⟩ := Option.map_eq_some_iff.mp h
      obtain ⟨rfl, rfl⟩ := Prod.mk.inj hv
      obtain ⟨rfl, hhead⟩ := ih hu
      exact ⟨rfl, hhead⟩
    | case5 d rest hd =>
      obtain ⟨rfl, rfl⟩ := Prod.mk.inj (Option.some.inj h)
      exact ⟨rfl, by simpa using hd⟩
    | case6 c d rest hc ih =>
      obtain ⟨⟨u, v⟩, hu, hv⟩ := Option.map_eq_some_iff.mp h
      obtain ⟨rfl, rfl⟩ := Prod.mk.inj hv
      obtain ⟨hrest, hhead⟩ := ih hu
      exact ⟨by rw [doubled_cons hc, hrest]; rfl, hhead⟩
  · rintro ⟨rfl, hhead⟩
    induction text with
    | nil => exact closeRun_close hhead
    | cons c text ih =>
      by_cases hc : c = apostrophe
      · subst hc
        rw [doubled_cons_apostrophe, List.cons_append, List.cons_append, closeRun_pair, ih]
        rfl
      · rw [doubled_cons hc, List.cons_append, closeRun_cons hc, ih]
        rfl

/-- A run that is not closed has all of its apostrophes in pairs. -/
theorem closeRun_eq_none_iff : closeRun t = none ↔ ∃ text, t = doubled text := by
  constructor
  · intro h
    fun_induction closeRun t with
    | case1 => exact ⟨[], rfl⟩
    | case2 => cases h
    | case3 c hc => exact ⟨[c], by simp [doubled, hc]⟩
    | case4 rest ih =>
      obtain ⟨text, htext⟩ := ih (Option.map_eq_none_iff.mp h)
      exact ⟨apostrophe :: text, by rw [doubled_cons_apostrophe, htext]⟩
    | case5 => cases h
    | case6 c d rest hc ih =>
      obtain ⟨text, htext⟩ := ih (Option.map_eq_none_iff.mp h)
      exact ⟨c :: text, by rw [doubled_cons hc, htext]⟩
  · rintro ⟨text, rfl⟩
    induction text with
    | nil => rfl
    | cons c text ih =>
      by_cases hc : c = apostrophe
      · subst hc
        rw [doubled_cons_apostrophe, closeRun_pair, ih]
        rfl
      · rw [doubled_cons hc, closeRun_cons hc, ih]
        rfl

theorem eq_of_ofChar_literal (h : Token.ofChar c = .literal d) : d = c := by
  unfold Token.ofChar at h
  split at h <;> cases h
  rfl

theorem ofChar_ne_quoted : Token.ofChar c ≠ .quoted text := by
  unfold Token.ofChar
  split <;> exact Token.noConfusion

theorem written_ofChar (hc : c ≠ apostrophe) : (Token.ofChar c).written = [c] := by
  unfold Token.ofChar
  split
  case h_9 => simp [Token.written, doubled, hc]
  all_goals rfl

theorem written_eq_cons (token : Token) : ∃ t, token.written = token.firstChar :: t := by
  cases token with
  | literal c => by_cases hc : c = apostrophe <;> simp [Token.written, Token.firstChar, doubled, hc]
  | quoted text => exact ⟨_, rfl⟩
  | _ => exact ⟨[], rfl⟩

theorem written_of_isNumber (h : token.isNumber) : token.written = [token.firstChar] := by
  cases token <;> first | rfl | cases h

/-- The token can be read, and it is read as it is written where the rest of a text follows. -/
def Token.IsReadBefore (rest : Text) : Token → Prop
  | literal c => c = apostrophe ∨ ofChar c = literal c
  | quoted text =>
    (∃ c, text.head? = some c ∧ c ≠ apostrophe) ∧ rest.head? ≠ some apostrophe
  | _ => True

theorem Token.IsReadBefore.congr (h : token.IsReadBefore rest) (hhead : rest.head? = rest'.head?) :
    token.IsReadBefore rest' := by
  cases token with
  | quoted text => exact ⟨h.1, hhead ▸ h.2⟩
  | literal c => exact h
  | _ => trivial

theorem isReadBefore_of_isNumber (h : token.isNumber) : token.IsReadBefore rest := by
  cases token with
  | literal | quoted => cases h
  | _ => trivial

theorem isReadBefore_ofChar : (Token.ofChar c).IsReadBefore rest := by
  cases h : Token.ofChar c with
  | literal d =>
    obtain rfl := eq_of_ofChar_literal h
    exact .inr h
  | quoted text => exact absurd h ofChar_ne_quoted
  | _ => trivial

theorem isReadBefore_of_step {shorter : rest.length < t.length}
    (h : step t = .token token rest shorter) :
    t = token.written ++ rest ∧ token.IsReadBefore rest := by
  cases t with
  | nil => cases h
  | cons c t =>
    by_cases hc : c = apostrophe
    · -- An apostrophe that does not come in a pair opens a run, which another character starts.
      cases t with
      | nil => simp [step, hc] at h
      | cons d t =>
        by_cases hd : d = apostrophe
        · simp only [step, if_pos hc, if_pos hd] at h
          cases h
          exact ⟨by simp [Token.written, hc, hd], .inl rfl⟩
        · simp only [step, if_pos hc, if_neg hd] at h
          split at h
          · cases h
          · rename_i text after hclose
            cases h
            obtain ⟨ht, hhead⟩ := closeRun_eq_some_iff.mp hclose
            refine ⟨by simp [Token.written, hc, ht], ?_, hhead⟩
            cases text with
            | nil => exact absurd (List.cons.inj ht).1 hd
            | cons e text =>
              refine ⟨e, rfl, ?_⟩
              rintro rfl
              exact hd (List.cons.inj ht).1
    · simp only [step, if_neg hc] at h
      cases h
      exact ⟨by simp [written_ofChar hc], isReadBefore_ofChar⟩

theorem exists_step_of_isReadBefore (h : token.IsReadBefore rest) :
    ∃ shorter, step (token.written ++ rest) = .token token rest shorter := by
  cases token with
  | literal c =>
    by_cases hc : c = apostrophe
    · subst hc
      exact ⟨Nat.lt_succ_of_lt (Nat.lt_succ_self _), rfl⟩
    · have hliteral := h.resolve_left hc
      have hwritten : (Token.literal c).written = [c] := hliteral ▸ written_ofChar hc
      rw [hwritten]
      refine ⟨Nat.lt_succ_self _, ?_⟩
      simp only [List.singleton_append, step, if_neg hc, hliteral]
  | quoted text =>
    obtain ⟨⟨c, hfirst, hc⟩, hhead⟩ := h
    obtain ⟨text, rfl⟩ := List.head?_eq_some_iff.mp hfirst
    have hclose : closeRun (c :: (doubled text ++ apostrophe :: rest)) =
        some (c :: text, rest) :=
      closeRun_eq_some_iff.mpr ⟨by rw [doubled_cons hc]; rfl, hhead⟩
    have hwritten : (Token.quoted (c :: text)).written ++ rest =
        apostrophe :: c :: (doubled text ++ apostrophe :: rest) := by
      simp [Token.written, doubled_cons hc]
    have hlt : rest.length <
        (apostrophe :: c :: (doubled text ++ apostrophe :: rest)).length := by
      simp only [List.length_cons, List.length_append]
      omega
    rw [hwritten]
    refine ⟨hlt, ?_⟩
    simp only [step, if_true, if_neg hc]
    split <;> rename_i hrun
    · rw [hclose] at hrun
      cases hrun
    · rw [hclose] at hrun
      cases hrun
      rfl
  | _ => exact ⟨Nat.lt_succ_self _, rfl⟩

end Token

section Tokens

variable {start start' : Nat} {t u u' : Text} {token : Token} {run : List Token} {rest : Tokens}

theorem tokensFrom_eq_next_iff :
    tokensFrom start t = .next token start' rest ↔
      start' = start ∧ ∃ u, t = token.written ++ u ∧ token.IsReadBefore u ∧
        rest = tokensFrom (start + token.written.utf8Length) u := by
  constructor
  · intro h
    rw [tokensFrom] at h
    cases hs : step t with
    | finished => simp [hs] at h
    | unclosed => simp [hs] at h
    | token token' u shorter =>
      rw [hs] at h
      obtain ⟨rfl, rfl, rfl⟩ := Tokens.next.inj h
      obtain ⟨ht, hread⟩ := isReadBefore_of_step hs
      exact ⟨rfl, u, ht, hread, rfl⟩
  · rintro ⟨rfl, u, rfl, hread, rfl⟩
    obtain ⟨shorter, hs⟩ := exists_step_of_isReadBefore hread
    rw [tokensFrom, hs]

/-- A run that is not closed starts with an apostrophe, and its text reaches to the end. -/
theorem unclosed_of_tokensFrom (h : tokensFrom start t = .unclosed start') :
    start' = start ∧ ∃ text, t = apostrophe :: doubled text ∧ text.head? ≠ some apostrophe := by
  rw [tokensFrom] at h
  cases hs : step t with
  | finished => simp [hs] at h
  | token token u shorter => simp [hs] at h
  | unclosed =>
    rw [hs] at h
    cases h
    refine ⟨rfl, ?_⟩
    cases t with
    | nil => cases hs
    | cons c t =>
      by_cases hc : c = apostrophe
      · subst hc
        cases t with
        | nil => exact ⟨[], rfl, by simp⟩
        | cons d t =>
          by_cases hd : d = apostrophe
          · simp [step, hd] at hs
          · simp only [step, if_true, if_neg hd] at hs
            split at hs
            · rename_i hclose
              obtain ⟨text, htext⟩ := closeRun_eq_none_iff.mp hclose
              refine ⟨text, congrArg (apostrophe :: ·) htext, ?_⟩
              cases text with
              | nil => simp
              | cons e text =>
                rintro ⟨rfl⟩
                exact hd (List.cons.inj htext).1
            · cases hs
      · simp [step, hc] at hs

def writtenText (run : List Token) : Text := run.flatMap Token.written

/-- The tokens of a run are read as they are written where the rest of a text follows. -/
def AreReadBefore (rest : Text) : List Token → Prop
  | [] => True
  | token :: run => token.IsReadBefore (writtenText run ++ rest) ∧ AreReadBefore rest run

theorem AreReadBefore.congr (h : AreReadBefore u run) (hhead : u.head? = u'.head?) :
    AreReadBefore u' run := by
  induction run with
  | nil => trivial
  | cons token run ih =>
    refine ⟨h.1.congr ?_, ih h.2⟩
    rw [List.head?_append, List.head?_append, hhead]

/-- What is read of a text are the tokens that it is written with. -/
theorem reads_tokensFrom_iff :
    Reads (tokensFrom start t) run rest ↔
      ∃ u, t = writtenText run ++ u ∧ AreReadBefore u run ∧
        rest = tokensFrom (start + (writtenText run).utf8Length) u := by
  induction run generalizing start t with
  | nil =>
    rw [reads_nil_iff]
    constructor
    · rintro rfl
      exact ⟨t, rfl, trivial, rfl⟩
    · rintro ⟨u, rfl, -, rfl⟩
      rfl
  | cons token run ih =>
    have hlength : (writtenText (token :: run)).utf8Length =
        token.written.utf8Length + (writtenText run).utf8Length :=
      Text.utf8Length_append ..
    rw [reads_cons_iff, hlength, ← Nat.add_assoc]
    constructor
    · rintro ⟨start', after, hnext, hreads⟩
      obtain ⟨rfl, u, rfl, hread, rfl⟩ := tokensFrom_eq_next_iff.mp hnext
      obtain ⟨v, rfl, hrun, rfl⟩ := ih.mp hreads
      exact ⟨v, (List.append_assoc ..).symm, ⟨hread, hrun⟩, rfl⟩
    · rintro ⟨v, rfl, ⟨hread, hrun⟩, rfl⟩
      refine ⟨start, _, tokensFrom_eq_next_iff.mpr ⟨rfl, _, List.append_assoc .., hread, rfl⟩, ?_⟩
      exact ih.mpr ⟨v, rfl, hrun, rfl⟩

end Tokens

/-- The tokens are those of the pattern from the start of one of them on. -/
def Placed (pattern : Text) (tokens : Tokens) : Prop :=
  ∃ front t, pattern = front ++ t ∧ tokens = tokensFrom front.utf8Length t

section Placed

variable {pattern : Text} {tokens rest : Tokens} {run : List Token}

theorem placed_tokens (pattern : Text) : Placed pattern (NumberPattern.tokens pattern) :=
  ⟨[], pattern, rfl, rfl⟩

theorem Placed.of_reads (h : Placed pattern tokens) (hr : Reads tokens run rest) :
    Placed pattern rest := by
  obtain ⟨front, t, rfl, rfl⟩ := h
  obtain ⟨u, rfl, -, rfl⟩ := reads_tokensFrom_iff.mp hr
  exact ⟨front ++ writtenText run, u, by simp, by simp⟩

theorem Placed.of_next {token : Token} {start : Nat} (h : Placed pattern (.next token start rest)) :
    Placed pattern rest :=
  h.of_reads (.cons (.nil rest))

theorem length_le_utf8Length_writtenText (run : List Token) :
    run.length ≤ (writtenText run).utf8Length := by
  induction run with
  | nil => exact Nat.le_refl _
  | cons token run ih =>
    obtain ⟨t, ht⟩ := written_eq_cons token
    have hpos := token.firstChar.utf8Size_pos
    simp only [writtenText, List.flatMap_cons, ht, List.cons_append, Text.utf8Length_cons,
      Text.utf8Length_append, List.length_cons] at ih ⊢
    omega

/-- A pattern has as many bytes as tokens are read of it. -/
theorem Placed.length_le (h : Placed pattern tokens) (hr : Reads tokens run rest) :
    run.length ≤ pattern.utf8Length := by
  obtain ⟨front, t, rfl, rfl⟩ := h
  obtain ⟨u, rfl, -⟩ := reads_tokensFrom_iff.mp hr
  have := length_le_utf8Length_writtenText run
  simp only [Text.utf8Length_append]
  omega

end Placed

end CellDisplay.NumberPattern
