import CellDisplay.Proofs.NumberPattern.Parsing

/-! # The separator of subpatterns

No token of a subpattern is a semicolon. A pattern that can be read thus has a second
subpattern exactly if a semicolon stands among its tokens.
-/

namespace CellDisplay.NumberPattern

def Tokens.toList : Tokens → List Token
  | finished _ | unclosed _ => []
  | next token _ rest => token :: rest.toList

theorem Reads.toList_eq {tokens : Tokens} {run : List Token} {start : Nat}
    (h : Reads tokens run (.finished start)) : tokens.toList = run := by
  generalize hrest : Tokens.finished start = rest at h
  induction h with
  | nil => exact hrest ▸ rfl
  | cons _ ih => rw [Tokens.toList, ih hrest]

theorem NumberForm.separator_not_mem (n : NumberForm) : .separator ∉ n.tokens := by
  have hplace (placeholder : Placeholder) : placeholder.token ≠ .separator := by
    cases placeholder <;> simp [Placeholder.token]
  have hinteger : .separator ∉ integerTokens n.first n.groups := by
    simp [mem_integerTokens_iff, hplace]
  have hfraction : .separator ∉ fractionTokens n.fraction := by
    cases n.fraction <;> simp [fractionTokens, hplace]
  have hexponent : .separator ∉ exponentTokens n.exponent := by
    cases n.exponent with
    | none => simp [exponentTokens]
    | some e =>
      have hsign (sign : Sign) : sign.token ≠ .separator := by
        cases sign <;> simp [Sign.token]
      simp [exponentTokens, ExponentForm.tokens, ExponentForm.tail, hsign]
  simp [NumberForm.tokens, hinteger, hfraction, hexponent]

theorem Subpattern.separator_not_mem (s : Subpattern) : .separator ∉ s.tokens := by
  have haffix {run : List Token} (h : run.all Token.isAffix) : .separator ∉ run :=
    fun hmem => Bool.false_ne_true (List.all_eq_true.mp h _ hmem)
  simp [Subpattern.tokens, haffix s.isAffix_before, haffix s.isAffix_after,
    s.number.separator_not_mem]

theorem Form.separator_mem_iff (form : Form) :
    .separator ∈ form.tokens ↔ form.negative.isSome := by
  rw [Form.tokens, List.mem_append]
  cases form.negative <;> simp [negativeTokens, form.positive.separator_not_mem]

/-- A pattern has a second subpattern exactly if it has a separator. -/
theorem isSome_negative_iff {tokens : Tokens} {pattern : NumberPattern}
    (h : ofTokens tokens = .ok pattern) :
    pattern.negative.isSome ↔ .separator ∈ tokens.toList := by
  obtain ⟨form, start, hreads, rfl⟩ := ofTokens_eq_ok_iff.mp h
  rw [hreads.toList_eq, form.separator_mem_iff, Form.pattern, Option.isSome_map]

theorem separator_mem_spelled_iff {tokens : Tokens} {spelled : List Token}
    (h : tokens.spelled? = some spelled) :
    .separator ∈ spelled ↔ .separator ∈ tokens.toList := by
  induction tokens generalizing spelled with
  | finished => simp_all [Tokens.spelled?, Tokens.toList]
  | unclosed => simp [Tokens.spelled?] at h
  | next token start rest ih =>
    obtain ⟨spelled', hs, rfl⟩ := Option.map_eq_some_iff.mp h
    have ht : .separator ∈ token.spelled ↔ .separator = token := by
      cases token <;> simp [Token.spelled]
    simp [Tokens.toList, ih hs, ht]

end CellDisplay.NumberPattern
