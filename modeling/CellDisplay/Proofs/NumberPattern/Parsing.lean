import CellDisplay.Proofs.NumberPattern.Position

/-! # Reading by the grammar

A pattern is read exactly if its tokens are those of the grammar, and what is read is what the
grammar describes.
-/

namespace CellDisplay.NumberPattern

section Tokens

variable {tokens rest : Tokens}

theorem isNumber_of_head (n : NumberForm) (token : Token) (h : token ∈ n.tokens.head?) :
    token.isNumber := by
  obtain ⟨first, groups, fraction, exponent, hplaces⟩ := n
  cases first with
  | cons placeholder first =>
    obtain rfl := Option.some.inj h
    cases placeholder <;> rfl
  | nil =>
    cases groups with
    | cons group groups =>
      obtain rfl := Option.some.inj h
      rfl
    | nil =>
      cases fraction with
      | some places =>
        obtain rfl := Option.some.inj h
        rfl
      | none =>
        cases exponent with
        | some e => exact absurd rfl (hplaces rfl)
        | none => cases h

theorem isAffix_of_head (s : Subpattern) (token : Token)
    (h : token ∈ (s.number.tokens ++ s.after).head?) : token.isAffix = false := by
  have hnumber : token ∈ s.number.tokens.head? := by
    by_cases hempty : s.number.tokens = []
    · simp [hempty, s.after_of_number hempty] at h
    · rwa [List.head?_append_of_ne_nil _ hempty] at h
  have := isNumber_of_head s.number token hnumber
  cases token <;> first | rfl | cases this

theorem readSubpattern_eq_ok_iff {affixes : Affixes} {layout : Option Layout} :
    readSubpattern tokens = .ok (affixes, layout, rest) ↔
      ∃ s : Subpattern, Reads tokens s.tokens rest ∧ rest.StopsAt (· != .separator) ∧
        affixes = s.affixes ∧ layout = s.number.layout? := by
  constructor
  · intro h
    obtain ⟨⟨before, behindBefore⟩, hb, h⟩ := bind_eq_ok.mp h
    obtain ⟨⟨layout', behindNumber⟩, hn, h⟩ := bind_eq_ok.mp h
    obtain ⟨⟨after, behindAfter⟩, ha, h⟩ := bind_eq_ok.mp h
    obtain ⟨runBefore, hbefore, hstop, hallBefore, rfl⟩ := readAffix_eq_ok_iff.mp hb
    obtain ⟨n, hnumber, rfl⟩ := reads_of_readLayout hn
    obtain ⟨runAfter, hafter, -, hallAfter, rfl⟩ := readAffix_eq_ok_iff.mp ha
    -- Without a number, all affix tokens were taken before it.
    have hnone (hempty : n.tokens = []) : runAfter = [] := by
      obtain rfl := reads_nil_iff.mp (hempty ▸ hnumber)
      exact hafter.eq_nil_of_stopsAt hallAfter hstop
    let s : Subpattern := ⟨runBefore, n, runAfter, hallBefore, hallAfter, hnone⟩
    have hreads : Reads tokens s.tokens behindAfter := hbefore.append (hnumber.append hafter)
    dsimp only at h
    split at h
    · cases h
      exact ⟨s, hreads, rfl, rfl, rfl⟩
    · cases h
      exact ⟨s, hreads, trivial, rfl, rfl⟩
    · exact absurd h throw_ne_ok
    · exact absurd h throw_ne_ok
  · rintro ⟨s, h, hstop, rfl, rfl⟩
    obtain ⟨behindBefore, hb, h⟩ := reads_append_iff.mp h
    obtain ⟨behindNumber, hn, ha⟩ := reads_append_iff.mp h
    have hstopAffix : rest.StopsAt Token.isAffix := hstop.mono fun token ht => by
      cases token <;> first | rfl | cases ht
    have hstopNumber : behindNumber.StopsAt Token.isNumber := by
      refine ha.stopsAt (fun token ht => ?_) (hstop.mono fun token ht => ?_)
      · have := List.all_eq_true.mp s.isAffix_after token (List.mem_of_mem_head? ht)
        cases token <;> first | rfl | cases this
      · cases token <;> first | rfl | cases ht
    have hstopBefore := h.stopsAt (isAffix_of_head s) hstopAffix
    refine bind_eq_ok.mpr ⟨_, readAffix_eq_ok_iff.mpr
      ⟨s.before, hb, hstopBefore, s.isAffix_before, rfl⟩, ?_⟩
    refine bind_eq_ok.mpr ⟨_, readLayout_eq_ok s.number hn hstopNumber, ?_⟩
    refine bind_eq_ok.mpr ⟨_, readAffix_eq_ok_iff.mpr
      ⟨s.after, ha, hstopAffix, s.isAffix_after, rfl⟩, ?_⟩
    cases rest with
    | finished => rfl
    | unclosed => cases hstop
    | next token start behind =>
      obtain rfl : token = .separator := by simpa [Tokens.StopsAt] using hstop
      rfl

theorem finished_of_stopsAt (hstop : tokens.StopsAt (· != .separator))
    (hne : ∀ start rest, tokens ≠ .next .separator start rest) :
    ∃ start, tokens = .finished start := by
  cases tokens with
  | finished start => exact ⟨start, rfl⟩
  | unclosed => cases hstop
  | next token start rest =>
    obtain rfl : token = .separator := by simpa [Tokens.StopsAt] using hstop
    exact absurd rfl (hne start rest)

theorem ofTokens_eq_ok_iff {pattern : NumberPattern} :
    ofTokens tokens = .ok pattern ↔
      ∃ form : Form, ∃ start, Reads tokens form.tokens (.finished start) ∧
        pattern = form.pattern := by
  constructor
  · intro h
    obtain ⟨⟨positive, layout, behindPositive⟩, hp, h⟩ := bind_eq_ok.mp h
    obtain ⟨s, hs, hstop, rfl, rfl⟩ := readSubpattern_eq_ok_iff.mp hp
    by_cases hpresent : s.number.IsPresent
    · simp only [NumberForm.layout?, if_pos hpresent] at h
      split at h
      · obtain ⟨⟨negative, layout, behindNegative⟩, hn, h⟩ := bind_eq_ok.mp h
        obtain ⟨s', hs', hstop', rfl, -⟩ := readSubpattern_eq_ok_iff.mp hn
        dsimp only at h
        split at h
        · exact absurd h throw_ne_ok
        · rename_i hne
          obtain rfl := pure_eq_ok.mp h
          obtain ⟨stop, rfl⟩ := finished_of_stopsAt hstop' hne
          exact ⟨⟨s, some s', hpresent⟩, stop, hs.append (.cons hs'), rfl⟩
      · rename_i hne
        obtain rfl := pure_eq_ok.mp h
        obtain ⟨stop, rfl⟩ := finished_of_stopsAt hstop hne
        exact ⟨⟨s, none, hpresent⟩, stop, hs.append (.nil _), rfl⟩
    · simp only [NumberForm.layout?, if_neg hpresent] at h
      exact absurd h throw_ne_ok
  · rintro ⟨form, start, h, rfl⟩
    obtain ⟨behindPositive, hs, h⟩ := reads_append_iff.mp h
    have hpositive (hstop : behindPositive.StopsAt (· != .separator)) :
        readSubpattern tokens =
          .ok (form.positive.affixes, some form.positive.number.layout, behindPositive) :=
      readSubpattern_eq_ok_iff.mpr
        ⟨form.positive, hs, hstop, rfl, (if_pos form.isPresent).symm⟩
    rw [Form.pattern]
    cases hnegative : form.negative with
    | none =>
      rw [hnegative] at h
      obtain rfl := reads_nil_iff.mp h
      exact bind_eq_ok.mpr ⟨_, hpositive trivial, rfl⟩
    | some s =>
      rw [hnegative] at h
      obtain ⟨_, _, rfl, hr⟩ := reads_cons_iff.mp h
      have hn := readSubpattern_eq_ok_iff.mpr
        ⟨s, hr, (trivial : (Tokens.finished start).StopsAt _), rfl, rfl⟩
      exact bind_eq_ok.mpr ⟨_, hpositive rfl, bind_eq_ok.mpr ⟨_, hn, rfl⟩⟩

/-- No quoted run of a pattern is empty. -/
theorem quoted_nil_not_mem {start : Nat} {t : Text} {run : List Token}
    (h : Reads (tokensFrom start t) run rest) : .quoted [] ∉ run := by
  obtain ⟨u, -, hrun, -⟩ := reads_tokensFrom_iff.mp h
  clear h
  induction run with
  | nil => exact List.not_mem_nil
  | cons token run ih =>
    obtain ⟨htoken, hrun⟩ := hrun
    rintro (_ | ⟨_, hmem⟩)
    · obtain ⟨⟨c, hc, -⟩, -⟩ := htoken
      cases hc
    · exact ih hrun hmem

end Tokens

theorem Subpattern.describes_iff {s : Subpattern} {affixes : Affixes}
    (h : .quoted [] ∉ s.tokens) : s.Describes affixes ↔ affixes = s.affixes := by
  simp only [Subpattern.tokens, List.mem_append, not_or] at h
  have hbefore := merges_affixOf s.isAffix_before h.1
  have hafter := merges_affixOf s.isAffix_after h.2.2
  constructor
  · intro hd
    cases affixes
    exact congrArg₂ Affixes.mk (hd.before.unique hbefore) (hd.after.unique hafter)
  · rintro rfl
    exact ⟨hbefore, hafter⟩

theorem describes_negative_iff {negative : Option Subpattern} {affixes : Option Affixes}
    (h : .quoted [] ∉ negativeTokens negative) :
    Option.Rel Subpattern.Describes negative affixes ↔
      affixes = negative.map Subpattern.affixes := by
  cases negative with
  | none =>
    constructor
    · rintro ⟨⟩
      rfl
    · rintro rfl
      exact .none
  | some s =>
    have hs : .quoted [] ∉ s.tokens := List.not_mem_of_not_mem_cons h
    constructor
    · rintro ⟨hd⟩
      exact congrArg some ((Subpattern.describes_iff hs).mp hd)
    · rintro rfl
      exact .some ((Subpattern.describes_iff hs).mpr rfl)

theorem Form.describes_iff {form : Form} {pattern : NumberPattern}
    (h : .quoted [] ∉ form.tokens) : form.Describes pattern ↔ pattern = form.pattern := by
  simp only [Form.tokens, List.mem_append, not_or] at h
  constructor
  · rintro ⟨hlayout, hpositive, hnegative⟩
    cases pattern
    rw [Form.pattern, ← hlayout, ← (Subpattern.describes_iff h.1).mp hpositive,
      ← (describes_negative_iff h.2).mp hnegative]
  · rintro rfl
    exact ⟨rfl, (Subpattern.describes_iff h.1).mpr rfl, (describes_negative_iff h.2).mpr rfl⟩

theorem map_affixes_of_rel {negative negative' : Option Subpattern}
    (h : Option.Rel Subpattern.SameAffixes negative negative') :
    negative.map Subpattern.affixes = negative'.map Subpattern.affixes := by
  cases h with
  | none => rfl
  | some h => simp [Subpattern.affixes, h.1, h.2]

theorem Form.tokens_ne_nil (form : Form) : form.tokens ≠ [] := by
  intro h
  have hnumber : form.positive.number.tokens = [] := by
    rw [Form.tokens, Subpattern.tokens] at h
    simp_all
  rcases form.isPresent with h | h | h <;> simp [hnumber] at h

variable {pattern : Text} {form : Form}

theorem ne_nil_of_complete? (h : (tokens pattern).complete? = some form.tokens) :
    pattern ≠ [] := by
  rintro rfl
  rw [tokens, tokensFrom] at h
  exact form.tokens_ne_nil (Option.some.inj h).symm

theorem parse_of_complete? (h : (tokens pattern).complete? = some form.tokens) :
    parse pattern = .ok form.pattern := by
  obtain ⟨start, hreads⟩ := complete?_eq_some_iff.mp h
  rw [parse, if_neg (ne_nil_of_complete? h)]
  exact ofTokens_eq_ok_iff.mpr ⟨form, start, hreads, rfl⟩

theorem exists_form_of_parse {p : NumberPattern} (h : parse pattern = .ok p) :
    pattern ≠ [] ∧ ∃ form : Form, (tokens pattern).complete? = some form.tokens := by
  rw [parse] at h
  split at h
  · cases h
  · rename_i hne
    obtain ⟨form, start, hreads, -⟩ := ofTokens_eq_ok_iff.mp h
    exact ⟨hne, form, complete?_eq_some_iff.mpr ⟨start, hreads⟩⟩

/-- A group has a place, and is part of the integer part. -/
theorem groupSize_of_parse {p : NumberPattern} {size : Nat} (h : parse pattern = .ok p)
    (hs : p.layout.groupSize = some size) : size ≠ 0 ∧ size ≤ p.layout.integer.length := by
  obtain ⟨-, form, hform⟩ := exists_form_of_parse h
  obtain rfl := Except.ok.inj (h.symm.trans (parse_of_complete? hform))
  obtain ⟨hlast, hne⟩ := Option.filter_eq_some_iff.mp hs
  obtain ⟨last, hmem, rfl⟩ := Option.map_eq_some_iff.mp hlast
  refine ⟨by simpa using hne, ?_⟩
  have hle := (List.sublist_flatten_of_mem (List.mem_of_getLast? hmem)).length_le
  exact Nat.le_trans hle (by simp [Form.pattern, NumberForm.layout, NumberForm.integer])

/-- A pattern is read exactly if it is written by the grammar, and what is read is what its form
describes. The number of the second subpattern does not matter. -/
theorem parse_iff_form (pattern : Text) :
    ((∃ p, parse pattern = .ok p) ↔
      pattern ≠ [] ∧ ∃ form : Form, (tokens pattern).complete? = some form.tokens) ∧
    (∀ form : Form, (tokens pattern).complete? = some form.tokens →
      ∀ p, parse pattern = .ok p ↔ form.Describes p) ∧
    ∀ (form form' : Form) (pattern' : Text),
      (tokens pattern).complete? = some form.tokens →
      (tokens pattern').complete? = some form'.tokens →
      form.positive = form'.positive →
      Option.Rel Subpattern.SameAffixes form.negative form'.negative →
      parse pattern = parse pattern' := by
  refine ⟨⟨?_, ?_⟩, ?_, ?_⟩
  · rintro ⟨p, hp⟩
    exact exists_form_of_parse hp
  · rintro ⟨-, form, hform⟩
    exact ⟨_, parse_of_complete? hform⟩
  · intro form hform p
    obtain ⟨start, hreads⟩ := complete?_eq_some_iff.mp hform
    rw [parse_of_complete? hform, Form.describes_iff (quoted_nil_not_mem hreads)]
    exact ⟨fun h => (Except.ok.inj h).symm, fun h => congrArg _ h.symm⟩
  · intro form form' pattern' hform hform' hpositive hnegative
    rw [parse_of_complete? hform, parse_of_complete? hform', Form.pattern, Form.pattern,
      hpositive, map_affixes_of_rel hnegative]

/-- The form of `#,##0.0#;(0)`, with any number between the parentheses. -/
def accountingForm (number : NumberForm) (h : number.tokens ≠ []) : Form where
  positive :=
    ⟨[], ⟨[.optional], [[.optional, .optional, .required]], some [.required, .optional], none, by
      simp⟩, [], rfl, rfl, fun _ => rfl⟩
  negative := some ⟨[.literal '('], number, [.literal ')'], rfl, rfl, fun hn => absurd hn h⟩
  isPresent := by decide

theorem parse_iff_form_accounting :
    (∀ p, parse "#,##0.0#;(0)".toList = .ok p ↔
      (accountingForm ⟨[.required], [], none, none, by simp⟩ (by decide)).Describes p) ∧
    parse "#,##0.0#;(0)".toList = parse "#,##0.0#;(.#)".toList := by
  have h : (tokens "#,##0.0#;(0)".toList).complete? =
      some (accountingForm ⟨[.required], [], none, none, by simp⟩ (by decide)).tokens := by
    decide +kernel
  have h' : (tokens "#,##0.0#;(.#)".toList).complete? =
      some (accountingForm ⟨[], [], some [.optional], none, by simp⟩ (by decide)).tokens := by
    decide +kernel
  obtain ⟨-, hdescribes, hsame⟩ := parse_iff_form "#,##0.0#;(0)".toList
  exact ⟨hdescribes _ h, hsame _ _ _ h h' rfl (.some ⟨rfl, rfl⟩)⟩

end CellDisplay.NumberPattern
