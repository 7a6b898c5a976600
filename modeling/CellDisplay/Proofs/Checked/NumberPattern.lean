import CellDisplay.Checked.NumberPattern
import CellDisplay.Proofs.Checked.Text
import CellDisplay.Proofs.NumberPattern.Parsing
import CellDisplay.Proofs.NumberPattern.Position

/-! # Number patterns are read within bounds

Tokens end where the next ones start, on boundaries of the pattern, so that a token out of
place is found at its offset. Grouping separators are counted before the places behind them,
and the size of a group is not negative.
-/

namespace CellDisplay.Checked

open NumberPattern

section Tokens

variable {pattern front t : Text} {c : Char} {n : Nat}

theorem charAt_of_nil (hp : pattern = front) : charAt pattern front.utf8Length = some none := by
  have hs := sliceFrom_append front []
  rw [List.append_nil, ← hp] at hs
  rw [charAt, ← hp, hs]
  rfl

theorem charAt_of_cons (hp : pattern = front ++ c :: t) (h : pattern.utf8Length < 2 ^ 64) :
    charAt pattern front.utf8Length = some (some (c, (front ++ [c]).utf8Length)) := by
  subst hp
  simp only [Text.utf8Length_append, Text.utf8Length_cons, Text.utf8Length_nil] at h ⊢
  have hnext : (front.utf8Length + c.utf8Size : U64).value? =
      some (front.utf8Length + c.utf8Size) := Unsigned.value?_ofNat_add (by omega)
  simp only [charAt, sliceFrom_append, Option.bind_eq_bind, Option.bind_some, hnext]
  rfl

theorem runFrom_eq (hp : pattern = front ++ t) (h : pattern.utf8Length < 2 ^ 64)
    (hn : t.length < n) :
    runFrom pattern n front.utf8Length =
      some ((closeRun t).map fun (text, _) =>
        (text, front.utf8Length + (doubled text ++ [apostrophe]).utf8Length)) := by
  induction n generalizing front t with
  | zero => exact absurd hn (Nat.not_lt_zero _)
  | succ n ih =>
    cases t with
    | nil =>
      rw [runFrom, charAt_of_nil (by simpa using hp)]
      rfl
    | cons c t =>
      rw [runFrom, charAt_of_cons hp h]
      by_cases hc : c = apostrophe
      · obtain rfl := hc
        have hnext : pattern = (front ++ [apostrophe]) ++ t := by simp [hp]
        cases t with
        | nil =>
          have hd : ([] : Text).head? ≠ some apostrophe := by simp
          simp only [Option.bind_eq_bind, Option.bind_some, if_pos,
            charAt_of_nil (hnext.trans (List.append_nil _)), closeRun_close hd]
          simp
        | cons d t =>
          simp only [Option.bind_eq_bind, Option.bind_some, if_pos, charAt_of_cons hnext h]
          by_cases hd : d = apostrophe
          · obtain rfl := hd
            have hafter : pattern = (front ++ [apostrophe] ++ [apostrophe]) ++ t := by simp [hp]
            simp only [if_pos, ih hafter (by simp at hn; omega), Option.bind_some, closeRun_pair]
            cases closeRun t <;> simp [Nat.add_assoc]
          · have hclose : (d :: t).head? ≠ some apostrophe := by simpa using hd
            simp only [if_neg hd, closeRun_close hclose]
            simp
      · have hnext : pattern = (front ++ [c]) ++ t := by simp [hp]
        have hrec := ih hnext (Nat.lt_of_succ_lt_succ hn)
        simp only [Option.bind_eq_bind, Option.bind_some, if_neg hc, hrec, closeRun_cons hc]
        cases closeRun t <;> simp [doubled_cons hc, Nat.add_assoc]

/-- What the step at a text that starts at an offset reads. -/
def Lexeme.ofStep (start : Nat) : Step t → Lexeme
  | .finished => finished
  | .unclosed => unclosed
  | .token found _ _ => .token found (start + found.written.utf8Length)

theorem lexemeAt_eq (hp : pattern = front ++ t) (h : pattern.utf8Length < 2 ^ 64) :
    lexemeAt pattern front.utf8Length = some (.ofStep front.utf8Length (step t)) := by
  cases t with
  | nil =>
    rw [lexemeAt, charAt_of_nil (by simpa using hp)]
    rfl
  | cons c t =>
    rw [lexemeAt, charAt_of_cons hp h]
    by_cases hc : c = apostrophe
    · obtain rfl := hc
      have hnext : pattern = (front ++ [apostrophe]) ++ t := by simp [hp]
      simp only [Option.bind_eq_bind, Option.bind_some, if_pos, step]
      cases t with
      | nil =>
        rw [quotedAt, charAt_of_nil (hnext.trans (List.append_nil _))]
        rfl
      | cons d t =>
        rw [quotedAt, charAt_of_cons hnext h]
        by_cases hd : d = apostrophe
        · obtain rfl := hd
          simp [Lexeme.ofStep, Token.written]
        · have hn : (d :: t).length < pattern.utf8Length + 1 := by
            have := length_le_utf8Length pattern
            simp only [hp, List.length_append, List.length_cons] at this ⊢
            omega
          simp only [Option.bind_eq_bind, Option.bind_some, if_neg hd, runFrom_eq hnext h hn]
          split <;> rename_i hrun
          · rw [Option.map_eq_none_iff] at hrun
            split
            · rfl
            · simp_all
          · obtain ⟨⟨text, after⟩, hclose, htext⟩ := Option.map_eq_some_iff.mp hrun
            split
            · simp_all
            · simp_all [Lexeme.ofStep, Token.written, Nat.add_assoc]
    · simp [if_neg hc, step, Lexeme.ofStep, written_ofChar hc]

theorem tokensFrom_eq (hp : pattern = front ++ t) (h : pattern.utf8Length < 2 ^ 64)
    (hn : t.length < n) :
    tokensFrom pattern n front.utf8Length =
      some (NumberPattern.tokensFrom front.utf8Length t) := by
  induction n generalizing front t with
  | zero => exact absurd hn (Nat.not_lt_zero _)
  | succ n ih =>
    rw [tokensFrom, lexemeAt_eq hp h, NumberPattern.tokensFrom]
    simp only [Option.bind_eq_bind, Option.bind_some]
    cases hs : step t with
    | finished => rfl
    | unclosed => rfl
    | token token rest shorter =>
      have hrest : pattern = (front ++ token.written) ++ rest := by
        rw [hp, (isReadBefore_of_step hs).1, List.append_assoc]
      have hrec := ih hrest (by omega)
      rw [Text.utf8Length_append] at hrec
      simp only [Lexeme.ofStep, hrec]
      rfl

theorem tokens_eq (h : pattern.utf8Length < 2 ^ 64) :
    tokens pattern = some (NumberPattern.tokens pattern) := by
  have hn := Nat.lt_succ_of_le (length_le_utf8Length pattern)
  exact tokensFrom_eq (List.nil_append pattern).symm h hn

/-- A token out of place is found at its offset. -/
theorem unexpected_eq {token : Token} {start : Nat} {rest : Tokens}
    (h : Placed pattern (.next token start rest)) :
    unexpected pattern start = some (.ofToken token start) := by
  obtain ⟨front, t, hp, ht⟩ := h
  obtain ⟨rfl, u, rfl, -⟩ := tokensFrom_eq_next_iff.mp ht.symm
  obtain ⟨tail, hw⟩ := written_eq_cons token
  rw [unexpected, hp, sliceFrom_append, hw]
  rfl

end Tokens

section Parser

variable {ε α β : Type} {pattern : Text} {tokens : Tokens}

theorem run_bind_eq {x : ExceptT ε Option α} {y : Except ε α} {f : α → ExceptT ε Option β}
    {g : α → Except ε β} (hx : x.run = some y) (hf : ∀ a, y = .ok a → (f a).run = some (g a)) :
    (x >>= f).run = some (y >>= g) := by
  rw [ExceptT.run_bind, hx]
  cases y with
  | ok a => exact hf a rfl
  | error e => rfl

theorem run_lift {x : Option α} {a : α} (h : x = some a) :
    (ExceptT.lift x : ExceptT ε Option α).run = some (.ok a) := by
  subst h
  rfl

theorem run_lift_bind {x : Option α} {a : α} (h : x = some a) (f : α → ExceptT ε Option β) :
    (ExceptT.lift x >>= f).run = (f a).run := by
  subst h
  rfl

theorem run_readExponent {start : Nat} (h : Placed pattern tokens)
    (hp : pattern.utf8Length < 2 ^ 64) :
    (readExponent start tokens).run = some (NumberPattern.readExponent start tokens) := by
  conv_rhs => rw [← bind_pure (NumberPattern.readExponent start tokens)]
  refine run_bind_eq rfl fun ⟨exponent, rest⟩ he => ?_
  obtain ⟨e, hr, -, rfl⟩ := reads_of_readExponent he
  have hzeros : e.zeros < 2 ^ 64 := by
    have hlength := h.length_le hr
    simp only [ExponentForm.tail, List.length_append, List.length_replicate] at hlength
    omega
  exact run_lift_bind (Unsigned.value?_ofNat hzeros) _

namespace Partial

/-- What is read of a number by its integer marks. -/
def ofMarks (marks : List IntegerMark) : Partial :=
  marks.foldl
    (fun number mark =>
      match mark with
      | .place placeholder => number.push placeholder
      | .grouping => number.separate)
    empty

/-- What is read of a number by its integer marks and the places behind the point, if any. -/
def ofParts (marks : List IntegerMark) (fraction : Option (List Placeholder)) : Partial :=
  { ofMarks marks with fraction := fraction.getD [], pointed := fraction.isSome }

variable {marks : List IntegerMark}

theorem ofMarks_concat_place (placeholder : Placeholder) :
    ofMarks (marks ++ [.place placeholder]) = (ofMarks marks).push placeholder :=
  List.foldl_concat ..

theorem ofMarks_concat_grouping :
    ofMarks (marks ++ [.grouping]) = (ofMarks marks).separate :=
  List.foldl_concat ..

theorem ofMarks_eq (marks : List IntegerMark) :
    ofMarks marks = ⟨IntegerMark.places marks, [], false, (ofMarks marks).lastGrouping⟩ := by
  induction marks using List.reverseRecOn with
  | nil => rfl
  | append_singleton marks mark ih =>
    cases mark with
    | place placeholder =>
      rw [ofMarks_concat_place, ih]
      simp [push, IntegerMark.places]
    | grouping =>
      rw [ofMarks_concat_grouping, ih]
      simp [separate, IntegerMark.places]

/-- The places before the last separator and those behind it are all places. -/
theorem lastGrouping_ofMarks (marks : List IntegerMark) :
    match (ofMarks marks).lastGrouping with
    | none => .grouping ∉ marks
    | some before => .grouping ∈ marks ∧
        before + (marks.reverse.takeWhile (· ≠ .grouping)).length =
          (IntegerMark.places marks).length := by
  induction marks using List.reverseRecOn with
  | nil => simp [ofMarks, empty]
  | append_singleton marks mark ih =>
    cases mark with
    | place placeholder =>
      rw [ofMarks_concat_place, push, ofMarks_eq]
      simp only [Bool.false_eq_true, if_false]
      split <;> simp_all [IntegerMark.places, ← Nat.add_assoc]
    | grouping =>
      rw [ofMarks_concat_grouping, ofMarks_eq]
      simp [separate, IntegerMark.places]

theorem ofParts_eq (marks : List IntegerMark) (fraction : Option (List Placeholder)) :
    ofParts marks fraction =
      ⟨IntegerMark.places marks, fraction.getD [], fraction.isSome,
        (ofMarks marks).lastGrouping⟩ := by
  rw [ofParts, ofMarks_eq]

theorem groupSize_ofParts (fraction : Option (List Placeholder)) (h : marks.length < 2 ^ 64) :
    (ofParts marks fraction).groupSize = some (IntegerMark.groupSize marks) := by
  have hlast := lastGrouping_ofMarks marks
  have hlength : (IntegerMark.places marks).length ≤ marks.length := List.length_filterMap_le ..
  rw [ofParts_eq, groupSize, IntegerMark.groupSize]
  cases hbefore : (ofMarks marks).lastGrouping with
  | none =>
    rw [hbefore] at hlast
    exact congrArg some (if_neg fun h => hlast h.1).symm
  | some before =>
    rw [hbefore] at hlast
    obtain ⟨hmem, hsum⟩ := hlast
    dsimp only
    rw [Unsigned.value?_ofNat_sub (by omega) (by omega), ← hsum, Nat.add_sub_cancel_left,
      if_congr (and_iff_right hmem) rfl rfl, ite_not]
    rfl

theorem layout?_ofParts (fraction : Option (List Placeholder)) (exponent : Option Exponent)
    (h : marks.length < 2 ^ 64) :
    (ofParts marks fraction).layout? exponent =
      some (if IntegerMark.places marks = [] ∧ fraction = none then none
        else some ⟨IntegerMark.places marks, fraction.getD [], IntegerMark.groupSize marks,
          exponent⟩) := by
  rw [layout?, groupSize_ofParts fraction h, ofParts_eq]
  cases fraction with
  | none => split <;> simp_all
  | some places => simp

end Partial

/-- What is read behind the integer part of a number. -/
def readBehind (marks : List IntegerMark) (fraction : Option (List Placeholder))
    (tokens : Tokens) : Except Fault (Partial × Option Exponent × Tokens) := do
  let exponent ← readScaled (IntegerMark.places marks ++ fraction.getD []) tokens
  return (.ofParts marks fraction, exponent.1, exponent.2)

theorem run_readNumber_exponent {marks : List IntegerMark}
    {fraction : Option (List Placeholder)} {start : Nat} (h : Placed pattern tokens)
    (hp : pattern.utf8Length < 2 ^ 64) :
    (readNumber pattern (.ofParts marks fraction) (.next .exponent start tokens)).run =
      some (readBehind marks fraction (.next .exponent start tokens)) := by
  rw [readNumber, readBehind, readScaled, Partial.ofParts_eq]
  simp only [← List.append_eq_nil_iff]
  split
  · rfl
  · simp only [bind_assoc, pure_bind]
    exact run_bind_eq (run_readExponent h hp) fun _ _ => rfl

theorem separate_ofParts_none (marks : List IntegerMark) :
    (Partial.ofParts marks none).separate = .ofParts (marks ++ [.grouping]) none := by
  rw [Partial.ofParts, Partial.ofParts, Partial.ofMarks_concat_grouping, Partial.ofMarks_eq]
  rfl

theorem push_ofParts (marks : List IntegerMark) (places : List Placeholder)
    (placeholder : Placeholder) :
    (Partial.ofParts marks (some places)).push placeholder =
      .ofParts marks (some (places ++ [placeholder])) := by
  rw [Partial.ofParts_eq, Partial.ofParts_eq]
  rfl

theorem push_ofParts_none (marks : List IntegerMark) (placeholder : Placeholder) :
    (Partial.ofParts marks none).push placeholder =
      .ofParts (marks ++ [.place placeholder]) none := by
  rw [Partial.ofParts, Partial.ofParts, Partial.ofMarks_concat_place, Partial.ofMarks_eq]
  rfl

theorem run_readNumber_pointed {marks : List IntegerMark} {places : List Placeholder}
    (h : Placed pattern tokens) (hp : pattern.utf8Length < 2 ^ 64) :
    (readNumber pattern (.ofParts marks (some places)) tokens).run = some (do
      let fraction ← readFraction tokens
      readBehind marks (some (places ++ fraction.1)) fraction.2) := by
  induction tokens generalizing places with
  | finished start =>
    simp only [readFraction, pure_bind, List.append_nil]
    rfl
  | unclosed start => rfl
  | next token start rest ih =>
    have ih := fun places => @ih places h.of_next
    cases token with
    | zero => simp [readNumber, readFraction, push_ofParts, ih]
    | hash => simp [readNumber, readFraction, push_ofParts, ih]
    | grouping =>
      rw [readNumber, Partial.ofParts_eq]
      exact run_lift_bind (unexpected_eq h) _
    | point =>
      rw [readNumber, Partial.ofParts_eq]
      rfl
    | exponent => simp [readFraction, run_readNumber_exponent h.of_next hp]
    | _ =>
      simp only [readFraction, pure_bind, List.append_nil]
      rfl

theorem run_readNumber_marks {front : List IntegerMark} (h : Placed pattern tokens)
    (hp : pattern.utf8Length < 2 ^ 64) :
    (readNumber pattern (.ofParts front none) tokens).run = some (do
      let integer ← readInteger tokens
      let fraction ← readPointed integer.2
      readBehind (front ++ integer.1) fraction.1 fraction.2) := by
  induction tokens generalizing front with
  | finished start =>
    simp only [readInteger, readPointed, pure_bind, List.append_nil]
    rfl
  | unclosed start => rfl
  | next token start rest ih =>
    have ih := fun front => @ih front h.of_next
    cases token with
    | zero => simp [readNumber, readInteger, push_ofParts_none, ih]
    | hash => simp [readNumber, readInteger, push_ofParts_none, ih]
    | grouping =>
      have hpointed : (Partial.ofParts front none).pointed = false := rfl
      simp [readNumber, readInteger, hpointed, separate_ofParts_none, ih]
    | point =>
      have hnumber : { Partial.ofParts front none with pointed := true } =
          Partial.ofParts front (some []) := rfl
      have hpointed : (Partial.ofParts front none).pointed = false := rfl
      simp [readNumber, readInteger, readPointed, hpointed, hnumber,
        run_readNumber_pointed h.of_next hp]
    | exponent => simp [readInteger, readPointed, run_readNumber_exponent h.of_next hp]
    | _ =>
      simp only [readInteger, readPointed, pure_bind, List.append_nil]
      rfl

theorem run_readLayout (h : Placed pattern tokens) (hp : pattern.utf8Length < 2 ^ 64) :
    (readLayout pattern tokens).run = some (NumberPattern.readLayout tokens) := by
  rw [readLayout_eq, readLayout, ExceptT.run_bind, show Partial.empty = .ofParts [] none from rfl,
    run_readNumber_marks h hp]
  cases hi : readInteger tokens with
  | error => rfl
  | ok integer =>
    obtain ⟨marks, behind⟩ := integer
    have hlength : marks.length < 2 ^ 64 := by
      have hle := h.length_le (readInteger_eq_ok_iff.mp hi).1
      rw [List.length_map] at hle
      omega
    cases hf : readPointed behind with
    | error => simp [hf, bind, Except.bind]
    | ok fraction =>
      obtain ⟨fraction, rest⟩ := fraction
      cases he : readScaled (IntegerMark.places marks ++ fraction.getD []) rest with
      | error => simp [hf, he, bind, Except.bind, readBehind]
      | ok exponent =>
        simp only [hf, he, bind, Except.bind, readBehind, Option.bind, pure, Except.pure,
          List.nil_append]
        refine (run_lift_bind (Partial.layout?_ofParts fraction exponent.1 hlength) _).trans ?_
        split <;> rfl

theorem run_readSubpattern (h : Placed pattern tokens) (hp : pattern.utf8Length < 2 ^ 64) :
    (readSubpattern pattern tokens).run = some (NumberPattern.readSubpattern tokens) := by
  rw [readSubpattern, NumberPattern.readSubpattern]
  refine run_bind_eq rfl fun ⟨before, behindBefore⟩ hb => ?_
  obtain ⟨_, hr, -⟩ := readAffix_eq_ok_iff.mp hb
  have h := h.of_reads hr
  refine run_bind_eq (run_readLayout h hp) fun ⟨layout, behindLayout⟩ hl => ?_
  obtain ⟨_, hr, -⟩ := reads_of_readLayout hl
  have h := h.of_reads hr
  refine run_bind_eq rfl fun ⟨after, rest⟩ ha => ?_
  obtain ⟨_, hr, -⟩ := readAffix_eq_ok_iff.mp ha
  have h := h.of_reads hr
  cases rest with
  | finished start => rfl
  | unclosed start => rfl
  | next token start rest =>
    cases token with
    | separator => rfl
    | _ => exact run_lift_bind (unexpected_eq h) _

theorem run_ofTokens (h : Placed pattern tokens) (hp : pattern.utf8Length < 2 ^ 64) :
    (ofTokens pattern tokens).run = some (NumberPattern.ofTokens tokens) := by
  rw [ofTokens, NumberPattern.ofTokens]
  refine run_bind_eq (run_readSubpattern h hp) fun ⟨positive, layout, rest⟩ hs => ?_
  obtain ⟨_, hr, -⟩ := readSubpattern_eq_ok_iff.mp hs
  have h := h.of_reads hr
  cases layout with
  | none => rfl
  | some layout =>
    cases rest with
    | finished start => rfl
    | unclosed start => rfl
    | next token start rest =>
      cases token with
      | separator =>
        refine run_bind_eq (run_readSubpattern h.of_next hp) fun ⟨negative, _, rest⟩ _ => ?_
        cases rest with
        | next token start rest => cases token <;> rfl
        | _ => rfl
      | _ => rfl

/-- A pattern is read within bounds. -/
theorem run_parse (hp : pattern.utf8Length < 2 ^ 64) :
    (parse pattern).run = some (NumberPattern.parse pattern) := by
  rw [parse, NumberPattern.parse]
  split
  · rfl
  · exact (run_lift_bind (tokens_eq hp) _).trans (run_ofTokens (placed_tokens pattern) hp)

end Parser

end CellDisplay.Checked
