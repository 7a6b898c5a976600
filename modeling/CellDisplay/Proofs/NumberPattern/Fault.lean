import CellDisplay.Proofs.NumberPattern.Position

/-! # Where the faults of a pattern lie

A reader looks at the tokens that it reads and at the next one. If the next one is out of place,
the fault lies there, whatever follows.
-/

namespace CellDisplay.NumberPattern

namespace Fault

/-- A token that can stand in other places is reported. -/
def isMisplaced : Fault → Bool
  | unexpected .. | secondPoint _ => true
  | _ => false

/-- The fault lies where the rest of the tokens starts, behind a run of them. -/
def LiesBehind (run : List Token) (rest : Tokens) : Fault → Prop
  | unexpected position found =>
    ∃ token after, token.isNumber ∧ token.firstChar = found ∧ rest = .next token position after
  | secondPoint position =>
    ∃ (before : List Token) (places : List Placeholder) (after : Tokens),
      run = before ++ .point :: places.map Placeholder.token ∧ rest = .next .point position after
  | malformedExponent position => ∃ after, rest = .next .exponent position after
  | unclosedQuote position => rest = .unclosed position
  | noDigits | tooManySections | empty => True

end Fault

/-- Both go on with the same token. -/
def Tokens.Alike : Tokens → Tokens → Prop
  | next token _ _, next token' _ _ => token = token'
  | _, _ => False

section Tokens

variable {p : Token → Bool} {tokens tokens' rest rest' : Tokens} {run : List Token} {fault : Fault}

theorem Fault.LiesBehind.append (h : fault.LiesBehind run rest) (front : List Token) :
    fault.LiesBehind (front ++ run) rest := by
  cases fault with
  | secondPoint =>
    obtain ⟨before, places, after, rfl, rfl⟩ := h
    exact ⟨front ++ before, places, after, (List.append_assoc ..).symm, rfl⟩
  | _ => exact h

theorem Tokens.Alike.stopsAt (h : rest.Alike rest') (hstop : rest.StopsAt p) : rest'.StopsAt p := by
  cases rest with
  | next token =>
    cases rest' with
    | next token' =>
      obtain rfl : token = token' := h
      exact hstop
    | _ => cases h
  | _ => cases h

theorem Tokens.Alike.ne_next {token : Token} (h : rest.Alike rest')
    (hne : ∀ start after, rest = .next token start after → False) (start : Nat) (after : Tokens) :
    rest' ≠ .next token start after := by
  rintro rfl
  cases rest with
  | next token' start' after' =>
    obtain rfl : token' = token := h
    exact hne start' after' rfl
  | _ => cases h

theorem Reads.alike (h : Reads tokens run rest) (h' : Reads tokens' run rest')
    (ha : rest.Alike rest') : tokens.Alike tokens' := by
  cases h with
  | nil =>
    cases h'
    exact ha
  | cons =>
    cases h'
    rfl

end Tokens

/-- The fault lies behind some of the tokens. If a token is out of place, the reader reports the
same fault there whatever follows that token. -/
def FailsAt {α : Type} (read : Tokens → Except Fault α) (tokens : Tokens) (fault : Fault) : Prop :=
  ∃ run rest, Reads tokens run rest ∧ fault.LiesBehind run rest ∧
    (fault.isMisplaced → ∀ tokens' rest', Reads tokens' run rest' → rest.Alike rest' →
      rest.start = rest'.start → read tokens' = .error fault)

/-- Every fault that the reader reports lies at a token. -/
def FailsAtToken {α : Type} (read : Tokens → Except Fault α) : Prop :=
  ∀ tokens fault, read tokens = .error fault → FailsAt read tokens fault

/-- The reader looks at the tokens that it reads and at the next one. -/
structure LooksAhead {α : Type} (read : Tokens → Except Fault (α × Tokens)) : Prop where
  ok : ∀ tokens a rest, read tokens = .ok (a, rest) →
    ∃ run, Reads tokens run rest ∧
      ∀ tokens' rest', Reads tokens' run rest' → rest.Alike rest' → read tokens' = .ok (a, rest')
  fails : FailsAtToken read

section Sequence

variable {α β : Type} {read : Tokens → Except Fault (α × Tokens)}

theorem LooksAhead.bind_fails {f : α × Tokens → Except Fault β} (h : LooksAhead read)
    (hf : ∀ a, FailsAtToken fun rest => f (a, rest)) :
    FailsAtToken fun tokens => read tokens >>= f := by
  intro tokens fault he
  rcases bind_eq_error.mp he with he | ⟨⟨a, middle⟩, ha, he⟩
  · obtain ⟨run, rest, hr, hlies, hsame⟩ := h.fails tokens fault he
    refine ⟨run, rest, hr, hlies, ?_⟩
    intro hmisplaced tokens' rest' hr' halike hstart
    exact bind_eq_error.mpr (.inl (hsame hmisplaced tokens' rest' hr' halike hstart))
  · obtain ⟨front, hfront, hok⟩ := h.ok tokens a middle ha
    obtain ⟨run, rest, hr, hlies, hsame⟩ := hf a middle fault he
    refine ⟨front ++ run, rest, hfront.append hr, hlies.append front, ?_⟩
    intro hmisplaced tokens' rest' hr' halike hstart
    -- The first reader stops at the same token in both, as what the second one reads starts there.
    obtain ⟨middle', hfront', hr'⟩ := reads_append_iff.mp hr'
    have hmiddle := hr.alike hr' halike
    exact bind_eq_error.mpr (.inr ⟨_, hok tokens' middle' hfront' hmiddle,
      hsame hmisplaced middle' rest' hr' halike hstart⟩)

theorem LooksAhead.bind {f : α × Tokens → Except Fault (β × Tokens)} (h : LooksAhead read)
    (hf : ∀ a, LooksAhead fun rest => f (a, rest)) :
    LooksAhead fun tokens => read tokens >>= f := by
  refine ⟨?_, h.bind_fails fun a => (hf a).fails⟩
  intro tokens b rest hb
  obtain ⟨⟨a, middle⟩, ha, hb⟩ := bind_eq_ok.mp hb
  obtain ⟨front, hfront, hok⟩ := h.ok tokens a middle ha
  obtain ⟨run, hr, hsame⟩ := (hf a).ok middle b rest hb
  refine ⟨front ++ run, hfront.append hr, ?_⟩
  intro tokens' rest' hr' halike
  obtain ⟨middle', hfront', hr'⟩ := reads_append_iff.mp hr'
  have hmiddle := hr.alike hr' halike
  exact bind_eq_ok.mpr ⟨_, hok tokens' middle' hfront' hmiddle, hsame middle' rest' hr' halike⟩

theorem looksAhead_pure (a : α) : LooksAhead fun tokens => pure (a, tokens) where
  ok tokens a rest h := by
    cases h
    refine ⟨[], .nil _, ?_⟩
    intro tokens' rest' hr _
    obtain rfl := reads_nil_iff.mp hr
    rfl
  fails tokens fault h := by cases h

theorem failsAt_of_not_isMisplaced {read : Tokens → Except Fault α} {tokens rest : Tokens}
    {run : List Token} {fault : Fault} (hr : Reads tokens run rest)
    (hlies : fault.LiesBehind run rest) (hno : fault.isMisplaced = false) :
    FailsAt read tokens fault :=
  ⟨run, rest, hr, hlies, fun h => absurd h (Bool.eq_false_iff.mp hno)⟩

/-- A fault of the pattern as a whole lies nowhere. -/
theorem failsAtToken_of_whole {read : Tokens → Except Fault α}
    (h : ∀ tokens fault, read tokens = .error fault →
      fault = .noDigits ∨ fault = .tooManySections) : FailsAtToken read := by
  intro tokens fault he
  rcases h tokens fault he with rfl | rfl
  · exact failsAt_of_not_isMisplaced (.nil tokens) trivial rfl
  · exact failsAt_of_not_isMisplaced (.nil tokens) trivial rfl

end Sequence

/-- The reader fails at a run that is not closed, and at the tokens between its two classes. -/
structure Refuses {α : Type} (read : Tokens → Except Fault (α × Tokens)) (p q : Token → Bool)
    (refusal : Token → Nat → Fault) : Prop where
  unclosed (start : Nat) : read (.unclosed start) = .error (.unclosedQuote start)
  refuse {token : Token} (start : Nat) (rest : Tokens) : p token = false → q token →
    read (.next token start rest) = .error (refusal token start)

/-- The next token is one at which such a reader fails. -/
def Tokens.Refused (p q : Token → Bool) (refusal : Token → Nat → Fault) (fault : Fault) :
    Tokens → Prop
  | finished _ => False
  | unclosed start => fault = .unclosedQuote start
  | next token start _ => p token = false ∧ q token ∧ fault = refusal token start

section Runs

variable {α : Type} {read : Tokens → Except Fault (α × Tokens)} {p q : Token → Bool}
  {f : Token → α → α} {a : α} {refusal : Token → Nat → Fault} {fault : Fault}
  {tokens rest rest' : Tokens}

/-- A reader of one class fails at runs that are not closed only. -/
theorem refuses_self (h : ∀ start, read (.unclosed start) = .error (.unclosedQuote start)) :
    Refuses read p p refusal where
  unclosed := h
  refuse _ _ hp hq := by simp [hp] at hq

theorem Tokens.Refused.of_alike (h : rest.Refused p q refusal fault) (ha : rest.Alike rest')
    (hstart : rest.start = rest'.start) : rest'.Refused p q refusal fault := by
  cases rest with
  | next token start =>
    cases rest' with
    | next token' start' =>
      obtain rfl : token = token' := ha
      obtain rfl : start = start' := hstart
      exact h
    | _ => cases ha
  | _ => cases ha

/-- The reader fails at the first token that is not of its run. -/
theorem FoldsRun.eq_error_iff (h : FoldsRun read p q f a) (hr : Refuses read p q refusal) :
    read tokens = .error fault ↔
      ∃ run rest, Reads tokens run rest ∧ run.all p ∧ rest.Refused p q refusal fault := by
  constructor
  · intro he
    induction tokens with
    | finished start =>
      rw [h.finished] at he
      cases he
    | unclosed start =>
      rw [hr.unclosed] at he
      cases he
      exact ⟨[], _, .nil _, rfl, rfl⟩
    | next token start after ih =>
      cases hp : p token with
      | true =>
        rw [h.take start after hp] at he
        rcases bind_eq_error.mp he with he | ⟨_, -, he⟩
        · obtain ⟨run, rest, hrun, hall, hrefused⟩ := ih he
          exact ⟨token :: run, rest, .cons hrun, by simp [hp, hall], hrefused⟩
        · cases he
      | false =>
        cases hq : q token with
        | true =>
          rw [hr.refuse start after hp hq] at he
          cases he
          exact ⟨[], _, .nil _, rfl, hp, hq, rfl⟩
        | false =>
          rw [h.stop start after hq] at he
          cases he
  · rintro ⟨run, rest, hrun, hall, hrefused⟩
    induction hrun with
    | nil tokens =>
      cases tokens with
      | finished => cases hrefused
      | unclosed start => exact hrefused ▸ hr.unclosed start
      | next token start after =>
        obtain ⟨hp, hq, rfl⟩ := hrefused
        exact hr.refuse start after hp hq
    | cons _ ih =>
      rw [List.all_cons, Bool.and_eq_true] at hall
      rw [h.take _ _ hall.1]
      exact bind_eq_error.mpr (.inl (ih hall.2 hrefused))

theorem FoldsRun.looksAhead (h : FoldsRun read p q f a) (hr : Refuses read p q .ofToken)
    (hnumber : ∀ token, p token = false → q token → token.isNumber) : LooksAhead read where
  ok tokens b rest hb := by
    obtain ⟨run, hrun, hstop, hall, rfl⟩ := h.eq_ok_iff.mp hb
    refine ⟨run, hrun, ?_⟩
    intro tokens' rest' hrun' halike
    exact h.eq_ok_iff.mpr ⟨run, hrun', halike.stopsAt hstop, hall, rfl⟩
  fails tokens fault he := by
    obtain ⟨run, rest, hrun, hall, hrefused⟩ := (h.eq_error_iff hr).mp he
    refine ⟨run, rest, hrun, ?_, ?_⟩
    · cases rest with
      | finished => cases hrefused
      | unclosed start =>
        cases hrefused
        rfl
      | next token start after =>
        obtain ⟨hp, hq, rfl⟩ := hrefused
        exact ⟨token, after, hnumber token hp hq, rfl, rfl⟩
    · intro _ tokens' rest' hrun' halike hstart
      exact (h.eq_error_iff hr).mpr ⟨run, rest', hrun', hall, hrefused.of_alike halike hstart⟩

end Runs

/-- The fault of a token that cannot stand in a fraction. -/
def Fault.inFraction (token : Token) (start : Nat) : Fault :=
  if token = .point then .secondPoint start else .ofToken token start

section Readers

variable {tokens : Tokens}

theorem looksAhead_readAffix : LooksAhead readAffix :=
  foldsRun_readAffix.looksAhead (refuses_self fun _ => rfl) fun _ hp hq => by simp [hp] at hq

theorem looksAhead_readInteger : LooksAhead readInteger :=
  foldsRun_readInteger.looksAhead (refuses_self fun _ => rfl) fun _ hp hq => by simp [hp] at hq

theorem refuses_readFraction :
    Refuses readFraction Token.isPlace Token.isMarkOrPoint Fault.inFraction where
  unclosed _ := rfl
  refuse {token} _ _ hp hq := by
    cases token with
    | grouping | point => rfl
    | zero | hash => cases hp
    | _ => cases hq

theorem Tokens.Refused.liesBehind_point {fault : Fault} {rest : Tokens} {run : List Token}
    (h : rest.Refused Token.isPlace Token.isMarkOrPoint Fault.inFraction fault)
    (hall : run.all Token.isPlace) : fault.LiesBehind (.point :: run) rest := by
  cases rest with
  | finished => cases h
  | unclosed start =>
    cases h
    rfl
  | next token start after =>
    obtain ⟨hp, hq, rfl⟩ := h
    cases token with
    | grouping => exact ⟨.grouping, after, rfl, rfl, rfl⟩
    | point =>
      have hrun := (all_and_foldr_iff isPlace_iff consPlace_token run).mp ⟨hall, rfl⟩
      exact ⟨[], _, after, congrArg (Token.point :: ·) hrun, rfl⟩
    | zero | hash => cases hp
    | _ => cases hq

theorem looksAhead_readPointed : LooksAhead readPointed where
  ok tokens fraction rest h := by
    unfold readPointed at h
    split at h
    · obtain ⟨⟨places, after⟩, hplaces, h⟩ := bind_eq_ok.mp h
      obtain ⟨rfl, rfl⟩ := Prod.mk.inj (pure_eq_ok.mp h)
      obtain ⟨hr, hstop⟩ := readFraction_eq_ok_iff.mp hplaces
      refine ⟨fractionTokens (some places), .cons hr, ?_⟩
      intro tokens' rest' hr' halike
      exact readPointed_eq_ok hr' (halike.stopsAt hstop)
    · rename_i tokens hpoint
      obtain ⟨rfl, rfl⟩ := Prod.mk.inj (pure_eq_ok.mp h)
      refine ⟨[], .nil _, ?_⟩
      intro tokens' rest' hr' halike
      obtain rfl := reads_nil_iff.mp hr'
      unfold readPointed
      split
      · exact absurd rfl (halike.ne_next hpoint _ _)
      · rfl
  fails tokens fault h := by
    unfold readPointed at h
    split at h
    · rename_i start after
      rcases bind_eq_error.mp h with h | ⟨_, -, h⟩
      · obtain ⟨run, rest, hr, hall, hrefused⟩ :=
          (foldsRun_readFraction.eq_error_iff refuses_readFraction).mp h
        refine ⟨.point :: run, rest, .cons hr, hrefused.liesBehind_point hall, ?_⟩
        intro _ tokens' rest' hr' halike hstart
        obtain ⟨start', after', rfl, hafter⟩ := reads_cons_iff.mp hr'
        refine bind_eq_error.mpr (.inl ?_)
        exact (foldsRun_readFraction.eq_error_iff refuses_readFraction).mpr
          ⟨run, rest', hafter, hall, hrefused.of_alike halike hstart⟩
      · cases h
    · cases h

theorem readExponent_eq_error {start : Nat} {fault : Fault}
    (h : readExponent start tokens = .error fault) :
    fault = .malformedExponent start ∨
      ∃ run start', Reads tokens run (.unclosed start') ∧ fault = .unclosedQuote start' := by
  obtain ⟨sign, signed, hsigned, heq⟩ := exists_sign_readExponent start tokens
  rw [heq] at h
  rcases bind_eq_error.mp h with h | ⟨⟨count, rest⟩, -, h⟩
  · have hrefuses : Refuses readZeros (· == .zero) (· == .zero) .ofToken :=
      refuses_self fun _ => rfl
    obtain ⟨run, rest, hr, -, hrefused⟩ := (foldsRun_readZeros.eq_error_iff hrefuses).mp h
    cases rest with
    | finished => cases hrefused
    | unclosed start' => exact .inr ⟨_, start', hsigned.append hr, hrefused⟩
    | next =>
      obtain ⟨hp, hq, -⟩ := hrefused
      simp [hp] at hq
  · dsimp only at h
    split at h
    · cases h
      exact .inl rfl
    · cases h

theorem looksAhead_readScaled (places : List Placeholder) : LooksAhead (readScaled places) where
  ok tokens exponent rest h := by
    unfold readScaled at h
    split at h
    · rename_i start after
      dsimp only at h
      split at h
      · cases h
      · rename_i hplaces
        obtain ⟨⟨exponent, behind⟩, he, h⟩ := bind_eq_ok.mp h
        obtain ⟨rfl, rfl⟩ := Prod.mk.inj (pure_eq_ok.mp h)
        obtain ⟨e, hr, hstop, rfl⟩ := reads_of_readExponent he
        refine ⟨e.tokens, .cons hr, ?_⟩
        intro tokens' rest' hr' halike
        obtain ⟨start', after', rfl, hafter⟩ := reads_cons_iff.mp hr'
        have he' := readExponent_eq_ok e start' hafter (halike.stopsAt hstop)
        simp only [readScaled, if_neg hplaces]
        exact bind_eq_ok.mpr ⟨_, he', rfl⟩
    · rename_i tokens hexponent
      obtain ⟨rfl, rfl⟩ := Prod.mk.inj (pure_eq_ok.mp h)
      refine ⟨[], .nil _, ?_⟩
      intro tokens' rest' hr' halike
      obtain rfl := reads_nil_iff.mp hr'
      unfold readScaled
      split
      · exact absurd rfl (halike.ne_next hexponent _ _)
      · rfl
  fails tokens fault h := by
    unfold readScaled at h
    split at h
    · rename_i start after
      dsimp only at h
      split at h
      · cases h
        exact failsAt_of_not_isMisplaced (.nil _) ⟨after, rfl⟩ rfl
      · rcases bind_eq_error.mp h with h | ⟨_, -, h⟩
        · rcases readExponent_eq_error h with rfl | ⟨run, start', hr, rfl⟩
          · exact failsAt_of_not_isMisplaced (.nil _) ⟨after, rfl⟩ rfl
          · exact failsAt_of_not_isMisplaced (.cons hr) rfl rfl
        · cases h
    · cases h

/-- The layout of a number with these parts, unless it has neither a place nor a point. -/
def Layout.ofParts? (marks : List IntegerMark) (fraction : Option (List Placeholder))
    (exponent : Option Exponent) : Option Layout :=
  if IntegerMark.places marks = [] ∧ fraction = none then none
  else some ⟨IntegerMark.places marks, fraction.getD [], IntegerMark.groupSize marks, exponent⟩

theorem readLayout_eq_ofParts? (tokens : Tokens) :
    readLayout tokens = do
      let integer ← readInteger tokens
      let fraction ← readPointed integer.2
      let exponent ← readScaled (IntegerMark.places integer.1 ++ fraction.1.getD []) fraction.2
      return (Layout.ofParts? integer.1 fraction.1 exponent.1, exponent.2) := by
  rw [readLayout_eq]
  congr 1
  funext integer
  dsimp only
  congr 1
  funext fraction
  congr 1
  funext exponent
  rw [Layout.ofParts?]
  split <;> rfl

theorem looksAhead_readLayout : LooksAhead readLayout := by
  rw [funext readLayout_eq_ofParts?]
  refine looksAhead_readInteger.bind fun marks => ?_
  dsimp only
  refine looksAhead_readPointed.bind fun fraction => ?_
  dsimp only
  exact (looksAhead_readScaled _).bind fun exponent =>
    looksAhead_pure (Layout.ofParts? marks fraction exponent)

/-- Reads the affix behind a number, with which a subpattern ends. -/
def readLast (tokens : Tokens) : Except Fault (List AffixPart × Tokens) := do
  let (parts, rest) ← readAffix tokens
  match rest with
  | .next .separator _ _ | .finished _ => return (parts, rest)
  | .next token start _ => throw (.ofToken token start)
  | .unclosed start => throw (.unclosedQuote start)

theorem foldsRun_readLast :
    FoldsRun readLast Token.isAffix (· != .separator) Token.consPart [] where
  finished _ := rfl
  unclosed _ _ := throw_ne_ok
  take {token} start rest hp := by
    unfold readLast
    rw [foldsRun_readAffix.take start rest hp]
    simp only [bind_assoc, pure_bind]
    congr 1
    funext result
    obtain ⟨parts, rest⟩ := result
    dsimp only
    split <;> rfl
  stop {token} _ _ hq := by
    cases token with
    | separator => rfl
    | _ => cases hq
  refuse {token} _ _ _ hp hq := by
    cases token with
    | literal | quoted | percent | perMille => cases hp
    | separator => cases hq
    | _ => exact throw_ne_ok
  le token hp := by cases token <;> first | rfl | cases hp

theorem looksAhead_readLast : LooksAhead readLast := by
  refine foldsRun_readLast.looksAhead ⟨fun _ => rfl, ?_⟩ ?_
  · intro token start rest hp hq
    cases token with
    | literal | quoted | percent | perMille => cases hp
    | separator => cases hq
    | _ => rfl
  · intro token hp hq
    cases token with
    | literal | quoted | percent | perMille => cases hp
    | separator => cases hq
    | _ => rfl

/-- Reads a subpattern. -/
def readSection (tokens : Tokens) : Except Fault ((Affixes × Option Layout) × Tokens) := do
  let before ← readAffix tokens
  let layout ← readLayout before.2
  let after ← readLast layout.2
  return ((⟨before.1, after.1⟩, layout.1), after.2)

theorem readSubpattern_eq (tokens : Tokens) :
    readSubpattern tokens = do
      let subpattern ← readSection tokens
      return (subpattern.1.1, subpattern.1.2, subpattern.2) := by
  unfold readSubpattern readSection readLast
  simp only [bind_assoc, pure_bind]
  congr 1
  funext before
  congr 1
  funext layout
  congr 1
  funext after
  obtain ⟨after, rest⟩ := after
  cases rest with
  | next token start rest => cases token <;> rfl
  | _ => rfl

theorem looksAhead_readSection : LooksAhead readSection := by
  refine looksAhead_readAffix.bind fun before => ?_
  dsimp only
  refine looksAhead_readLayout.bind fun layout => ?_
  dsimp only
  exact looksAhead_readLast.bind fun after => looksAhead_pure (Affixes.mk before after, layout)

/-- Reads the affixes of a second subpattern, if a separator comes next. -/
def readSecond (layout : Layout) (positive : Affixes) : Tokens → Except Fault NumberPattern
  | .next .separator _ rest => do
    let subpattern ← readSection rest
    match subpattern.2 with
    | .next .separator _ _ => throw .tooManySections
    | _ => return ⟨layout, positive, some subpattern.1.1⟩
  | _ => return ⟨layout, positive, none⟩

theorem ofTokens_eq (tokens : Tokens) :
    ofTokens tokens = (do
      let subpattern ← readSection tokens
      match subpattern.1.2 with
      | none => throw .noDigits
      | some layout => readSecond layout subpattern.1.1 subpattern.2) := by
  unfold ofTokens readSecond
  simp only [readSubpattern_eq, bind_assoc, pure_bind]
  congr 1
  funext subpattern
  cases subpattern.1.2 <;> rfl

theorem failsAtToken_readSecond (layout : Layout) (positive : Affixes) :
    FailsAtToken (readSecond layout positive) := by
  have hbehind : FailsAtToken fun rest => do
      let subpattern ← readSection rest
      match subpattern.2 with
      | .next .separator _ _ => throw .tooManySections
      | _ => return (⟨layout, positive, some subpattern.1.1⟩ : NumberPattern) := by
    refine looksAhead_readSection.bind_fails fun subpattern => failsAtToken_of_whole ?_
    intro tokens fault h
    dsimp only at h
    split at h
    · cases h
      exact .inr rfl
    · cases h
  intro tokens fault h
  unfold readSecond at h
  split at h
  · obtain ⟨run, rest, hr, hlies, hsame⟩ := hbehind _ fault h
    refine ⟨_, rest, .cons hr, hlies.append [.separator], ?_⟩
    intro hmisplaced tokens' rest' hr' halike hstart
    obtain ⟨start', after', rfl, hafter⟩ := reads_cons_iff.mp hr'
    exact hsame hmisplaced after' rest' hafter halike hstart
  · cases h

theorem failsAtToken_ofTokens : FailsAtToken ofTokens := by
  rw [funext ofTokens_eq]
  refine looksAhead_readSection.bind_fails fun subpattern => ?_
  cases hlayout : subpattern.2 with
  | none =>
    refine failsAtToken_of_whole ?_
    intro tokens fault h
    simp only [hlayout] at h
    cases h
    exact .inl rfl
  | some layout =>
    simp only [hlayout]
    exact failsAtToken_readSecond layout subpattern.1

end Readers

/-- The character stands in the pattern behind some text, at that byte offset. -/
structure StandsAt (pattern before : Text) (c : Char) (position : Nat) : Prop where
  behind : ∃ after, pattern = before ++ c :: after
  offset : position = before.utf8Length

/-- The fault lies at a character of the pattern. A token out of place stays the fault whatever
follows it, and a run that is not closed reaches to the end of the pattern. -/
def Fault.LiesIn (pattern : Text) : Fault → Prop
  | unexpected position found =>
    found ∈ "0#.,E".toList ∧
      ∃ before, StandsAt pattern before found position ∧
        ∀ after, parse (before ++ found :: after) = .error (unexpected position found)
  | secondPoint position =>
    (∃ (run : List Token) (places : List Placeholder) (rest : Tokens),
      Reads (tokens pattern) (run ++ .point :: places.map Placeholder.token)
        (.next .point position rest)) ∧
      ∃ before, StandsAt pattern before '.' position ∧
        ∀ after, parse (before ++ '.' :: after) = .error (secondPoint position)
  | malformedExponent position =>
    (∃ run rest, Reads (tokens pattern) run (.next .exponent position rest)) ∧
      ∃ before, StandsAt pattern before 'E' position
  | unclosedQuote position =>
    (∃ run, Reads (tokens pattern) run (.unclosed position)) ∧
      ∃ before text, pattern = before ++ apostrophe :: doubled text ∧
        position = before.utf8Length ∧ text.head? ≠ some apostrophe
  | noDigits | tooManySections | empty => True

section Patterns

variable {pattern : Text} {token : Token} {position : Nat} {run : List Token} {rest : Tokens}
  {fault : Fault}

theorem standsAt_of_reads (h : Reads (tokens pattern) run (.next token position rest)) :
    StandsAt pattern (writtenText run) token.firstChar position := by
  obtain ⟨u, hpattern, -, hnext⟩ := reads_tokensFrom_iff.mp h
  obtain ⟨hposition, after, rfl, -, -⟩ := tokensFrom_eq_next_iff.mp hnext.symm
  obtain ⟨t, ht⟩ := written_eq_cons token
  constructor
  · exact ⟨t ++ after, by rw [hpattern, ht, List.cons_append]⟩
  · rw [hposition, Nat.zero_add]

/-- Whatever follows a token of a number, the pattern is read alike up to that token. -/
theorem reads_of_standsAt (htoken : token.isNumber)
    (h : Reads (tokens pattern) run (.next token position rest)) (after : Text) :
    ∃ rest', Reads (tokens (writtenText run ++ token.firstChar :: after)) run
      (.next token position rest') := by
  obtain ⟨u, -, hread, hnext⟩ := reads_tokensFrom_iff.mp h
  obtain ⟨hposition, behind, rfl, -, -⟩ := tokensFrom_eq_next_iff.mp hnext.symm
  rw [written_of_isNumber htoken] at hread
  have hnext' := tokensFrom_eq_next_iff.mpr
    ⟨hposition, after, rfl, isReadBefore_of_isNumber htoken, rfl⟩
  rw [written_of_isNumber htoken] at hnext'
  exact ⟨_, reads_tokensFrom_iff.mpr ⟨_, rfl, hread.congr rfl, hnext'.symm⟩⟩

theorem exists_standsAt_of_reads (htoken : token.isNumber)
    (h : Reads (tokens pattern) run (.next token position rest))
    (hsame : ∀ tokens' rest', Reads tokens' run rest' →
      (Tokens.next token position rest).Alike rest' → position = rest'.start →
      ofTokens tokens' = .error fault) :
    ∃ before, StandsAt pattern before token.firstChar position ∧
      ∀ after, parse (before ++ token.firstChar :: after) = .error fault := by
  refine ⟨writtenText run, standsAt_of_reads h, ?_⟩
  intro after
  obtain ⟨rest', hr⟩ := reads_of_standsAt htoken h after
  rw [parse, if_neg (by simp)]
  exact hsame _ _ hr rfl rfl

theorem firstChar_mem_of_isNumber (h : token.isNumber) : token.firstChar ∈ "0#.,E".toList := by
  cases token <;> first | decide | cases h

/-- A fault with a position lies there in the pattern. A token out of place is reported whatever
follows it. -/
theorem liesIn_of_parse (h : parse pattern = .error fault) : fault.LiesIn pattern := by
  unfold parse at h
  split at h
  · cases h
    trivial
  · obtain ⟨run, rest, hr, hlies, hsame⟩ := failsAtToken_ofTokens _ fault h
    cases fault with
    | unexpected position found =>
      obtain ⟨token, after, htoken, rfl, rfl⟩ := hlies
      exact ⟨firstChar_mem_of_isNumber htoken, exists_standsAt_of_reads htoken hr (hsame rfl)⟩
    | secondPoint position =>
      obtain ⟨before, places, after, rfl, rfl⟩ := hlies
      exact ⟨⟨before, places, after, hr⟩, exists_standsAt_of_reads rfl hr (hsame rfl)⟩
    | malformedExponent position =>
      obtain ⟨after, rfl⟩ := hlies
      exact ⟨⟨run, after, hr⟩, _, standsAt_of_reads hr⟩
    | unclosedQuote position =>
      obtain rfl : rest = .unclosed position := hlies
      obtain ⟨u, hpattern, -, hunclosed⟩ := reads_tokensFrom_iff.mp hr
      obtain ⟨hposition, text, rfl, hhead⟩ := unclosed_of_tokensFrom hunclosed.symm
      exact ⟨⟨run, hr⟩, writtenText run, text, hpattern, by simpa using hposition, hhead⟩
    | noDigits | tooManySections | empty => trivial

/-- The second point of a number, behind a quoted run and characters of several bytes. -/
theorem liesIn_of_parse_second_point :
    parse "¥'a'0.0#.%".toList = .error (.secondPoint 9) ∧
      (Fault.secondPoint 9).LiesIn "¥'a'0.0#.%".toList := by
  have h : parse "¥'a'0.0#.%".toList = .error (.secondPoint 9) := by decide +kernel
  exact ⟨h, liesIn_of_parse h⟩

end Patterns

end CellDisplay.NumberPattern
