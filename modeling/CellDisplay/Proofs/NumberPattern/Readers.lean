import CellDisplay.Proofs.NumberPattern.Grammar

/-! # The readers of number patterns

Each reader takes the longest run of the tokens that belong to it. What it takes is one part of
a number or an affix as it is written, and what it returns is that part.
-/

namespace CellDisplay.NumberPattern

section Result

variable {ε α β : Type}

theorem bind_eq_ok {x : Except ε α} {f : α → Except ε β} {b : β} :
    x >>= f = .ok b ↔ ∃ a, x = .ok a ∧ f a = .ok b := by
  cases x <;> simp [bind, Except.bind]

theorem bind_eq_error {x : Except ε α} {f : α → Except ε β} {e : ε} :
    x >>= f = .error e ↔ x = .error e ∨ ∃ a, x = .ok a ∧ f a = .error e := by
  cases x <;> simp [bind, Except.bind]

theorem pure_eq_ok {a b : α} : (pure a : Except ε α) = .ok b ↔ a = b := by
  simp [pure, Except.pure]

theorem throw_ne_ok {e : ε} {a : α} : (throw e : Except ε α) ≠ .ok a := by
  simp [throw, throwThe, MonadExceptOf.throw]

end Result

namespace Token

def isPlace (token : Token) : Bool := token matches zero | hash

/-- The token can stand in an integer part. -/
def isMark (token : Token) : Bool := token matches zero | hash | grouping

/-- The token can stand in a number without an exponent. -/
def isMarkOrPoint (token : Token) : Bool := token matches zero | hash | grouping | point

/-- The token can stand in a number, unless it is a sign. -/
def isNumber (token : Token) : Bool := token matches zero | hash | grouping | point | exponent

theorem isMarkOrPoint_of_isMark (token : Token) (h : token.isMark) : token.isMarkOrPoint := by
  cases token <;> first | rfl | cases h

theorem isNumber_of_isMarkOrPoint (token : Token) (h : token.isMarkOrPoint) : token.isNumber := by
  cases token <;> first | rfl | cases h

def consMark : Token → List IntegerMark → List IntegerMark
  | zero, marks => .place .required :: marks
  | hash, marks => .place .optional :: marks
  | grouping, marks => .grouping :: marks
  | _, marks => marks

def consPlace : Token → List Placeholder → List Placeholder
  | zero, places => .required :: places
  | hash, places => .optional :: places
  | _, places => places

end Token

/-- The tokens, unless a run is not closed. -/
def Tokens.complete? : Tokens → Option (List Token)
  | finished _ => some []
  | unclosed _ => none
  | next token _ rest => rest.complete?.map (token :: ·)

/-- Neither a token of the class nor a run that is not closed comes next. -/
def Tokens.StopsAt (p : Token → Bool) : Tokens → Prop
  | finished _ => True
  | unclosed _ => False
  | next token _ _ => p token = false

/-- The first tokens go on with the run, and the second ones follow it. -/
inductive Reads : Tokens → List Token → Tokens → Prop where
  | nil (tokens : Tokens) : Reads tokens [] tokens
  | cons {token : Token} {start : Nat} {rest after : Tokens} {run : List Token} :
      Reads rest run after → Reads (.next token start rest) (token :: run) after

section Runs

variable {p q : Token → Bool} {tokens middle rest : Tokens} {token : Token}
  {run run' : List Token}

theorem complete?_eq_some_iff :
    tokens.complete? = some run ↔ ∃ start, Reads tokens run (.finished start) := by
  induction tokens generalizing run with
  | finished start =>
    constructor
    · intro h
      obtain rfl : [] = run := by simpa [Tokens.complete?] using h
      exact ⟨start, .nil _⟩
    · rintro ⟨_, h⟩
      cases h
      rfl
  | unclosed start =>
    constructor
    · simp [Tokens.complete?]
    · rintro ⟨_, h⟩
      cases h
  | next token start rest ih =>
    constructor
    · intro h
      obtain ⟨run', hr, rfl⟩ := Option.map_eq_some_iff.mp h
      obtain ⟨start, hr⟩ := ih.mp hr
      exact ⟨start, .cons hr⟩
    · rintro ⟨start, h⟩
      cases h with
      | cons h => exact Option.map_eq_some_iff.mpr ⟨_, ih.mpr ⟨start, h⟩, rfl⟩

theorem Reads.append (h : Reads tokens run middle) (h' : Reads middle run' rest) :
    Reads tokens (run ++ run') rest := by
  induction h with
  | nil => exact h'
  | cons _ ih => exact .cons (ih h')

theorem reads_append_iff :
    Reads tokens (run ++ run') rest ↔
      ∃ middle, Reads tokens run middle ∧ Reads middle run' rest := by
  refine ⟨fun h => ?_, fun ⟨_, h, h'⟩ => h.append h'⟩
  induction run generalizing tokens with
  | nil => exact ⟨tokens, .nil _, h⟩
  | cons token run ih =>
    cases h with
    | cons h =>
      obtain ⟨middle, hm, hr⟩ := ih h
      exact ⟨middle, .cons hm, hr⟩

theorem reads_nil_iff : Reads tokens [] rest ↔ tokens = rest :=
  ⟨fun h => by cases h; rfl, fun h => h ▸ .nil _⟩

theorem reads_cons_iff :
    Reads tokens (token :: run) rest ↔
      ∃ start after, tokens = .next token start after ∧ Reads after run rest := by
  refine ⟨fun h => ?_, fun ⟨_, _, h, h'⟩ => h ▸ .cons h'⟩
  cases h with
  | cons h => exact ⟨_, _, rfl, h⟩

theorem Tokens.StopsAt.mono (hpq : ∀ token, p token → q token) (h : tokens.StopsAt q) :
    tokens.StopsAt p := by
  cases tokens with
  | finished => trivial
  | unclosed => exact h
  | next token =>
    by_contra hp
    have hq : q token := hpq token (by simpa [StopsAt] using hp)
    simp_all [StopsAt]

theorem Reads.stopsAt (h : Reads tokens run rest) (hrun : ∀ token ∈ run.head?, p token = false)
    (hrest : rest.StopsAt p) : tokens.StopsAt p := by
  cases h with
  | nil => exact hrest
  | cons _ => exact hrun _ rfl

theorem Reads.eq_nil_of_stopsAt (h : Reads tokens run rest) (hrun : run.all p)
    (hstop : tokens.StopsAt p) : run = [] := by
  cases h with
  | nil => rfl
  | cons _ => simp_all [Tokens.StopsAt]

end Runs

/-- The reader takes the tokens of a first class, combines them from the right, and stops before
a token that is not in a second class. -/
structure FoldsRun {α : Type} (read : Tokens → Except Fault (α × Tokens)) (p q : Token → Bool)
    (f : Token → α → α) (a : α) : Prop where
  finished (start : Nat) : read (.finished start) = .ok (a, .finished start)
  unclosed (start : Nat) (result : α × Tokens) : read (.unclosed start) ≠ .ok result
  take {token : Token} (start : Nat) (rest : Tokens) : p token →
    read (.next token start rest) = do let (b, rest) ← read rest; return (f token b, rest)
  stop {token : Token} (start : Nat) (rest : Tokens) : q token = false →
    read (.next token start rest) = .ok (a, .next token start rest)
  refuse {token : Token} (start : Nat) (rest : Tokens) (result : α × Tokens) :
    p token = false → q token → read (.next token start rest) ≠ .ok result
  le (token : Token) : p token → q token

section Readers

variable {tokens rest : Tokens}

theorem FoldsRun.eq_ok_iff {α : Type} {read : Tokens → Except Fault (α × Tokens)}
    {p q : Token → Bool} {f : Token → α → α} {a b : α} (h : FoldsRun read p q f a) :
    read tokens = .ok (b, rest) ↔
      ∃ run, Reads tokens run rest ∧ rest.StopsAt q ∧ run.all p ∧ b = run.foldr f a := by
  constructor
  · intro hr
    induction tokens generalizing b with
    | finished start =>
      rw [h.finished] at hr
      cases hr
      exact ⟨[], .nil _, trivial, rfl, rfl⟩
    | unclosed start => exact absurd hr (h.unclosed start _)
    | next token start after ih =>
      cases hp : p token with
      | true =>
        rw [h.take start after hp] at hr
        obtain ⟨⟨b', rest'⟩, hb, hr⟩ := bind_eq_ok.mp hr
        obtain ⟨rfl, rfl⟩ := Prod.mk.inj (pure_eq_ok.mp hr)
        obtain ⟨run, hrun, hstop, hall, rfl⟩ := ih hb
        exact ⟨token :: run, .cons hrun, hstop, by simp [hp, hall], rfl⟩
      | false =>
        cases hq : q token with
        | true => exact absurd hr (h.refuse start after _ hp hq)
        | false =>
          rw [h.stop start after hq] at hr
          cases hr
          exact ⟨[], .nil _, hq, rfl, rfl⟩
  · rintro ⟨run, hrun, hstop, hall, rfl⟩
    induction hrun with
    | nil tokens =>
      cases tokens with
      | finished start => exact h.finished start
      | unclosed => exact hstop.elim
      | next token start after => exact h.stop start after hstop
    | cons _ ih =>
      rw [List.all_cons, Bool.and_eq_true] at hall
      rw [h.take _ _ hall.1]
      exact bind_eq_ok.mpr ⟨_, ih hstop hall.2, rfl⟩

/-- If one run alone is folded into a result, the reader reads that run. -/
theorem FoldsRun.eq_ok_iff_reads {α : Type} {read : Tokens → Except Fault (α × Tokens)}
    {p q : Token → Bool} {f : Token → α → α} {a b : α} {written : List Token}
    (h : FoldsRun read p q f a)
    (hrun : ∀ run, run.all p ∧ b = run.foldr f a ↔ run = written) :
    read tokens = .ok (b, rest) ↔ Reads tokens written rest ∧ rest.StopsAt q := by
  rw [h.eq_ok_iff]
  constructor
  · rintro ⟨run, hr, hstop, hw⟩
    obtain rfl := (hrun run).mp hw
    exact ⟨hr, hstop⟩
  · rintro ⟨hr, hstop⟩
    exact ⟨written, hr, hstop, (hrun written).mpr rfl⟩

/-- Tokens that stand for the elements of a list are folded into that list. -/
theorem all_and_foldr_iff {β : Type} {tok : β → Token} {p : Token → Bool}
    {f : Token → List β → List β} {xs : List β}
    (hp : ∀ token, p token ↔ ∃ x, tok x = token) (hf : ∀ x xs, f (tok x) xs = x :: xs)
    (run : List Token) : run.all p ∧ xs = run.foldr f [] ↔ run = xs.map tok := by
  constructor
  · rintro ⟨hall, rfl⟩
    induction run with
    | nil => rfl
    | cons token run ih =>
      rw [List.all_cons, Bool.and_eq_true] at hall
      obtain ⟨x, rfl⟩ := (hp token).mp hall.1
      rw [List.foldr_cons, hf, List.map_cons, ← ih hall.2]
  · rintro rfl
    induction xs with
    | nil => exact ⟨rfl, rfl⟩
    | cons x xs ih =>
      rw [List.map_cons, List.all_cons, List.foldr_cons, hf, ← ih.2]
      exact ⟨by rw [(hp _).mpr ⟨x, rfl⟩, ih.1]; rfl, rfl⟩

theorem foldsRun_readAffix :
    FoldsRun readAffix Token.isAffix Token.isAffix Token.consPart [] where
  finished _ := rfl
  unclosed _ _ := throw_ne_ok
  take {token} _ _ hp := by cases token <;> first | rfl | cases hp
  stop {token} _ _ hq := by cases token <;> first | rfl | cases hq
  refuse _ _ _ hp hq := by simp [hp] at hq
  le _ := id

theorem readAffix_eq_ok_iff {parts : List AffixPart} :
    readAffix tokens = .ok (parts, rest) ↔
      ∃ run, Reads tokens run rest ∧ rest.StopsAt Token.isAffix ∧ run.all Token.isAffix ∧
        parts = affixOf run :=
  foldsRun_readAffix.eq_ok_iff

theorem foldsRun_readInteger :
    FoldsRun readInteger Token.isMark Token.isMark Token.consMark [] where
  finished _ := rfl
  unclosed _ _ := throw_ne_ok
  take {token} _ _ hp := by cases token <;> first | rfl | cases hp
  stop {token} _ _ hq := by cases token <;> first | rfl | cases hq
  refuse _ _ _ hp hq := by simp [hp] at hq
  le _ := id

theorem isMark_iff (token : Token) : token.isMark ↔ ∃ mark, IntegerMark.token mark = token := by
  constructor
  · intro h
    cases token with
    | zero => exact ⟨.place .required, rfl⟩
    | hash => exact ⟨.place .optional, rfl⟩
    | grouping => exact ⟨.grouping, rfl⟩
    | _ => cases h
  · rintro ⟨(_ | _) | _, rfl⟩ <;> rfl

theorem consMark_token (mark : IntegerMark) (marks : List IntegerMark) :
    mark.token.consMark marks = mark :: marks := by
  rcases mark with (_ | _) | _ <;> rfl

theorem readInteger_eq_ok_iff {marks : List IntegerMark} :
    readInteger tokens = .ok (marks, rest) ↔
      Reads tokens (marks.map IntegerMark.token) rest ∧ rest.StopsAt Token.isMark :=
  foldsRun_readInteger.eq_ok_iff_reads (all_and_foldr_iff isMark_iff consMark_token)

theorem foldsRun_readFraction :
    FoldsRun readFraction Token.isPlace Token.isMarkOrPoint Token.consPlace [] where
  finished _ := rfl
  unclosed _ _ := throw_ne_ok
  take {token} _ _ hp := by cases token <;> first | rfl | cases hp
  stop {token} _ _ hq := by cases token <;> first | rfl | cases hq
  refuse {token} _ _ _ hp hq := by
    cases token with
    | grouping | point => exact throw_ne_ok
    | zero | hash => cases hp
    | _ => cases hq
  le token hp := by cases token <;> first | rfl | cases hp

theorem isPlace_iff (token : Token) :
    token.isPlace ↔ ∃ placeholder, Placeholder.token placeholder = token := by
  constructor
  · intro h
    cases token with
    | zero => exact ⟨.required, rfl⟩
    | hash => exact ⟨.optional, rfl⟩
    | _ => cases h
  · rintro ⟨_ | _, rfl⟩ <;> rfl

theorem consPlace_token (placeholder : Placeholder) (places : List Placeholder) :
    placeholder.token.consPlace places = placeholder :: places := by
  cases placeholder <;> rfl

theorem readFraction_eq_ok_iff {places : List Placeholder} :
    readFraction tokens = .ok (places, rest) ↔
      Reads tokens (places.map Placeholder.token) rest ∧ rest.StopsAt Token.isMarkOrPoint :=
  foldsRun_readFraction.eq_ok_iff_reads (all_and_foldr_iff isPlace_iff consPlace_token)

theorem foldsRun_readZeros :
    FoldsRun readZeros (· == .zero) (· == .zero) (fun _ count => count + 1) 0 where
  finished _ := rfl
  unclosed _ _ := throw_ne_ok
  take {token} _ _ hp := by cases token <;> first | rfl | cases hp
  stop {token} _ _ hq := by cases token <;> first | rfl | cases hq
  refuse _ _ _ hp hq := by simp [hp] at hq
  le _ := id

theorem readZeros_eq_ok_iff {count : Nat} :
    readZeros tokens = .ok (count, rest) ↔
      Reads tokens (List.replicate count .zero) rest ∧ rest.StopsAt (· == .zero) := by
  refine foldsRun_readZeros.eq_ok_iff_reads fun run => ⟨?_, ?_⟩
  · rintro ⟨hall, rfl⟩
    simpa using List.eq_replicate_of_mem (a := Token.zero) (by simpa using hall)
  · rintro rfl
    simp

/-- The zeros of an exponent are read behind a sign, if there is one. -/
theorem exists_sign_readExponent (start : Nat) (tokens : Tokens) :
    ∃ (sign : Option Sign) (signed : Tokens), Reads tokens (sign.toList.map Sign.token) signed ∧
      readExponent start tokens = (do
        let zeros ← readZeros signed
        if zeros.1 = 0 then throw (.malformedExponent start)
        return (⟨zeros.1, sign = some .plus⟩, zeros.2)) := by
  unfold readExponent
  split
  rename_i showPlus signed hs
  split at hs <;> obtain ⟨rfl, rfl⟩ := Prod.mk.inj hs
  · exact ⟨some .plus, _, .cons (.nil _), rfl⟩
  · exact ⟨some .minus, _, .cons (.nil _), rfl⟩
  · exact ⟨none, _, .nil _, rfl⟩

theorem reads_of_readExponent {start : Nat} {exponent : Exponent}
    (h : readExponent start tokens = .ok (exponent, rest)) :
    ∃ e : ExponentForm, Reads tokens e.tail rest ∧ rest.StopsAt (· == .zero) ∧
      exponent = e.exponent := by
  obtain ⟨sign, signed, hsigned, heq⟩ := exists_sign_readExponent start tokens
  rw [heq] at h
  obtain ⟨⟨count, after⟩, hz, h⟩ := bind_eq_ok.mp h
  dsimp only at h
  split at h
  · obtain ⟨_, ht, -⟩ := bind_eq_ok.mp h
    exact absurd ht throw_ne_ok
  · rename_i hcount
    obtain ⟨rfl, rfl⟩ := Prod.mk.inj (pure_eq_ok.mp h)
    obtain ⟨hzeros, hstop⟩ := readZeros_eq_ok_iff.mp hz
    exact ⟨⟨sign, count, Nat.pos_of_ne_zero hcount⟩, hsigned.append hzeros, hstop, rfl⟩

theorem readExponent_eq_ok (e : ExponentForm) (start : Nat) (h : Reads tokens e.tail rest)
    (hstop : rest.StopsAt (· == .zero)) :
    readExponent start tokens = .ok (e.exponent, rest) := by
  obtain ⟨signed, hs, hz⟩ := reads_append_iff.mp h
  have hzeros := readZeros_eq_ok_iff.mpr ⟨hz, hstop⟩
  have hpos := Nat.ne_of_gt e.zeros_pos
  cases hsign : e.sign with
  | none =>
    obtain rfl : tokens = signed := by simpa [hsign, reads_nil_iff] using hs
    -- A zero comes first, so nothing is taken for a sign.
    obtain ⟨count, hcount⟩ := Nat.exists_eq_add_one.mpr e.zeros_pos
    rw [hcount, List.replicate_succ] at hz
    obtain ⟨_, _, rfl, -⟩ := reads_cons_iff.mp hz
    refine bind_eq_ok.mpr ⟨_, hzeros, ?_⟩
    simp [hpos, hsign, ExponentForm.exponent, pure_eq_ok]
  | some sign =>
    rw [hsign] at hs
    obtain ⟨_, _, rfl, hafter⟩ := reads_cons_iff.mp hs
    obtain rfl := reads_nil_iff.mp hafter
    cases sign <;>
    · refine bind_eq_ok.mpr ⟨_, hzeros, ?_⟩
      simp [hpos, hsign, Sign.token, ExponentForm.exponent, pure_eq_ok]

/-- Reads the fraction of a number, if a point comes next. -/
def readPointed : Tokens → Except Fault (Option (List Placeholder) × Tokens)
  | .next .point _ rest => do
    let (places, rest) ← readFraction rest
    return (some places, rest)
  | rest => return (none, rest)

/-- Reads the exponent of a number, if its letter comes next. -/
def readScaled (places : List Placeholder) : Tokens → Except Fault (Option Exponent × Tokens)
  | .next .exponent start rest => do
    if places = [] then throw (.malformedExponent start)
    let (exponent, rest) ← readExponent start rest
    return (some exponent, rest)
  | rest => return (none, rest)

theorem readLayout_eq (tokens : Tokens) :
    readLayout tokens = do
      let integer ← readInteger tokens
      let places := IntegerMark.places integer.1
      let fraction ← readPointed integer.2
      let exponent ← readScaled (places ++ fraction.1.getD []) fraction.2
      if places = [] ∧ fraction.1 = none then return (none, exponent.2)
      return (some ⟨places, fraction.1.getD [], IntegerMark.groupSize integer.1, exponent.1⟩,
        exponent.2) := by
  unfold readLayout
  congr 1
  funext integer
  obtain ⟨marks, behindInteger⟩ := integer
  dsimp only
  split
  case' h_1 =>
    simp only [readPointed, bind_assoc, pure_bind]
    congr 1
    funext fraction
    obtain ⟨places, behindFraction⟩ := fraction
    dsimp only
  case' h_2 => simp only [readPointed, pure_bind]
  -- What follows the fraction is read alike with a point and without one.
  all_goals
    split
    · simp only [readScaled, Option.getD_some, Option.getD_none, List.append_eq_nil_iff, and_true]
      split
      · rfl
      · simp
    · simp [readScaled]

theorem reads_of_readPointed {fraction : Option (List Placeholder)}
    (h : readPointed tokens = .ok (fraction, rest)) :
    Reads tokens (fractionTokens fraction) rest := by
  unfold readPointed at h
  split at h
  · obtain ⟨⟨places, after⟩, hp, h⟩ := bind_eq_ok.mp h
    obtain ⟨rfl, rfl⟩ := Prod.mk.inj (pure_eq_ok.mp h)
    exact .cons (readFraction_eq_ok_iff.mp hp).1
  · obtain ⟨rfl, rfl⟩ := Prod.mk.inj (pure_eq_ok.mp h)
    exact .nil _

theorem readPointed_eq_ok {fraction : Option (List Placeholder)}
    (h : Reads tokens (fractionTokens fraction) rest) (hstop : rest.StopsAt Token.isMarkOrPoint) :
    readPointed tokens = .ok (fraction, rest) := by
  cases fraction with
  | none =>
    obtain rfl := reads_nil_iff.mp h
    unfold readPointed
    split
    · cases hstop
    · rfl
  | some places =>
    obtain ⟨_, _, rfl, hr⟩ := reads_cons_iff.mp h
    exact bind_eq_ok.mpr ⟨_, readFraction_eq_ok_iff.mpr ⟨hr, hstop⟩, rfl⟩

theorem reads_of_readScaled {places : List Placeholder} {exponent : Option Exponent}
    (h : readScaled places tokens = .ok (exponent, rest)) :
    ∃ e : Option ExponentForm, Reads tokens (exponentTokens e) rest ∧
      exponent = e.map ExponentForm.exponent ∧ (e.isSome → places ≠ []) := by
  unfold readScaled at h
  split at h
  · dsimp only at h
    split at h
    · obtain ⟨_, ht, -⟩ := bind_eq_ok.mp h
      exact absurd ht throw_ne_ok
    · rename_i hne
      obtain ⟨⟨exponent', after⟩, he, h⟩ := bind_eq_ok.mp h
      obtain ⟨rfl, rfl⟩ := Prod.mk.inj (pure_eq_ok.mp h)
      obtain ⟨e, hr, -, rfl⟩ := reads_of_readExponent he
      exact ⟨some e, .cons hr, rfl, fun _ => hne⟩
  · obtain ⟨rfl, rfl⟩ := Prod.mk.inj (pure_eq_ok.mp h)
    exact ⟨none, .nil _, rfl, by simp⟩

theorem readScaled_eq_ok {places : List Placeholder} {e : Option ExponentForm}
    (h : Reads tokens (exponentTokens e) rest) (hplaces : e.isSome → places ≠ [])
    (hstop : rest.StopsAt Token.isNumber) :
    readScaled places tokens = .ok (e.map ExponentForm.exponent, rest) := by
  cases e with
  | none =>
    obtain rfl := reads_nil_iff.mp h
    unfold readScaled
    split
    · cases hstop
    · rfl
  | some e =>
    obtain ⟨start, _, rfl, hr⟩ := reads_cons_iff.mp h
    have hstop : rest.StopsAt (· == .zero) := hstop.mono (by simp [Token.isNumber])
    have he := readExponent_eq_ok e start hr hstop
    simp only [readScaled, hplaces rfl, if_false]
    exact bind_eq_ok.mpr ⟨_, he, rfl⟩

/-- The marks of a number make up its layout. -/
theorem layout_of_marks (n : NumberForm) (rest : Tokens) :
    (if IntegerMark.places (IntegerMark.ofGroups n.first n.groups) = [] ∧ n.fraction = none then
        (pure (none, rest) : Except Fault (Option Layout × Tokens))
      else
        pure (some ⟨IntegerMark.places (IntegerMark.ofGroups n.first n.groups),
          n.fraction.getD [], IntegerMark.groupSize (IntegerMark.ofGroups n.first n.groups),
          n.exponent.map ExponentForm.exponent⟩, rest)) = .ok (n.layout?, rest) := by
  have hinteger : IntegerMark.places (IntegerMark.ofGroups n.first n.groups) = n.integer :=
    IntegerMark.places_ofGroups ..
  have hgroup : IntegerMark.groupSize (IntegerMark.ofGroups n.first n.groups) = n.groupSize :=
    IntegerMark.groupSize_ofGroups ..
  rw [hinteger, hgroup]
  by_cases hp : n.IsPresent
  · rw [if_neg (n.isPresent_iff.mp hp), NumberForm.layout?, if_pos hp]
    rfl
  · rw [if_pos (not_not.mp (mt n.isPresent_iff.mpr hp)), NumberForm.layout?, if_neg hp]
    rfl

theorem reads_of_readLayout {layout : Option Layout}
    (h : readLayout tokens = .ok (layout, rest)) :
    ∃ n : NumberForm, Reads tokens n.tokens rest ∧ layout = n.layout? := by
  rw [readLayout_eq] at h
  obtain ⟨⟨marks, behindInteger⟩, hi, h⟩ := bind_eq_ok.mp h
  obtain ⟨⟨fraction, behindFraction⟩, hf, h⟩ := bind_eq_ok.mp h
  obtain ⟨⟨exponent, behindExponent⟩, he, h⟩ := bind_eq_ok.mp h
  obtain ⟨first, groups, rfl⟩ := IntegerMark.exists_ofGroups marks
  have hinteger := (readInteger_eq_ok_iff.mp hi).1
  obtain ⟨e, hexponent, rfl, hplaces⟩ := reads_of_readScaled he
  rw [IntegerMark.map_token_ofGroups] at hinteger
  rw [IntegerMark.places_ofGroups] at hplaces
  let n : NumberForm := ⟨first, groups, fraction, e, hplaces⟩
  obtain ⟨rfl, rfl⟩ := Prod.mk.inj (Except.ok.inj (h.symm.trans (layout_of_marks n _)))
  exact ⟨n, hinteger.append ((reads_of_readPointed hf).append hexponent), rfl⟩

theorem readLayout_eq_ok (n : NumberForm) (h : Reads tokens n.tokens rest)
    (hstop : rest.StopsAt Token.isNumber) : readLayout tokens = .ok (n.layout?, rest) := by
  obtain ⟨behindInteger, hi, h⟩ := reads_append_iff.mp h
  obtain ⟨behindFraction, hf, he⟩ := reads_append_iff.mp h
  have hfraction : behindFraction.StopsAt Token.isMarkOrPoint := by
    refine he.stopsAt ?_ (hstop.mono fun token => token.isNumber_of_isMarkOrPoint)
    cases n.exponent with
    | none => simp [exponentTokens]
    | some e => simp [exponentTokens, ExponentForm.tokens, Token.isMarkOrPoint]
  have hinteger : behindInteger.StopsAt Token.isMark := by
    refine hf.stopsAt ?_ (hfraction.mono fun token => token.isMarkOrPoint_of_isMark)
    cases n.fraction with
    | none => simp [fractionTokens]
    | some places => simp [fractionTokens, Token.isMark]
  rw [readLayout_eq]
  rw [← IntegerMark.map_token_ofGroups] at hi
  refine bind_eq_ok.mpr ⟨_, readInteger_eq_ok_iff.mpr ⟨hi, hinteger⟩, ?_⟩
  refine bind_eq_ok.mpr ⟨_, readPointed_eq_ok hf hfraction, ?_⟩
  have hplaces := n.places_of_exponent
  rw [← IntegerMark.places_ofGroups] at hplaces
  exact bind_eq_ok.mpr ⟨_, readScaled_eq_ok he hplaces hstop, layout_of_marks n rest⟩

end Readers

end CellDisplay.NumberPattern
