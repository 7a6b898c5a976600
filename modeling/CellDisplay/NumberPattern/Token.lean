import CellDisplay.Text.Basic

/-! # Tokens of number patterns

A pattern is read from the left. An apostrophe opens a run of literal text that reaches to
the next apostrophe; two apostrophes in a row stand for one, inside a run and outside.
-/

namespace CellDisplay.NumberPattern

/-- A token of a number pattern. -/
inductive Token where
  | literal (c : Char)
  | quoted (text : Text)
  | zero
  | hash
  | point
  | grouping
  | separator
  | percent
  | perMille
  | exponent
  deriving Repr, DecidableEq

/-- The apostrophe, which opens and closes quoted runs. -/
def apostrophe : Char := '\x27'

/-- The token of a character other than an apostrophe. -/
def Token.ofChar : Char → Token
  | '0' => zero
  | '#' => hash
  | '.' => point
  | ',' => grouping
  | ';' => separator
  | '%' => percent
  | '‰' => perMille
  | 'E' => exponent
  | c => literal c

/-- The character with which a token starts in a pattern. -/
def Token.firstChar : Token → Char
  | literal c => c
  | quoted _ => apostrophe
  | zero => '0'
  | hash => '#'
  | point => '.'
  | grouping => ','
  | separator => ';'
  | percent => '%'
  | perMille => '‰'
  | exponent => 'E'

/-- A text with every apostrophe doubled. -/
def doubled (t : Text) : Text :=
  t.flatMap fun c => if c = apostrophe then [apostrophe, apostrophe] else [c]

/-- The one way in which a token is written. -/
def Token.written : Token → Text
  | literal c => doubled [c]
  | quoted text => apostrophe :: doubled text ++ [apostrophe]
  | token => [token.firstChar]

/-- Pattern text whose tokens show a given text. A run cannot open with two apostrophes, so
those at the start of the text stand before it. -/
def quote (t : Text) : Text :=
  doubled (t.takeWhile (· = apostrophe)) ++
    match t.dropWhile (· = apostrophe) with
    | [] => []
    | rest => (Token.quoted rest).written

/-- The text of a quoted run up to its closing apostrophe, and what follows it. -/
def closeRun : Text → Option (Text × Text)
  | [] => none
  | [c] => if c = apostrophe then some ([], []) else none
  | c :: d :: rest =>
    if c = apostrophe then
      if d = apostrophe then (closeRun rest).map fun (text, after) => (apostrophe :: text, after)
      else some ([], d :: rest)
    else (closeRun (d :: rest)).map fun (text, after) => (c :: text, after)

theorem length_lt_of_closeRun {t text after : Text} (h : closeRun t = some (text, after)) :
    after.length < t.length := by
  fun_induction closeRun t generalizing text after with
  | case1 => simp at h
  | case2 => simp_all
  | case3 => simp_all
  | case4 rest ih =>
    obtain ⟨⟨u, v⟩, hu, hv⟩ := Option.map_eq_some_iff.1 h
    obtain ⟨-, rfl⟩ := Prod.mk.inj hv
    have := ih hu
    simp only [List.length_cons] at this ⊢; omega
  | case5 => simp_all
  | case6 c d rest _ ih =>
    obtain ⟨⟨u, v⟩, hu, hv⟩ := Option.map_eq_some_iff.1 h
    obtain ⟨-, rfl⟩ := Prod.mk.inj hv
    have := ih hu
    simp only [List.length_cons] at this ⊢; omega

/-- The tokens of a pattern, with the byte offset at which each one starts. They end with the
pattern or at an apostrophe whose run is not closed. -/
inductive Tokens where
  | finished (start : Nat)
  | unclosed (start : Nat)
  | next (token : Token) (start : Nat) (rest : Tokens)
  deriving Repr, DecidableEq

def Tokens.start : Tokens → Nat
  | finished start | unclosed start | next _ start _ => start

/-- The token at the start of a pattern, and what follows it. -/
inductive Step (t : Text) where
  | finished
  | unclosed
  | token (token : Token) (rest : Text) (shorter : rest.length < t.length)

def step : (t : Text) → Step t
  | [] => .finished
  | c :: rest =>
    if c = apostrophe then
      match rest with
      | [] => .unclosed
      | d :: after =>
        if d = apostrophe then
          .token (.literal apostrophe) after (Nat.lt_succ_of_lt (Nat.lt_succ_self _))
        else
          match h : closeRun (d :: after) with
          | none => .unclosed
          | some (text, after) =>
            .token (.quoted text) after (Nat.lt_succ_of_lt (length_lt_of_closeRun h))
    else .token (.ofChar c) rest (Nat.lt_succ_self _)

/-- The tokens of a text that starts at a byte offset. -/
def tokensFrom (start : Nat) (t : Text) : Tokens :=
  match step t with
  | .finished => .finished start
  | .unclosed => .unclosed start
  | .token token rest _ =>
    .next token start (tokensFrom (start + token.written.utf8Length) rest)
termination_by t.length

def tokens (pattern : Text) : Tokens := tokensFrom 0 pattern

end CellDisplay.NumberPattern
