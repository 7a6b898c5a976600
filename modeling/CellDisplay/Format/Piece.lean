import CellDisplay.Format.Section

/-! # Pieces of a format code

The first section of a format code falls into pieces: code that is still to be interpreted,
literal text, and tags for elapsed time. No piece is empty, and no two neighbours are both
code or both literal.
-/

namespace CellDisplay.FormatCode

/-- The unit of an elapsed time. -/
inductive ElapsedUnit where
  | hours
  | minutes
  | seconds
  deriving Repr, DecidableEq

/-- A piece of a format code. -/
inductive Piece where
  /-- Text that may hold tokens -/
  | code (text : Text)
  /-- Text that is shown as it is -/
  | literal (text : Text)
  /-- A whole number of units, with at least `width` digits -/
  | elapsed (unit : ElapsedUnit) (width : Nat)
  deriving Repr, DecidableEq

namespace Piece

/-- Puts a character of code in front of the pieces. -/
def consCode (c : Char) : List Piece → List Piece
  | code text :: pieces => code (c :: text) :: pieces
  | pieces => code [c] :: pieces

/-- Puts literal text in front of the pieces. -/
def consLiteral (text : Text) (pieces : List Piece) : List Piece :=
  if text = [] then pieces
  else
    match pieces with
    | literal next :: pieces => literal (text ++ next) :: pieces
    | pieces => literal text :: pieces

end Piece

/-- The text up to a stop character, and what follows that character. -/
def splitAtStop (stop : Char) (t : Text) : Text × Text :=
  (t.takeWhile (· ≠ stop), (t.dropWhile (· ≠ stop)).drop 1)

theorem length_splitAtStop_snd_le (stop : Char) (t : Text) :
    (splitAtStop stop t).2.length ≤ t.length := by
  have := (List.dropWhile_sublist (l := t) (· ≠ stop)).length_le
  simp only [splitAtStop, List.length_drop]
  omega

/-- The unit that a letter of an elapsed-time tag stands for. -/
def elapsedUnit? (letter : Char) : Option ElapsedUnit :=
  match letter.toLower with
  | 'h' => some .hours
  | 'm' => some .minutes
  | 's' => some .seconds
  | _ => none

/-- The elapsed-time tag of one letter, written once or more often in either case. -/
def elapsedTag? : Text → Option Piece
  | [] => none
  | letter :: letters =>
    if letters.all fun c => c.toLower = letter.toLower then
      (elapsedUnit? letter).map fun unit => .elapsed unit (letters.length + 1)
    else none

/-- Puts what a bracket tag stands for in front of the pieces: a currency symbol is literal
text, an elapsed-time tag is a piece, and any other tag shows nothing. -/
def consTag (tag : Text) (pieces : List Piece) : List Piece :=
  match tag with
  | '$' :: currency => Piece.consLiteral (currency.takeWhile (· ≠ '-')) pieces
  | tag =>
    match elapsedTag? tag with
    | some piece => piece :: pieces
    | none => pieces

/-- The pieces of a section, in which quotes and brackets that stay open reach to its end. -/
def sectionPieces : Text → List Piece
  | [] => []
  | '"' :: rest =>
    Piece.consLiteral (splitAtStop '"' rest).1 (sectionPieces (splitAtStop '"' rest).2)
  | '[' :: rest => consTag (splitAtStop ']' rest).1 (sectionPieces (splitAtStop ']' rest).2)
  | '\\' :: rest => Piece.consLiteral (rest.take 1) (sectionPieces (rest.drop 1))
  | '_' :: rest => Piece.consLiteral [' '] (sectionPieces (rest.drop 1))
  | '*' :: rest => sectionPieces (rest.drop 1)
  | c :: rest => Piece.consCode c (sectionPieces rest)
termination_by t => t.length
decreasing_by
  all_goals
    first
    | exact Nat.lt_succ_of_le (length_splitAtStop_snd_le _ _)
    | simp only [List.length_drop, List.length_cons]; omega

/-- The pieces of the first section of a format code. -/
def pieces (code : Text) : List Piece := sectionPieces (firstSection code)

/-- The text of all pieces of code, in order. -/
def codeText (pieces : List Piece) : Text :=
  pieces.flatMap fun
    | .code text => text
    | _ => []

/-- The pieces hold an elapsed-time tag. -/
def hasElapsed (pieces : List Piece) : Bool :=
  pieces.any fun
    | .elapsed _ _ => true
    | _ => false

end CellDisplay.FormatCode
