import CellDisplay.Checked.Machine
import CellDisplay.Format.Piece
import CellDisplay.Text.Cut

/-! # Texts by byte offsets

A text is cut at byte offsets, each of which has to be the start of a character or the end of
the text. Words are searched for byte by byte, in ranges that have to lie within the text. An
operation that fails has no value.
-/

namespace CellDisplay.Checked

variable {α : Type}

/-- The texts before and behind a byte offset, which has to be a boundary of characters. -/
def cutAt : (offset : Nat) → (t : Text) → Option (Text × Text)
  | 0, t => some ([], t)
  | _ + 1, [] => none
  | offset + 1, c :: t =>
    if c.utf8Size ≤ offset + 1 then
      (cutAt (offset + 1 - c.utf8Size) t).map fun (before, rest) => (c :: before, rest)
    else none

def isBoundary (t : Text) (offset : Nat) : Bool := (cutAt offset t).isSome

def sliceTo (stop : Nat) (t : Text) : Option Text := (cutAt stop t).map Prod.fst

def sliceFrom (start : Nat) (t : Text) : Option Text := (cutAt start t).map Prod.snd

def slice (start stop : Nat) (t : Text) : Option Text := (sliceTo stop t).bind (sliceFrom start)

/-- The bytes of a text in UTF-8. -/
def bytes (t : Text) : List UInt8 := t.flatMap String.utf8EncodeChar

/-- The bytes of a range, which has to lie within bounds. -/
def byteRange (start stop : Nat) (bs : List UInt8) : Option (List UInt8) :=
  if start ≤ stop ∧ stop ≤ bs.length then some ((bs.take stop).drop start) else none

/-- A byte with an ASCII letter put in lower case. -/
def lowerByte (b : UInt8) : UInt8 := if 0x41 ≤ b ∧ b ≤ 0x5A then b + 0x20 else b

/-- The word stands at an offset of the bytes, up to the case of ASCII letters. -/
def matchesAt (word hay : List UInt8) (i : Nat) : Option Bool := do
  let stop ← (i + word.length : U64).value?
  let found ← byteRange i stop hay
  return found.map lowerByte == word.map lowerByte

/-- The byte offset of the first occurrence of a word that is not empty. -/
def find (word t : Text) : Option (Option Nat) := do
  let pat := bytes word
  let hay := bytes t
  if pat = [] ∨ hay.length < pat.length then return none
  let last ← (hay.length - pat.length : U64).value?
  ((List.range (last + 1)).filter (isBoundary t)).findM? (matchesAt pat hay)

def contains (word t : Text) : Option Bool := (find word t).map Option.isSome

/-- Replaces the occurrences of a word from the left; the search ends within the given number
of rounds. -/
def replaceFrom (word replacement : Text) : (rounds : Nat) → (rest : Text) → Option Text
  | 0, _ => none
  | rounds + 1, rest => do
    match ← find word rest with
    | none => return rest
    | some start =>
      let stop ← (start + word.utf8Length : U64).value?
      let before ← sliceTo start rest
      let after ← replaceFrom word replacement rounds (← sliceFrom stop rest)
      return before ++ replacement ++ after

def replace (word replacement t : Text) : Option Text :=
  if word = [] then some t else replaceFrom word replacement (t.utf8Length + 1) t

/-- The first of the listed words that stands at an offset, if a character starts there. -/
def wordAt (spelling : α → Text) (words : List α) (t : Text) (i : Nat) : Option (Option α) :=
  if isBoundary t i then do
    let left ← ((bytes t).length - i : U64).value?
    words.findM? fun word =>
      if (bytes (spelling word)).length ≤ left then matchesAt (bytes (spelling word)) (bytes t) i
      else some false
  else some none

/-- The plain run between two offsets, unless it is empty. -/
def plainRun (start stop : Nat) (t : Text) : Option (List (Text.Run α)) :=
  if start < stop then (slice start stop t).map ([.plain ·]) else some []

/-- Cuts a text at words, where a plain run opens at `start` and words are looked for from `i`
on; the search ends within the given number of rounds. -/
def cutFrom (spelling : α → Text) (words : List α) (t : Text) :
    (rounds start i : Nat) → Option (List (Text.Run α))
  | 0, _, _ => none
  | rounds + 1, start, i => do
    if t.utf8Length ≤ i then return ← plainRun start t.utf8Length t
    match ← wordAt spelling words t i with
    | some word =>
      let plain ← plainRun start i t
      let stop ← (i + (spelling word).utf8Length : U64).value?
      let written ← slice i stop t
      return plain ++ .word word written :: (← cutFrom spelling words t rounds stop stop)
    | none => cutFrom spelling words t rounds start (← (i + 1 : U64).value?)

def cut (spelling : α → Text) (words : List α) (t : Text) : Option (List (Text.Run α)) :=
  cutFrom spelling words t (t.utf8Length + 1) 0 0

open FormatCode in
/-- The byte offset of the semicolon that ends the section, for a rest at the given offset. -/
def sectionEnd? (surround : Surround) (offset : Nat) : Text → Option Nat
  | [] => none
  | c :: rest =>
    if c = '\\' ∧ surround ≠ .quotes then
      match rest with
      | [] => none
      | d :: rest => sectionEnd? surround (offset + c.utf8Size + d.utf8Size) rest
    else if c = ';' ∧ surround = .plain then some offset
    else sectionEnd? (surround.after c) (offset + c.utf8Size) rest

def firstSection (code : Text) : Option Text :=
  match sectionEnd? .plain 0 code with
  | some stop => sliceTo stop code
  | none => some code

/-- The pieces of the first section of a format code. -/
def pieces (code : Text) : Option (List FormatCode.Piece) :=
  (firstSection code).map FormatCode.sectionPieces

end CellDisplay.Checked
