import CellDisplay.DateCode.Layout
import CellDisplay.DateCode.Substitution
import CellDisplay.Format.Resolved

/-! # Routes of dates

A format renders as a date along one of three routes: the layout of an old code, the layout
of a built-in date index, or the replacement of the tokens of its code.
-/

namespace CellDisplay.DateCode

/-- How a date is rendered. -/
inductive Route where
  /-- By the layout of an old code, at its place in the table -/
  | legacy (place : Fin 8)
  /-- By the layout of a built-in index -/
  | builtin (index : Nat)
  /-- By replacing the tokens of the code -/
  | substitute
  deriving Repr, DecidableEq

def isDateIndex (index : Nat) : Bool :=
  [(14, 22), (27, 36), (45, 47), (50, 58)].any fun (first, last) =>
    first ≤ index && index ≤ last

/-- The code has the shape of an old date code: a text section at its end, a locale tag at its
start, or a year behind at least three bytes. -/
def hasLegacyShape (code : Text) : Bool :=
  ";@".toList.isSuffixOf code || "[$-".toList.isPrefixOf code ||
    (Text.breakAt ("yyyy".toList.isPrefixOf ·) code).any fun (before, _) => 3 ≤ before.utf8Length

/-- The route of a format, if it renders as a date. -/
def route? (format : ResolvedFormat) : Option Route :=
  match legacyCodes.findFinIdx? fun code => code.toList = format.code with
  | some place => some (.legacy place)
  | none =>
    if isDateIndex format.index then some (.builtin format.index)
    else if isDateIndex format.givenIndex then some (.builtin format.givenIndex)
    else
      let pieces := FormatCode.pieces format.code
      if isDateCode pieces || (hasLegacyShape format.code && hasDateLetter pieces) then
        some .substitute
      else none

/-- The tag of a code that is US English in every locale. -/
def englishTag : Text := "[$-409]".toList

def taggedOptions (code : Text) (options : Options) : Options :=
  if englishTag.isPrefixOf code then { options with locale := .enUS } else options

/-- The calendar of a code, which is imperial if its text has the letter of an era. -/
def calendarOf (pieces : List FormatCode.Piece) : Calendar :=
  if (FormatCode.codeText pieces).any (·.toLower = 'g') then .imperial else .gregorian

def render (serial : Binary64) (format : ResolvedFormat) (route : Route) (options : Options) :
    Except SerialError Text :=
  match route with
  | .legacy place => do
    let options := taggedOptions legacyCodes[place].toList options
    let fields ← DateFields.ofSerial serial .gregorian options
    return legacyText place fields
  | .builtin index => do
    let fields ← DateFields.ofSerial serial (builtinCalendar index) options
    return builtinText index fields
  | .substitute => do
    let pieces := FormatCode.pieces format.code
    let fields ←
      DateFields.ofSerial serial (calendarOf pieces) (taggedOptions format.code options)
    return substitute pieces format.code fields

end CellDisplay.DateCode
