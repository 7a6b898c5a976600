import CellDisplay.Calendar.DateFields
import CellDisplay.Text.Cut

/-! # Segments of a date code

While the tokens of a date code are replaced, the code is a list of segments. Only
pending segments are searched, so that text which stands for a token is never searched again.
-/

namespace CellDisplay.DateCode

/-- A marker for the half of the day. -/
inductive Marker where
  | halfDay
  /-- The initial of the half of the day, in the case in which the marker is written -/
  | initial (lower : Bool)
  deriving Repr, DecidableEq

def Marker.value (fields : DateFields) : Marker → Text
  | halfDay => fields.halfDay
  | initial lower =>
    let letter := if 12 ≤ fields.hour24 then 'P' else 'A'
    [if lower then letter.toLower else letter]

/-- A segment of a date code. -/
inductive Segment where
  /-- Text in which tokens are still to be found -/
  | pending (text : Text)
  /-- Text that is shown as it is -/
  | settled (text : Text)
  | marker (marker : Marker)
  deriving Repr, DecidableEq

namespace Segment

variable {α : Type}

def text (fields : DateFields) : Segment → Text
  | .pending t | .settled t => t
  | .marker m => m.value fields

/-- Cuts a pending segment at the listed words and makes a segment of each; what lies between
them stays pending. -/
def split (spelling : α → Text) (words : List α) (make : α → Text → Segment) :
    Segment → List Segment
  | .pending t =>
    (Text.cut (Text.wordAt spelling words) t).map fun
      | .plain t => .pending t
      | .word word written => make word written
  | segment => [segment]

def splitAll (spelling : α → Text) (words : List α) (make : α → Text → Segment)
    (segments : List Segment) : List Segment :=
  segments.flatMap (split spelling words make)

end Segment

end CellDisplay.DateCode
