import CellDisplay.Calendar.DateFields
import CellDisplay.NumberPattern.Error
import CellDisplay.Text.Quoted

/-! # Rendering errors

Why a format cannot be applied to a number. A cell is rendered all the same; the error only
shows in the record of the rendering.
-/

namespace CellDisplay

/-- Why a format cannot be applied to a number. -/
inductive RenderError where
  | serial (error : SerialError)
  | unsupportedNumerals (code : Text)
  | pattern (fault : NumberPattern.Fault)
  deriving DecidableEq

/-- The message for a rendering error. -/
def RenderError.message : RenderError → Text
  | serial error => error.message
  | unsupportedNumerals code =>
    "unsupported numeral system in pattern ".toList ++ Text.quoted code
  | pattern fault => fault.message

end CellDisplay
