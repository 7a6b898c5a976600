import CellDisplay.Address
import CellDisplay.DateCode.Route
import CellDisplay.Error

/-! # Records of rendering

While a cell is rendered, records say along which route a date goes, why a format could not
be applied, and whether a text was remembered.
-/

namespace CellDisplay

/-- A record of rendering. -/
inductive Record where
  | routed (code : Text) (route : DateCode.Route)
  | fallback (value : Binary64) (code : Text) (error : RenderError)
  | hit (address : CellAddress)
  | miss (address : CellAddress)
  deriving DecidableEq

/-- How much detail a record gives. -/
inductive Level where
  | trace
  | debug
  deriving Repr, DecidableEq

def Level.name : Level → Text
  | trace => "TRACE".toList
  | debug => "DEBUG".toList

def DateCode.Route.name : DateCode.Route → Text
  | legacy place => "Legacy(".toList ++ Text.decimal place.val ++ ")".toList
  | builtin index => "Builtin(".toList ++ Text.decimal index ++ ")".toList
  | substitute => "Substitute".toList

namespace Record

def level : Record → Level
  | fallback _ _ _ => .debug
  | _ => .trace

def message : Record → Text
  | routed code route =>
    "pattern ".toList ++ Text.quoted code ++ " routed as date (".toList ++ route.name ++
      ")".toList
  | fallback value code error =>
    "falling back to plain number for ".toList ++ Decimal.display value ++ " with ".toList ++
      Text.quoted code ++ ": ".toList ++ error.message
  | hit address => "format cache hit for ".toList ++ address.toText
  | miss address => "format cache miss for ".toList ++ address.toText

end Record

end CellDisplay
