import CellDisplay.Cell
import CellDisplay.NumberCode.Rendering
import CellDisplay.Record

/-! # Rendering cells

A cell is rendered as text under a format and some options. Rendering never fails: a number
whose format cannot be applied is shown in plain decimal digits.
-/

namespace CellDisplay

/-- A rendered text with the records of its rendering, in order. -/
structure Rendering where
  text : Text
  log : List Record
  deriving DecidableEq

/-- A cell to render, with its resolved format and the options. -/
structure Request where
  cell : Cell
  format : ResolvedFormat
  options : Options
  deriving DecidableEq

/-- A number with at most ten decimals, which do not end in zeros. -/
def plainNumber (value : Binary64) : Text :=
  let digits := Decimal.fixed 10 value
  let fraction := Text.trimEnd (· = '0') digits.fraction
  (if value.isNegative then ['-'] else []) ++ digits.whole ++
    NumberPattern.pointed '.' fraction

/-- The plain text of a number and the record of why its format could not be applied. -/
def fallback (value : Binary64) (format : ResolvedFormat) (error : RenderError) : Rendering :=
  ⟨plainNumber value, [.fallback value format.code error]⟩

/-- Renders a number, as a date if its format has a route for dates. -/
def renderNumber (value : Binary64) (format : ResolvedFormat) (options : Options) : Rendering :=
  match DateCode.route? format with
  | some route =>
    let rendering : Rendering :=
      match DateCode.render value format route options with
      | .ok text => ⟨text, []⟩
      | .error error => fallback value format (.serial error)
    { rendering with log := .routed format.code route :: rendering.log }
  | none =>
    match NumberCode.render value format options.locale with
    | .ok text => ⟨text, []⟩
    | .error error => fallback value format error

namespace Request

/-- The request for a cell whose format is still to be resolved. -/
def ofSpec (cell : Cell) (spec : FormatSpec) (options : Options) : Request :=
  ⟨cell, spec.resolve options.locale, options⟩

def render (request : Request) : Rendering :=
  match request.cell with
  | .blank => ⟨[], []⟩
  | .boolean value => ⟨(if value then "true" else "false").toList, []⟩
  | .error t | .text t | .formula (.text t) => ⟨t, []⟩
  | .numeric value | .formula (.number value) =>
    renderNumber value request.format request.options

end Request

def render (cell : Cell) (spec : FormatSpec) (options : Options) : Text :=
  (Request.ofSpec cell spec options).render.text

/-- The number pattern or date code by which a number is rendered, which is the code itself if
it cannot be lowered. -/
def ResolvedFormat.appliedPattern (format : ResolvedFormat) : Text :=
  if (DateCode.route? format).isSome then format.code
  else
    match NumberCode.patternOf format with
    | .ok pattern => pattern
    | .error _ => format.code

end CellDisplay
