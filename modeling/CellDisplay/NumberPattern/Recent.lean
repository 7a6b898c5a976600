import CellDisplay.NumberPattern.Parser

/-! # Recently used number patterns

Number patterns are kept by their texts in a map that has room for so many, the one used last
first. A text that is not a pattern is not kept.
-/

namespace CellDisplay.NumberPattern

/-- The operations of a map from texts to number patterns. A text that is looked up is used, so
that the map changes with it. -/
structure PatternMap (σ : Type) where
  empty : σ
  get : σ → Text → Option NumberPattern × σ
  put : σ → Text → NumberPattern → σ

/-- Looks a pattern up, or reads it and keeps it. -/
def PatternMap.getOrParse {σ : Type} (map : PatternMap σ) (state : σ) (text : Text) :
    Except Fault NumberPattern × σ :=
  match map.get state text with
  | (some pattern, state) => (.ok pattern, state)
  | (none, state) =>
    match parse text with
    | .ok pattern => (.ok pattern, map.put state text pattern)
    | .error fault => (.error fault, state)

/-- Moves a text to the front, with its pattern. -/
def toFront (text : Text) (pattern : NumberPattern) (entries : List (Text × NumberPattern)) :
    List (Text × NumberPattern) :=
  (text, pattern) :: entries.filter (·.1 ≠ text)

/-- The patterns asked for last, each with its text. -/
structure Recent where
  entries : List (Text × NumberPattern)
  deriving Repr, DecidableEq

namespace Recent

def capacity : Nat := 256

def empty : Recent := ⟨[]⟩

def get (recent : Recent) (text : Text) : Option NumberPattern × Recent :=
  match recent.entries.lookup text with
  | some pattern => (some pattern, ⟨toFront text pattern recent.entries⟩)
  | none => (none, recent)

/-- Puts a pattern first; the pattern asked for longest ago makes room for it. -/
def put (recent : Recent) (text : Text) (pattern : NumberPattern) : Recent :=
  ⟨(toFront text pattern recent.entries).take capacity⟩

def map : PatternMap Recent := ⟨empty, get, put⟩

def getOrParse (recent : Recent) (text : Text) : Except Fault NumberPattern × Recent :=
  map.getOrParse recent text

end Recent

end CellDisplay.NumberPattern
