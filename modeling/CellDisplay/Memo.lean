import CellDisplay.Render
import Std.Data.HashMap

/-! # Remembered renderings

A memo keeps the text of each cell that was rendered, by sheet, address and tag of the locale.
A text is kept until the memo is cleared; a memo that is turned off renders every time and
keeps what it has.
-/

namespace CellDisplay

/-- Under what a rendered text is kept. -/
structure MemoKey where
  sheet : Nat
  address : CellAddress
  locale : Text
  deriving Repr, DecidableEq

instance : Hashable MemoKey where
  hash key :=
    mixHash (hash key.sheet) (mixHash (hash key.address) (hash (String.ofList key.locale)))

/-- The kept texts, and whether the memo is in use. -/
structure Memo where
  entries : Std.HashMap MemoKey Text
  enabled : Bool

namespace Memo

/-- A memo in use that keeps nothing yet. -/
def empty : Memo := ⟨∅, true⟩

/-- The number of kept texts. -/
def size (memo : Memo) : Nat := memo.entries.size

/-- A step in the use of a memo. -/
inductive Step where
  /-- Asks for the text of a key, with the rendering to be done if need be -/
  | ask (key : MemoKey) (render : Unit → Rendering)
  | clear
  | setEnabled (enabled : Bool)

/-- The answer to the question for a text. -/
structure Answer where
  text : Text
  /-- The rendering was done for this answer -/
  rendered : Bool
  log : List Record
  deriving DecidableEq

/-- Answers from the memo, or renders; a text rendered while the memo is in use is kept. -/
def ask (memo : Memo) (key : MemoKey) (render : Unit → Rendering) : Answer × Memo :=
  if memo.enabled then
    match memo.entries[key]? with
    | some text => (⟨text, false, [.hit key.address]⟩, memo)
    | none =>
      let rendering := render ()
      (⟨rendering.text, true, .miss key.address :: rendering.log⟩,
        { memo with entries := memo.entries.insert key rendering.text })
  else
    let rendering := render ()
    (⟨rendering.text, true, rendering.log⟩, memo)

/-- Takes a step; only a question has an answer. -/
def step (memo : Memo) : Step → Option Answer × Memo
  | .ask key render =>
    let (answer, memo) := memo.ask key render
    (some answer, memo)
  | .clear => (none, { memo with entries := ∅ })
  | .setEnabled enabled => (none, { memo with enabled })

/-- The question for the text of a cell. -/
def Step.format (sheet : Nat) (address : CellAddress) (cell : Cell) (spec : FormatSpec)
    (options : Options) : Step :=
  .ask ⟨sheet, address, options.locale.tag⟩ fun _ => (Request.ofSpec cell spec options).render

end Memo

end CellDisplay
