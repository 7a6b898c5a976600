import CellDisplay.Text.Search

/-! # Cutting a text at words

A text is read once from the left. Where a word is found it becomes a run of its own, and
reading goes on behind it; the characters between two words form a plain run.
-/

namespace CellDisplay.Text

/-- A run of a text that was cut at words, each found as some `α`. -/
inductive Run (α : Type) where
  | plain (t : Text)
  | word (found : α) (written : Text)
  deriving Repr, DecidableEq

namespace Run

variable {α : Type}

def written : Run α → Text
  | plain t => t
  | word _ t => t

/-- Puts a plain character in front of the runs. -/
def consChar (c : Char) : List (Run α) → List (Run α)
  | plain t :: runs => plain (c :: t) :: runs
  | runs => plain [c] :: runs

end Run

variable {α : Type}

/-- Cuts a text at the words that `find` sees at the start of a text, with their lengths. -/
def cut (find : Text → Option (α × Nat)) (t : Text) : List (Run α) :=
  match t with
  | [] => []
  | c :: rest =>
    match find (c :: rest) with
    | some (found, n + 1) => .word found (c :: rest.take n) :: cut find (rest.drop n)
    | _ => Run.consChar c (cut find rest)
termination_by t.length

/-- The first of the listed words whose spelling the text starts with, and its length. -/
def wordAt (spelling : α → Text) (words : List α) (t : Text) : Option (α × Nat) :=
  (words.find? fun word => startsWith (spelling word) t).map fun word =>
    (word, (spelling word).length)

/-- Replaces the leftmost occurrences of a word, none of which overlap. -/
def replace (word replacement t : Text) : Text :=
  (cut (wordAt id [word]) t).flatMap fun
    | .plain s => s
    | .word _ _ => replacement

theorem flatMap_written_consChar (c : Char) (runs : List (Run α)) :
    (Run.consChar c runs).flatMap Run.written = c :: runs.flatMap Run.written := by
  cases runs with
  | nil => rfl
  | cons run runs => cases run <;> rfl

/-- Cutting loses nothing. -/
theorem flatMap_written_cut (find : Text → Option (α × Nat)) (t : Text) :
    (cut find t).flatMap Run.written = t := by
  fun_induction cut find t with
  | case1 => rfl
  | case2 c rest found n _ ih => simp [Run.written, ih]
  | case3 c rest _ ih => rw [flatMap_written_consChar, ih]

end CellDisplay.Text
