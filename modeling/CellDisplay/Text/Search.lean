import CellDisplay.Text.Basic

/-! # Searching a text

Searches look at every position from the left. Letters of the ASCII alphabet match in
either case, and every other character matches itself only.
-/

namespace CellDisplay.Text

/-- The two characters are equal up to the case of an ASCII letter. -/
def sameLetter (c d : Char) : Bool := c.toLower == d.toLower

/-- The text starts with `word`, up to the case of ASCII letters. -/
def startsWith : (word t : Text) → Bool
  | [], _ => true
  | _ :: _, [] => false
  | c :: word, d :: t => sameLetter c d && startsWith word t

/-- Cuts a text before the first position whose remaining text satisfies `p`. -/
def breakAt (p : Text → Bool) : Text → Option (Text × Text)
  | [] => if p [] then some ([], []) else none
  | c :: t =>
    if p (c :: t) then some ([], c :: t)
    else (breakAt p t).map fun (before, rest) => (c :: before, rest)

/-- Cuts a text before the first occurrence of a word that is not empty. -/
def breakOn (word t : Text) : Option (Text × Text) :=
  if word.isEmpty then none else breakAt (startsWith word) t

/-- The byte offset of the first occurrence of a word that is not empty. -/
def find? (word t : Text) : Option Nat :=
  (breakOn word t).map fun (before, _) => before.utf8Length

/-- The word is not empty and occurs in the text. -/
def contains (word t : Text) : Bool := (breakOn word t).isSome

theorem append_of_breakAt {p : Text → Bool} {t before rest : Text}
    (h : breakAt p t = some (before, rest)) : before ++ rest = t ∧ p rest := by
  induction t generalizing before rest with
  | nil => simp only [breakAt] at h; split at h <;> simp_all
  | cons c t ih =>
    simp only [breakAt] at h
    split at h
    · simp_all
    · obtain ⟨⟨b, r⟩, hb, hr⟩ := Option.map_eq_some_iff.1 h
      obtain ⟨rfl, rfl⟩ := Prod.mk.inj hr
      simp [ih hb]

theorem length_le_of_startsWith {word t : Text} (h : startsWith word t) :
    word.length ≤ t.length := by
  induction word generalizing t with
  | nil => simp
  | cons c word ih =>
    cases t with
    | nil => simp [startsWith] at h
    | cons d t =>
      simp only [startsWith, Bool.and_eq_true] at h
      simpa using ih h.2

end CellDisplay.Text
