import CellDisplay.Memo

/-! # What a memo answers

While the cells of a workbook do not change, a memo is described by the questions whose texts
it keeps. A question is answered with the text for the options of the first such question that
has the same sheet, address and tag of the locale.
-/

namespace CellDisplay.Memo

section Ask

variable {memo : Memo} {key : MemoKey} {rendering : Unit → Rendering}

theorem text_ask :
    (memo.ask key rendering).1.text =
      if memo.enabled then memo.entries[key]?.getD (rendering ()).text
      else (rendering ()).text := by
  unfold ask
  split
  · split <;> simp_all
  · rfl

theorem enabled_ask : (memo.ask key rendering).2.enabled = memo.enabled := by
  unfold ask
  split
  · split <;> rfl
  · rfl

theorem entries_ask (k : MemoKey) :
    (memo.ask key rendering).2.entries[k]? =
      memo.entries[k]?.or
        (if memo.enabled ∧ key = k then some (rendering ()).text else none) := by
  unfold ask
  split
  · rename_i he
    split
    · rename_i text hk
      by_cases h : key = k
      · subst h
        simp [hk]
      · simp [h]
    · rename_i hk
      by_cases h : key = k
      · subst h
        simp [he, hk]
      · simp [Std.HashMap.getElem?_insert, h]
  · rename_i he
    simp [he]

end Ask

/-- A question for the text of a cell. -/
structure Question where
  sheet : Nat
  address : CellAddress
  options : Options
  deriving DecidableEq

/-- What is done to the memo of a workbook. -/
inductive Use where
  | question (question : Question)
  | clear
  | setEnabled (enabled : Bool)

/-- The cells of a workbook by sheet and address, each with its format. -/
abbrev Workbook := Nat → CellAddress → Cell × FormatSpec

namespace Question

def key (question : Question) : MemoKey :=
  ⟨question.sheet, question.address, question.options.locale.tag⟩

/-- The text of the cell when no memo is asked. -/
def text (cells : Workbook) (question : Question) : Text :=
  let (cell, spec) := cells question.sheet question.address
  render cell spec question.options

end Question

def Use.step (cells : Workbook) : Use → Step
  | question q =>
    let (cell, spec) := cells q.sheet q.address
    .format q.sheet q.address cell spec q.options
  | clear => .clear
  | setEnabled enabled => .setEnabled enabled

def run (cells : Workbook) (memo : Memo) (uses : List Use) : Memo :=
  uses.foldl (fun memo use => (memo.step (use.step cells)).2) memo

/-- The text that the memo answers to a question. -/
def reply (cells : Workbook) (memo : Memo) (question : Question) : Option Text :=
  (memo.step (Use.step cells (.question question))).1.map Answer.text

/-- The questions that were asked while the memo was in use and since it was last cleared. -/
structure History where
  enabled : Bool
  asked : List Question

namespace History

def initial : History := ⟨true, []⟩

def next (history : History) : Use → History
  | .question question =>
    if history.enabled then { history with asked := history.asked ++ [question] } else history
  | .clear => { history with asked := [] }
  | .setEnabled enabled => { history with enabled }

def ofUses (uses : List Use) : History := uses.foldl next initial

/-- The first question that was asked with a key. -/
def first? (history : History) (key : MemoKey) : Option Question :=
  history.asked.find? (·.key = key)

/-- The question whose text answers a question. -/
def answering (history : History) (question : Question) : Question :=
  if history.enabled then (history.first? question.key).getD question else question

end History

section Run

variable {cells : Workbook} {memo : Memo} {history : History}

/-- The memo keeps the texts of the first questions with each key. -/
structure Keeps (cells : Workbook) (memo : Memo) (history : History) : Prop where
  enabled : memo.enabled = history.enabled
  entries : ∀ key, memo.entries[key]? = (history.first? key).map (Question.text cells)

theorem keeps_empty (cells : Workbook) : Keeps cells empty .initial where
  enabled := rfl
  entries key := by simp [empty, History.initial, History.first?]

theorem exists_step_question (cells : Workbook) (memo : Memo) (question : Question) :
    ∃ rendering : Unit → Rendering, (rendering ()).text = question.text cells ∧
      memo.step (Use.step cells (.question question)) =
        (some (memo.ask question.key rendering).1, (memo.ask question.key rendering).2) :=
  ⟨fun _ => (Request.ofSpec (cells question.sheet question.address).1
    (cells question.sheet question.address).2 question.options).render, rfl, rfl⟩

theorem Keeps.next (h : Keeps cells memo history) (use : Use) :
    Keeps cells (memo.step (use.step cells)).2 (history.next use) := by
  cases use with
  | question question =>
    obtain ⟨rendering, ht, hs⟩ := exists_step_question cells memo question
    have hn : history.next (.question question) =
        ⟨history.enabled, history.asked ++ if history.enabled then [question] else []⟩ := by
      rw [History.next]
      split <;> simp
    rw [hs, hn]
    constructor
    · exact enabled_ask.trans h.enabled
    · intro key
      simp only [entries_ask, h.entries, h.enabled, ht, History.first?, List.find?_append]
      cases List.find? (fun q => q.key = key) history.asked with
      | some first => rfl
      | none =>
        by_cases he : history.enabled
        · by_cases hk : question.key = key <;> simp [he, hk]
        · simp [he]
  | clear =>
    constructor
    · exact h.enabled
    · intro key
      simp [Use.step, step, History.next, History.first?]
  | setEnabled enabled =>
    constructor
    · rfl
    · exact h.entries

theorem Keeps.run (h : Keeps cells memo history) (uses : List Use) :
    Keeps cells (run cells memo uses) (uses.foldl History.next history) := by
  induction uses generalizing memo history with
  | nil => exact h
  | cons use uses ih => exact ih (h.next use)

theorem reply_of_keeps (h : Keeps cells memo history) (question : Question) :
    reply cells memo question = some ((history.answering question).text cells) := by
  obtain ⟨rendering, ht, hs⟩ := exists_step_question cells memo question
  rw [reply, hs, Option.map_some, text_ask, ht, h.enabled, h.entries, History.answering]
  split
  · cases history.first? question.key <;> rfl
  · rfl

theorem text_answering {question : Question}
    (h : ∀ earlier ∈ history.asked, earlier.key = question.key →
      earlier.options = question.options) :
    (history.answering question).text cells = question.text cells := by
  unfold History.answering
  split
  · cases hf : history.first? question.key with
    | none => rfl
    | some first =>
      have hk : first.key = question.key := by simpa using List.find?_some hf
      have ho := h first (List.mem_of_find?_eq_some hf) hk
      obtain ⟨hs, ha, -⟩ := MemoKey.mk.inj hk
      simp [Question.text, hs, ha, ho]
  · rfl

/-- After any uses of a new memo, a question is answered with the text for the options of the
first question that was asked with its key while the memo was in use and since it was last
cleared. This is the text for its own options if all those questions had the same ones. -/
theorem reply_run_empty (cells : Workbook) (uses : List Use) (question : Question) :
    reply cells (run cells empty uses) question =
        some (((History.ofUses uses).answering question).text cells) ∧
      ((∀ earlier ∈ (History.ofUses uses).asked, earlier.key = question.key →
          earlier.options = question.options) →
        reply cells (run cells empty uses) question =
          some (render (cells question.sheet question.address).1
            (cells question.sheet question.address).2 question.options)) := by
  have hr := reply_of_keeps ((keeps_empty cells).run uses) question
  refine ⟨hr, fun h => hr.trans ?_⟩
  exact congrArg some (text_answering h)

end Run

def sameDate : Workbook := fun _ _ => (.ofInt 45356, ⟨14, []⟩)

def firstCell (system : DateSystem) : Question := ⟨0, ⟨0, 0⟩, ⟨system, .enUS⟩⟩

theorem reply_run_empty_cleared :
    reply sameDate (run sameDate empty [.question (firstCell .from1900), .clear])
        (firstCell .from1904) =
      some (render (.ofInt 45356) ⟨14, []⟩ ⟨.from1904, .enUS⟩) :=
  (reply_run_empty sameDate [.question (firstCell .from1900), .clear] (firstCell .from1904)).2
    (by decide)

/-- A text that is kept for one date system answers the question for the other one. -/
theorem exists_reply_ne_render :
    ∃ cells uses question, reply cells (run cells empty uses) question ≠
      some (render (cells question.sheet question.address).1
        (cells question.sheet question.address).2 question.options) := by
  refine ⟨sameDate, [.question (firstCell .from1900)], firstCell .from1904, ?_⟩
  rw [reply_of_keeps ((keeps_empty _).run _)]
  decide +kernel

end CellDisplay.Memo
