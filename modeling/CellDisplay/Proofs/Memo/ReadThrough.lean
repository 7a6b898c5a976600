import CellDisplay.Memo
import CellDisplay.Proofs.Memo.History
import Mathlib.Data.List.Induction

/-! # A memo as a read-through table

What a memo keeps and answers is determined by the steps taken since it was new. A question
counts if it was asked while the memo was in use and the memo was not cleared after it; the text
of a key is that of the first question that counts.
-/

namespace CellDisplay

/-- The record says whether a text was remembered. -/
def Record.isLookup : Record → Bool
  | hit _ | miss _ => true
  | _ => false

theorem filter_isLookup_render (request : Request) :
    request.render.log.filter Record.isLookup = [] := by
  obtain ⟨cell, format, options⟩ := request
  have hnumber : ∀ value, (renderNumber value format options).log.filter Record.isLookup = [] := by
    intro value
    unfold renderNumber
    split
    · dsimp only
      split <;> rfl
    · split <;> rfl
  cases cell with
  | numeric value => exact hnumber value
  | formula result =>
    cases result with
    | number value => exact hnumber value
    | text t => rfl
  | blank | boolean _ | error _ | text _ => rfl

namespace Memo

/-- The memo after some steps. -/
def after (memo : Memo) (steps : List Step) : Memo :=
  steps.foldl (fun memo step => (memo.step step).2) memo

/-- What a step sets the use of the memo to. -/
def Step.setting? : Step → Option Bool
  | setEnabled enabled => some enabled
  | _ => none

/-- A new memo is in use unless the last setting turned it off. -/
def inUse (steps : List Step) : Bool := (steps.reverse.findSome? Step.setting?).getD true

/-- After the steps `before`, the question for a key was asked while the memo was in use, with
this text as its rendering, and the memo was not cleared in the steps that follow. -/
def Counts (steps before : List Step) (key : MemoKey) (text : Text) : Prop :=
  ∃ render after, steps = before ++ .ask key render :: after ∧ inUse before ∧
    .clear ∉ after ∧ (render ()).text = text

/-- The text is that of the first question for the key that counts. -/
def FirstCounts (steps : List Step) (key : MemoKey) (text : Text) : Prop :=
  ∃ before, Counts steps before key text ∧
    ∀ earlier text', Counts steps earlier key text' → before.length ≤ earlier.length

section Steps

variable {steps before : List Step} {step : Step} {key : MemoKey} {text : Text}

theorem after_concat (memo : Memo) :
    memo.after (steps ++ [step]) = ((memo.after steps).step step).2 := by
  simp [after]

theorem inUse_concat : inUse (steps ++ [step]) = step.setting?.getD (inUse steps) := by
  rw [inUse, List.reverse_append]
  cases step <;> rfl

theorem Counts.length_lt (h : Counts steps before key text) : before.length < steps.length := by
  obtain ⟨render, after, rfl, -⟩ := h
  simp

theorem not_counts_nil : ¬ Counts [] before key text := fun h => by simpa using h.length_lt

/-- A question counts after one more step if it counted before and the step does not clear the
memo, or if it is that step. -/
theorem counts_concat_iff :
    Counts (steps ++ [step]) before key text ↔
      Counts steps before key text ∧ step ≠ .clear ∨
        before = steps ∧ inUse steps ∧ ∃ render, step = .ask key render ∧
          (render ()).text = text := by
  constructor
  · rintro ⟨render, after, hs, hu, hc, rfl⟩
    rcases List.eq_nil_or_concat after with rfl | ⟨after, last, rfl⟩
    · obtain ⟨rfl, h⟩ := List.append_inj' hs rfl
      obtain rfl : step = .ask key render := by simpa using h
      exact .inr ⟨rfl, hu, render, rfl, rfl⟩
    · have hs' : steps ++ [step] = (before ++ .ask key render :: after) ++ [last] := by
        simpa using hs
      obtain ⟨rfl, h⟩ := List.append_inj' hs' rfl
      obtain rfl : step = last := by simpa using h
      refine .inl ⟨⟨render, after, rfl, hu, ?_, rfl⟩, ?_⟩
      · exact fun h => hc (by simp [h])
      · exact fun h => hc (by simp [h])
  · rintro (⟨⟨render, after, rfl, hu, hc, rfl⟩, hstep⟩ | ⟨rfl, hu, render, rfl, rfl⟩)
    · refine ⟨render, after ++ [step], by simp, hu, ?_, rfl⟩
      simp only [List.mem_append, List.mem_singleton, not_or]
      exact ⟨hc, fun h => hstep h.symm⟩
    · exact ⟨render, [], rfl, hu, by simp, rfl⟩

theorem firstCounts_concat_clear : ¬ FirstCounts (steps ++ [.clear]) key text := by
  rintro ⟨before, h, -⟩
  simp [counts_concat_iff] at h

theorem firstCounts_concat_setEnabled {enabled : Bool} :
    FirstCounts (steps ++ [.setEnabled enabled]) key text ↔ FirstCounts steps key text := by
  have h : ∀ before text, Counts (steps ++ [.setEnabled enabled]) before key text ↔
      Counts steps before key text := by
    intro before text
    simp [counts_concat_iff]
  simp only [FirstCounts, h]

theorem firstCounts_concat_of_firstCounts {text' : Text} (hstep : step ≠ .clear)
    (h : FirstCounts steps key text) :
    FirstCounts (steps ++ [step]) key text' ↔ text = text' := by
  obtain ⟨before, hb, hfirst⟩ := h
  have hb' : Counts (steps ++ [step]) before key text :=
    counts_concat_iff.mpr (.inl ⟨hb, hstep⟩)
  have hfirst' : ∀ earlier other, Counts (steps ++ [step]) earlier key other →
      before.length ≤ earlier.length := by
    intro earlier other he
    rcases counts_concat_iff.mp he with ⟨he, -⟩ | ⟨rfl, -⟩
    · exact hfirst earlier other he
    · exact Nat.le_of_lt hb.length_lt
  constructor
  · rintro ⟨before', hc, hmin⟩
    have hl : before.length = before'.length :=
      Nat.le_antisymm (hfirst' _ _ hc) (hmin _ _ hb')
    -- Two questions at the same place are one and the same.
    obtain ⟨render, after, hs, -, -, rfl⟩ := hb'
    obtain ⟨render', after', hs', -, -, rfl⟩ := hc
    obtain ⟨-, h⟩ := List.append_inj (hs.symm.trans hs') hl
    obtain ⟨-, rfl⟩ : True ∧ render = render' := by simpa using (List.cons.inj h).1
    rfl
  · rintro rfl
    exact ⟨before, hb', hfirst'⟩

theorem exists_firstCounts (h : Counts steps before key text) :
    ∃ text, FirstCounts steps key text := by
  induction hn : before.length using Nat.strongRecOn generalizing before text with
  | ind n ih =>
    by_cases hmin : ∀ earlier text', Counts steps earlier key text' →
        before.length ≤ earlier.length
    · exact ⟨text, before, h, hmin⟩
    · simp only [not_forall, Nat.not_le] at hmin
      obtain ⟨earlier, text', he, hlt⟩ := hmin
      exact ih _ (hn ▸ hlt) he rfl

theorem exists_firstCounts_iff :
    (∃ text, FirstCounts steps key text) ↔ ∃ before text, Counts steps before key text := by
  constructor
  · rintro ⟨text, before, h, -⟩
    exact ⟨before, text, h⟩
  · rintro ⟨before, text, h⟩
    exact exists_firstCounts h

theorem firstCounts_concat_ask {k : MemoKey} {render : Unit → Rendering}
    (h : ∀ text, ¬ FirstCounts steps key text) :
    FirstCounts (steps ++ [.ask k render]) key text ↔
      inUse steps ∧ k = key ∧ (render ()).text = text := by
  have hc : ∀ before text, Counts (steps ++ [.ask k render]) before key text ↔
      before = steps ∧ inUse steps ∧ k = key ∧ (render ()).text = text := by
    intro before text
    rw [counts_concat_iff]
    constructor
    · rintro (⟨hb, -⟩ | ⟨rfl, hu, render', hr, rfl⟩)
      · obtain ⟨first, hf⟩ := exists_firstCounts hb
        exact absurd hf (h first)
      · obtain ⟨rfl, rfl⟩ := Step.ask.inj hr
        exact ⟨rfl, hu, rfl, rfl⟩
    · rintro ⟨rfl, hu, rfl, rfl⟩
      exact .inr ⟨rfl, hu, render, rfl, rfl⟩
  simp only [FirstCounts, hc]
  constructor
  · rintro ⟨before, ⟨-, h⟩, -⟩
    exact h
  · intro h
    refine ⟨steps, ⟨rfl, h⟩, ?_⟩
    rintro earlier text' ⟨rfl, -⟩
    exact Nat.le_refl _

/-- The memo is in use as it was last set. -/
theorem enabled_after_empty (steps : List Step) : (empty.after steps).enabled = inUse steps := by
  induction steps using List.reverseRecOn with
  | nil => rfl
  | append_singleton steps step ih =>
    rw [after_concat, inUse_concat]
    cases step with
    | ask key render => exact enabled_ask.trans ih
    | clear => exact ih
    | setEnabled enabled => rfl

/-- The memo keeps the text of the first question for each key that counts. -/
theorem entries_after_empty (steps : List Step) (key : MemoKey) (text : Text) :
    (empty.after steps).entries[key]? = some text ↔ FirstCounts steps key text := by
  induction steps using List.reverseRecOn generalizing text with
  | nil =>
    simp only [after, List.foldl_nil, empty, Std.HashMap.getElem?_empty, reduceCtorEq, false_iff]
    rintro ⟨before, h, -⟩
    exact not_counts_nil h
  | append_singleton steps step ih =>
    rw [after_concat]
    cases step with
    | ask k render =>
      have hstep : ((empty.after steps).step (.ask k render)).2.entries[key]? =
          (empty.after steps).entries[key]?.or
            (if (empty.after steps).enabled ∧ k = key then some (render ()).text else none) :=
        entries_ask key
      rw [hstep, enabled_after_empty]
      cases hk : (empty.after steps).entries[key]? with
      | some first =>
        rw [firstCounts_concat_of_firstCounts (by simp) ((ih first).mp hk)]
        simp
      | none =>
        have hnone : ∀ text, ¬ FirstCounts steps key text := fun text h => by
          simp [(ih text).mpr h] at hk
        rw [firstCounts_concat_ask hnone]
        simp [and_assoc]
    | clear => simpa [step] using firstCounts_concat_clear
    | setEnabled enabled => exact (ih text).trans firstCounts_concat_setEnabled.symm

theorem mem_entries_after_empty (steps : List Step) (key : MemoKey) :
    key ∈ (empty.after steps).entries ↔ ∃ before text, Counts steps before key text := by
  rw [← exists_firstCounts_iff, Std.HashMap.mem_iff_isSome_getElem?, Option.isSome_iff_exists]
  exact exists_congr fun text => entries_after_empty steps key text

/-- The size of the memo is the number of keys with a question that counts. -/
theorem size_after_empty (steps : List Step) :
    ∃ keys : List MemoKey, keys.Nodup ∧
      (∀ key, key ∈ keys ↔ ∃ before text, Counts steps before key text) ∧
      (empty.after steps).size = keys.length := by
  refine ⟨(empty.after steps).entries.keys, ?_, ?_, ?_⟩
  · exact Std.HashMap.nodup_keys
  · intro key
    rw [Std.HashMap.mem_keys]
    exact mem_entries_after_empty steps key
  · rw [size, Std.HashMap.length_keys]

end Steps

section Answers

variable {memo : Memo} {key : MemoKey} {render : Unit → Rendering}

/-- How a question is answered while the memo is in use. -/
structure Answer.Reads (answer : Answer) (memo next : Memo) (key : MemoKey)
    (render : Unit → Rendering) : Prop where
  kept : next.entries[key]? = some answer.text
  text : answer.text = memo.entries[key]?.getD (render ()).text
  rendered : answer.rendered ↔ key ∉ memo.entries
  log : answer.log = if key ∈ memo.entries then [.hit key.address]
    else .miss key.address :: (render ()).log

/-- How a question is answered while the memo is turned off. -/
structure Answer.Renders (answer : Answer) (memo next : Memo) (render : Unit → Rendering) :
    Prop where
  entries : next.entries = memo.entries
  text : answer.text = (render ()).text
  rendered : answer.rendered
  log : answer.log = (render ()).log

theorem reads_ask (h : memo.enabled) :
    (memo.ask key render).1.Reads memo (memo.ask key render).2 key render := by
  rw [ask, if_pos h]
  cases hk : memo.entries[key]? with
  | some text =>
    have hm : key ∈ memo.entries := Std.HashMap.mem_iff_isSome_getElem?.mpr (by simp [hk])
    constructor
    case kept => exact hk
    case text => simp [hk]
    case rendered => simp [hm]
    case log => simp [hm]
  | none =>
    have hm : key ∉ memo.entries := by simp [Std.HashMap.mem_iff_isSome_getElem?, hk]
    constructor
    case kept => exact Std.HashMap.getElem?_insert_self
    case text => simp [hk]
    case rendered => simp [hm]
    case log => simp [hm]

theorem renders_ask (h : ¬ memo.enabled) :
    (memo.ask key render).1.Renders memo (memo.ask key render).2 render := by
  rw [ask, if_neg h]
  exact ⟨rfl, rfl, rfl, rfl⟩

theorem filter_isLookup_ask (render : Unit → Rendering)
    (h : (render ()).log.filter Record.isLookup = []) :
    (memo.ask key render).1.log.filter Record.isLookup =
      if memo.enabled then
        [if key ∈ memo.entries then .hit key.address else .miss key.address]
      else [] := by
  by_cases he : memo.enabled
  · rw [if_pos he, (reads_ask he).log]
    split
    · rfl
    · rw [List.filter_cons_of_pos rfl, h]
  · rw [if_neg he, (renders_ask he).log, h]

/-- After any steps, a new memo keeps for each key the text of the first question that counts,
and its size is the number of those keys. A question is answered from what is kept while the
memo is in use, and a rendering is done and recorded as a miss only if nothing is kept; while
the memo is turned off, a question is answered by its own rendering and nothing is kept. A
question for a cell leaves one record of the memo while it is in use and else none. -/
theorem after_empty_readThrough (steps : List Step) :
    (∀ key text, (empty.after steps).entries[key]? = some text ↔ FirstCounts steps key text) ∧
    (∀ key, key ∈ (empty.after steps).entries ↔ ∃ before text, Counts steps before key text) ∧
    (∃ keys : List MemoKey, keys.Nodup ∧
      (∀ key, key ∈ keys ↔ ∃ before text, Counts steps before key text) ∧
      (empty.after steps).size = keys.length) ∧
    (∀ enabled, ((empty.after steps).step (.setEnabled enabled)).2.entries =
      (empty.after steps).entries) ∧
    (∀ key render, ∃ answer next,
      (empty.after steps).step (.ask key render) = (some answer, next) ∧
        if inUse steps then answer.Reads (empty.after steps) next key render
        else answer.Renders (empty.after steps) next render) ∧
    (∀ sheet address cell spec options, ∃ answer next,
      (empty.after steps).step (.format sheet address cell spec options) = (some answer, next) ∧
        answer.log.filter Record.isLookup =
          if inUse steps then
            [if ⟨sheet, address, options.locale.tag⟩ ∈ (empty.after steps).entries then
              .hit address else .miss address]
          else []) := by
  refine ⟨entries_after_empty steps, mem_entries_after_empty steps, size_after_empty steps,
    fun _ => rfl, ?_, ?_⟩
  · intro key render
    refine ⟨_, _, rfl, ?_⟩
    rw [← enabled_after_empty]
    split
    · rename_i h
      exact reads_ask h
    · rename_i h
      exact renders_ask h
  · intro sheet address cell spec options
    refine ⟨_, _, rfl, ?_⟩
    rw [← enabled_after_empty]
    exact filter_isLookup_ask (fun _ => (Request.ofSpec cell spec options).render)
      (filter_isLookup_render _)

end Answers

end Memo

end CellDisplay
