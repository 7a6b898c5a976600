import CellDisplay.Proofs.NumberPattern.Parsing

/-! # Numbers without places

A pattern that is read has a place for a digit, unless a point is all there is of its number but for
grouping separators before it.
-/

namespace CellDisplay.NumberPattern

namespace NumberForm

variable {n : NumberForm} {p : Placeholder}

/-- The number is a point without places, behind any grouping separators. -/
def IsBarePoint (n : NumberForm) : Prop :=
  ∃ k, n.tokens = List.replicate k .grouping ++ [.point]

theorem token_mem_tokens (h : p ∈ n.integer ∨ p ∈ n.fraction.getD []) : p.token ∈ n.tokens := by
  rcases h with h | h
  · have htoken : p.token ≠ .grouping := by cases p <;> exact Token.noConfusion
    exact List.mem_append_left _ ((mem_integerTokens_iff htoken).mpr ⟨p, h, rfl⟩)
  · refine List.mem_append_right _ (List.mem_append_left _ ?_)
    cases hf : n.fraction with
    | none =>
      rw [hf] at h
      exact absurd h List.not_mem_nil
    | some places =>
      rw [hf] at h
      exact List.mem_cons_of_mem _ (List.mem_map_of_mem h)

/-- Without places, there are only separators before the point. -/
theorem integerTokens_of_integer_eq_nil (h : n.integer = []) :
    integerTokens n.first n.groups = List.replicate n.groups.length .grouping := by
  obtain ⟨hfirst, hgroups⟩ := List.append_eq_nil_iff.mp h
  have hempty : n.groups = List.replicate n.groups.length [] :=
    List.eq_replicate_of_mem (List.flatten_eq_nil_iff.mp hgroups)
  rw [integerTokens, hfirst, hempty, List.length_replicate]
  simp [List.flatMap_replicate]

/-- A number that is present has no place exactly if it is a bare point. -/
theorem isBarePoint_iff (hpresent : n.IsPresent) :
    n.IsBarePoint ↔ n.integer = [] ∧ n.fraction.getD [] = [] := by
  constructor
  · rintro ⟨k, htokens⟩
    have hnone (p : Placeholder) : p.token ∉ n.tokens := by
      rw [htokens]
      cases p <;> simp [Placeholder.token, List.mem_replicate]
    exact ⟨List.eq_nil_iff_forall_not_mem.mpr fun p hp => hnone p (token_mem_tokens (.inl hp)),
      List.eq_nil_iff_forall_not_mem.mpr fun p hp => hnone p (token_mem_tokens (.inr hp))⟩
  · rintro ⟨hinteger, hfraction⟩
    have hexponent : n.exponent = none := by
      by_contra h
      exact n.places_of_exponent (Option.isSome_iff_ne_none.mpr h)
        (List.append_eq_nil_iff.mpr ⟨hinteger, hfraction⟩)
    obtain ⟨places, hpoint⟩ := Option.ne_none_iff_exists'.mp fun h =>
      n.isPresent_iff.mp hpresent ⟨hinteger, h⟩
    rw [hpoint, Option.getD_some] at hfraction
    refine ⟨n.groups.length, ?_⟩
    rw [tokens, integerTokens_of_integer_eq_nil hinteger, hpoint, hfraction, hexponent]
    rfl

end NumberForm

/-- A pattern without a place for a digit is read exactly if its first number is a bare point. -/
theorem parse_placeless_iff (pattern : Text) :
    (∃ p, parse pattern = .ok p ∧ p.layout.integer = [] ∧ p.layout.fraction = []) ↔
      ∃ form : Form, (tokens pattern).complete? = some form.tokens ∧
        form.positive.number.IsBarePoint := by
  constructor
  · rintro ⟨p, hp, hinteger, hfraction⟩
    obtain ⟨-, form, hform⟩ := exists_form_of_parse hp
    obtain rfl := Except.ok.inj (hp.symm.trans (parse_of_complete? hform))
    exact ⟨form, hform, (NumberForm.isBarePoint_iff form.isPresent).mpr ⟨hinteger, hfraction⟩⟩
  · rintro ⟨form, hform, hbare⟩
    exact ⟨form.pattern, parse_of_complete? hform,
      (NumberForm.isBarePoint_iff form.isPresent).mp hbare⟩

/-- A point alone is read as a pattern. -/
theorem parse_point :
    ∃ p, parse ".".toList = .ok p ∧ p.layout.integer = [] ∧ p.layout.fraction = [] :=
  ⟨⟨⟨[], [], none, none⟩, ⟨[], []⟩, none⟩, by decide +kernel, rfl, rfl⟩

end CellDisplay.NumberPattern
