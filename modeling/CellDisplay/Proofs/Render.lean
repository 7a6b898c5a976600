import CellDisplay.Render

/-! # Formats that render alike

An index that is another name of an index renders as that index does, and resolving a format twice
changes nothing. A date code with the English tag renders alike in every locale.
-/

namespace CellDisplay

open DateCode

section Route

variable {format : ResolvedFormat} {route : Route}

theorem code_of_findFinIdx? {place : Fin 8} {code : Text}
    (h : (legacyCodes.findFinIdx? fun legacy => legacy.toList = code) = some place) :
    (legacyCodes.get place).toList = code := by
  obtain ⟨i, hi, rfl⟩ := Option.map_eq_some_iff.mp h
  exact of_decide_eq_true (Array.findFinIdx?_eq_some_iff.mp hi).1

/-- What makes a format take a route. -/
theorem route?_cases (h : route? format = some route) :
    (∃ place, route = .legacy place ∧ (legacyCodes.get place).toList = format.code) ∨
      (∃ index, route = .builtin index ∧ isDateIndex index ∧
        (index = format.index ∨ index = format.givenIndex)) ∨
      route = .substitute := by
  unfold route? at h
  split at h
  · rename_i place hplace
    exact .inl ⟨place, (Option.some.inj h).symm, code_of_findFinIdx? hplace⟩
  · split at h
    · rename_i hindex
      exact .inr (.inl ⟨_, (Option.some.inj h).symm, hindex, .inl rfl⟩)
    · split at h
      · rename_i hindex
        exact .inr (.inl ⟨_, (Option.some.inj h).symm, hindex, .inr rfl⟩)
      · dsimp only at h
        split at h
        · exact .inr (.inr (Option.some.inj h).symm)
        · simp at h

/-- Where the index is a date index, the route does not depend on the index that the cell gives. -/
theorem route?_givenIndex (h : isDateIndex format.index) (given : Nat) :
    route? { format with givenIndex := given } = route? format := by
  unfold route?
  dsimp only
  rw [if_pos h, if_pos h]

theorem renderNumber_givenIndex {given : Nat}
    (h : route? { format with givenIndex := given } = route? format) (value : Binary64)
    (options : Options) :
    renderNumber value { format with givenIndex := given } options =
      renderNumber value format options := by
  unfold renderNumber
  rw [h]
  rfl

/-- Only numbers are rendered by the format and the options. -/
theorem Request.render_of_renderNumber {format' : ResolvedFormat}
    {options options' : Options} (h : ∀ value, renderNumber value format options =
      renderNumber value format' options') (cell : Cell) :
    (Request.mk cell format options).render = (Request.mk cell format' options').render := by
  cases cell with
  | numeric value => exact h value
  | formula result =>
    cases result with
    | number value => exact h value
    | text t => rfl
  | _ => rfl

end Route

section Alias

namespace FormatSpec

theorem canonicalIndex_eq_or_mem (index : Nat) :
    canonicalIndex index = index ∨ (index, canonicalIndex index) ∈ indexAliases := by
  unfold canonicalIndex
  cases h : indexAliases.lookup index with
  | none => exact .inl rfl
  | some target =>
    obtain ⟨front, back, hl, -⟩ := List.lookup_eq_some_iff.mp h
    exact .inr (hl ▸ List.mem_append_right _ List.mem_cons_self)

/-- An alias has the layout and the calendar of its index, which is a date index and no alias. -/
theorem of_mem_indexAliases {entry : Nat × Nat} (h : entry ∈ indexAliases) :
    builtinText entry.1 = builtinText entry.2 ∧
      builtinCalendar entry.1 = builtinCalendar entry.2 ∧
      isDateIndex entry.2 ∧ canonicalIndex entry.2 = entry.2 := by
  have hrest : ∀ entry ∈ indexAliases, builtinCalendar entry.1 = builtinCalendar entry.2 ∧
      isDateIndex entry.2 ∧ canonicalIndex entry.2 = entry.2 := by
    decide
  refine ⟨?_, hrest entry h⟩
  simp only [indexAliases, List.mem_cons, List.not_mem_nil, or_false] at h
  rcases h with rfl | rfl | rfl | rfl <;> rfl

@[simp] theorem canonicalIndex_canonicalIndex (index : Nat) :
    canonicalIndex (canonicalIndex index) = canonicalIndex index := by
  rcases canonicalIndex_eq_or_mem index with h | h
  · rw [h, h]
  · exact (of_mem_indexAliases h).2.2.2

theorem render_builtin_canonicalIndex (value : Binary64) (format : ResolvedFormat) (index : Nat)
    (options : Options) :
    DateCode.render value format (.builtin (canonicalIndex index)) options =
      DateCode.render value format (.builtin index) options := by
  rcases canonicalIndex_eq_or_mem index with h | h
  · rw [h]
  · obtain ⟨htext, hcalendar, -, -⟩ := of_mem_indexAliases h
    simp only [DateCode.render, htext, hcalendar]

end FormatSpec

open FormatSpec

/-- The index and the code of the format, as a cell would carry them. -/
def ResolvedFormat.spec (format : ResolvedFormat) : FormatSpec := ⟨format.index, format.code⟩

variable {spec : FormatSpec} {locale : Locale}

theorem FormatSpec.resolve_canonicalIndex (spec : FormatSpec) (locale : Locale) :
    resolve ⟨canonicalIndex spec.index, spec.code⟩ locale =
      { spec.resolve locale with givenIndex := canonicalIndex spec.index } := by
  simp only [resolve, canonicalIndex_canonicalIndex]

/-- Resolving once more only forgets the index that the cell gives. -/
theorem FormatSpec.resolve_spec_resolve (spec : FormatSpec) (locale : Locale) :
    (spec.resolve locale).spec.resolve locale =
      { spec.resolve locale with givenIndex := canonicalIndex spec.index } := by
  simp only [resolve, ResolvedFormat.spec, canonicalIndex_canonicalIndex]
  split <;> simp_all

theorem route?_resolve_givenIndex (spec : FormatSpec) (locale : Locale) :
    route? { spec.resolve locale with givenIndex := canonicalIndex spec.index } =
      route? (spec.resolve locale) := by
  rcases canonicalIndex_eq_or_mem spec.index with h | h
  · rw [h]
    rfl
  · exact route?_givenIndex (of_mem_indexAliases h).2.2.1 _

theorem Request.render_givenIndex (cell : Cell) (spec : FormatSpec) (options : Options) :
    (Request.mk cell
        { spec.resolve options.locale with givenIndex := canonicalIndex spec.index }
        options).render =
      (Request.ofSpec cell spec options).render :=
  Request.render_of_renderNumber
    (fun value => renderNumber_givenIndex (route?_resolve_givenIndex spec options.locale) value
      options) cell

/-- Resolving the index and the code of a resolved format changes neither. A cell is shown with the
same text and the same records under a format, under its index without aliases, and under its
resolved index and code. An alias renders every date as its index does. -/
theorem alias_invisible (spec : FormatSpec) (locale : Locale) :
    ((spec.resolve locale).spec.resolve locale).spec = (spec.resolve locale).spec ∧
    (∀ (cell : Cell) (system : DateSystem),
      (Request.ofSpec cell ⟨canonicalIndex spec.index, spec.code⟩ ⟨system, locale⟩).render =
          (Request.ofSpec cell spec ⟨system, locale⟩).render ∧
        (Request.ofSpec cell (spec.resolve locale).spec ⟨system, locale⟩).render =
          (Request.ofSpec cell spec ⟨system, locale⟩).render) ∧
    ∀ (value : Binary64) (format : ResolvedFormat) (options : Options),
      DateCode.render value format (.builtin (canonicalIndex spec.index)) options =
        DateCode.render value format (.builtin spec.index) options := by
  refine ⟨?_, fun cell system => ⟨?_, ?_⟩, fun value format options =>
    render_builtin_canonicalIndex value format spec.index options⟩
  · rw [resolve_spec_resolve]
    rfl
  · rw [← Request.render_givenIndex cell spec ⟨system, locale⟩, ← resolve_canonicalIndex]
    rfl
  · rw [← Request.render_givenIndex cell spec ⟨system, locale⟩, ← resolve_spec_resolve]
    rfl

end Alias

section EnglishTag

variable {spec : FormatSpec} {code : Text} {route : Route}

theorem taggedOptions_of_isPrefixOf (h : englishTag.isPrefixOf code) (options : Options) :
    taggedOptions code options = ⟨options.dateSystem, .enUS⟩ := by
  rw [taggedOptions, if_pos h]

/-- Only an empty code is resolved by the locale. -/
theorem FormatSpec.resolve_of_code_ne_nil (h : spec.code ≠ []) (locale locale' : Locale) :
    spec.resolve locale = spec.resolve locale' := by
  simp only [resolve, if_neg h]

/-- Along a route that is not that of an index, a code with the English tag is rendered by the date
system alone. -/
theorem render_of_isPrefixOf {format : ResolvedFormat} (htag : englishTag.isPrefixOf format.code)
    (hroute : route? format = some route) (hindex : isDateIndex format.index = false)
    (hgiven : isDateIndex format.givenIndex = false) (value : Binary64) (system : DateSystem)
    (locale locale' : Locale) :
    DateCode.render value format route ⟨system, locale⟩ =
      DateCode.render value format route ⟨system, locale'⟩ := by
  obtain ⟨place, rfl, hcode⟩ | ⟨index, rfl, hdate, rfl | rfl⟩ | rfl := route?_cases hroute
  · have hplace : englishTag.isPrefixOf legacyCodes[place].toList := hcode ▸ htag
    simp only [DateCode.render, taggedOptions_of_isPrefixOf hplace]
  · exact absurd hdate (Bool.eq_false_iff.mp hindex)
  · exact absurd hdate (Bool.eq_false_iff.mp hgiven)
  · simp only [DateCode.render, taggedOptions_of_isPrefixOf htag]

/-- A code with the English tag and without a built-in date index that takes a route for dates in
one locale takes it in every locale, and every cell is shown there with the same text and the same
records. -/
theorem render_of_englishTag (spec : FormatSpec) (locale : Locale) (route : Route)
    (htag : englishTag <+: spec.code) (hindex : isDateIndex spec.index = false)
    (hcanonical : isDateIndex (FormatSpec.canonicalIndex spec.index) = false)
    (hroute : route? (spec.resolve locale) = some route) :
    (∀ other, route? (spec.resolve other) = some route) ∧
    ∀ (cell : Cell) (system : DateSystem) (l l' : Locale),
      (Request.ofSpec cell spec ⟨system, l⟩).render =
        (Request.ofSpec cell spec ⟨system, l'⟩).render := by
  have hcode : spec.code ≠ [] := by
    intro h
    rw [h] at htag
    exact absurd (List.prefix_nil.mp htag) (by decide)
  have hresolve (other : Locale) : spec.resolve other = spec.resolve locale :=
    FormatSpec.resolve_of_code_ne_nil hcode other locale
  have hfilled : englishTag.isPrefixOf (spec.resolve locale).code := by
    rw [FormatSpec.resolve, if_neg hcode]
    exact List.isPrefixOf_iff_prefix.mpr htag
  refine ⟨fun other => hresolve other ▸ hroute, fun cell system l l' => ?_⟩
  refine Request.render_of_renderNumber (fun value => ?_) cell
  change renderNumber value (spec.resolve l) ⟨system, l⟩ =
    renderNumber value (spec.resolve l') ⟨system, l'⟩
  have hrender := render_of_isPrefixOf hfilled hroute hcanonical hindex value system l l'
  simp only [renderNumber, hresolve, hroute, hrender]

/-- A date, and a number that is past the last one, in German and in Japanese. -/
theorem render_of_englishTag_spelled_month :
    englishTag <+: "[$-409]mmmm d".toList ∧ isDateIndex 164 = false ∧
      isDateIndex (FormatSpec.canonicalIndex 164) = false ∧
      route? (FormatSpec.resolve ⟨164, "[$-409]mmmm d".toList⟩ .deDE) = some .substitute ∧
      route? (FormatSpec.resolve ⟨164, "[$-409]mmmm d".toList⟩ .jaJP) = some .substitute ∧
      (Request.ofSpec (.numeric 45356) ⟨164, "[$-409]mmmm d".toList⟩ (.ofLocale .deDE)).render =
        (Request.ofSpec (.numeric 45356) ⟨164, "[$-409]mmmm d".toList⟩ (.ofLocale .jaJP)).render ∧
      (Request.ofSpec (.numeric 2958466) ⟨164, "[$-409]mmmm d".toList⟩ (.ofLocale .deDE)).render =
        (Request.ofSpec (.numeric 2958466) ⟨164, "[$-409]mmmm d".toList⟩
          (.ofLocale .jaJP)).render :=
  have htag : englishTag <+: "[$-409]mmmm d".toList := by decide
  have hroute : route? (FormatSpec.resolve ⟨164, "[$-409]mmmm d".toList⟩ .deDE) =
      some .substitute := by decide +kernel
  have h := render_of_englishTag ⟨164, "[$-409]mmmm d".toList⟩ .deDE .substitute htag
    (by decide) (by decide) hroute
  ⟨htag, by decide, by decide, hroute, h.1 .jaJP, h.2 (.numeric 45356) .from1900 .deDE .jaJP,
    h.2 (.numeric 2958466) .from1900 .deDE .jaJP⟩

end EnglishTag

end CellDisplay
