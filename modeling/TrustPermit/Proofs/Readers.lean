import TrustPermit.Json.Basic
import TrustPermit.Proofs.StrictForm

/-! # The two readers of instants

Requests name instants in the strict form, records carry them in the relaxed form. Every text in
the strict form is also in the relaxed form, but there the fraction of its second counts and second
60 stays a leap second. So the two readers agree on the whole seconds of the strict form only.
-/

namespace TrustPermit

open Text

namespace Instant

namespace Relaxed

/-- The relaxed reader keeps nine digits of what the strict reader skips. -/
theorem fraction_point (f : StrictForm) :
    fraction (StrictForm.point f.fraction ++ ['Z']) = some (f.nanos, ['Z']) := by
  rw [StrictForm.point, StrictForm.nanos]
  split_ifs with hf
  · rw [hf]
    rfl
  · have hrun : (f.fraction ++ ['Z']).takeWhile isDigit = f.fraction := by
      rw [List.takeWhile_append_of_pos f.fraction_digits]
      exact List.append_nil _
    simp [fraction, hrun, hf]

theorem takeWhile_point (fraction : List Char) :
    (StrictForm.point fraction ++ ['Z']).takeWhile isDigit = [] := by
  rw [StrictForm.point]
  split_ifs <;> rfl

theorem date_text (f : StrictForm) (rest : List Char) (hr : rest.takeWhile isDigit = []) :
    date (f.dateText ++ rest) = some (f.date, rest) := by
  have hyear : (f.date.year.toNat : Int) = f.date.year := Int.toNat_of_nonneg f.year_nonneg
  refine date_padded (fun rest hr => ?_) hr
  rw [year_bare (by have := f.year_le; omega) hr, hyear]

theorem clock_text (f : StrictForm) :
    clock (f.clockText ++ (StrictForm.point f.fraction ++ ['Z'])) = some (f.clock, ['Z']) :=
  clock_padded (c := f.clock) (takeWhile_point f.fraction) (fraction_point f)

theorem dateEnd_between (f : StrictForm) (rest : List Char) :
    dateEnd (f.between :: rest) = some rest ∧ (f.between :: rest).takeWhile isDigit = [] := by
  obtain h | h | h : f.between = 'T' ∨ f.between = 't' ∨ f.between = ' ' := by
    simpa using f.between_mem
  all_goals
    rw [h]
    exact ⟨rfl, rfl⟩

end Relaxed

theorem parseRelaxed?_text (f : StrictForm) : parseRelaxed? f.text = some f.instant := by
  have hzone : Relaxed.zone (skipBlanks ['Z']) = some (0, []) := rfl
  obtain ⟨hend, hdigit⟩ := Relaxed.dateEnd_between f
    (f.clockText ++ (StrictForm.point f.fraction ++ ['Z']))
  simp only [parseRelaxed?, f.toList_text, Relaxed.date_text f _ hdigit, Option.bind_eq_bind,
    Option.bind_some, hend, Relaxed.clock_text, hzone]
  exact f.ofLocal?_clock

theorem ofJson?_text (text : String) : ofJson? (.text text) = parseRelaxed? text := rfl

theorem ofJson?_eq_some_iff {j : Json} {t : Instant} :
    ofJson? j = some t ↔ ∃ text, j = .text text ∧ parseRelaxed? text = some t := by
  cases j <;> simp [ofJson?, Json.text?]

/-- Where both readers take a text, they differ in the fraction at most. -/
theorem parse_of_parseRelaxed? {text : String} {t u : Instant} (h : parseRelaxed? text = some t) :
    parse text = .ok u ↔ (∃ f : StrictForm, f.text = text) ∧ t.truncated = u := by
  rw [parse_eq_ok_iff]
  constructor
  · rintro ⟨f, rfl, hu⟩
    rw [parseRelaxed?_text] at h
    cases h
    exact ⟨⟨f, rfl⟩, hu⟩
  · rintro ⟨⟨f, rfl⟩, hu⟩
    rw [parseRelaxed?_text] at h
    cases h
    exact ⟨f, rfl, hu⟩

theorem parse_toFullText_iff {t : Instant} :
    parse t.toFullText = .ok t ↔ t.nanos = 0 ∧ 0 ≤ t.date.year ∧ t.date.year ≤ 9999 := by
  constructor
  · intro h
    obtain ⟨f, -, htells⟩ := parse_eq_ok_iff_tells.mp h
    rw [htells.date]
    exact ⟨htells.nanos, f.year_nonneg, f.year_le⟩
  · rintro ⟨hnanos, h₀, h₁⟩
    have hfraction : t.writtenFraction = [] := by
      rw [writtenFraction, hnanos]
      exact if_pos rfl
    have htext : t.toFullText = t.toText := by
      rw [toFullText, hfraction, List.append_nil, toText]
    rw [htext]
    exact parse_toText hnanos h₀ h₁

theorem ofJson?_of_parse {text : String} {u : Instant} (h : parse text = .ok u) :
    ∃ t, ofJson? (.text text) = some t ∧ t.truncated = u := by
  obtain ⟨f, rfl, hu⟩ := parse_eq_ok_iff.mp h
  refine ⟨f.instant, ?_, hu⟩
  rw [ofJson?_text, parseRelaxed?_text]

/-- A value of a record that is read as an instant is a text. The strict reader takes it just if it
is in the strict form, as the whole second in which the instant lies, and so both readers find the
same instant just if it is a whole second too. -/
theorem readers_agree_iff {j : Json} {t : Instant} (h : ofJson? j = some t) :
    ∃ text, j = .text text ∧
      (parse text = .ok t ↔ (∃ f : StrictForm, f.text = text) ∧ t.nanos = 0) ∧
      ∀ u, parse text = .ok u ↔ (∃ f : StrictForm, f.text = text) ∧ t.truncated = u := by
  obtain ⟨text, rfl, hread⟩ := ofJson?_eq_some_iff.mp h
  refine ⟨text, rfl, ?_, fun u => parse_of_parseRelaxed? hread⟩
  rw [parse_of_parseRelaxed? hread, truncated_eq_self_iff]

/-- A blank may stand between date and clock for both readers; half a second is lost for one. -/
theorem readers_agree_iff_blank : ∃ noon half : Instant,
    ofJson? (.text "2026-01-15 12:00:00Z") = some noon ∧
      parse "2026-01-15 12:00:00Z" = .ok noon ∧
      ofJson? (.text "2026-01-15 12:00:00.5Z") = some half ∧
      parse "2026-01-15 12:00:00.5Z" = .ok noon ∧ half ≠ noon := by
  let noon : Instant := ⟨1768478400, 0, by decide, .inl (by decide)⟩
  let half : Instant := ⟨1768478400, 500000000, by decide, .inl (by decide)⟩
  let form (fraction : List Char) (h : ∀ c ∈ fraction, isDigit c = true) : StrictForm :=
    ⟨noon.date, ' ', 12, 0, 0, fraction, by decide, by decide, by decide, by decide, by decide,
      by decide, h⟩
  have hnoon : ofJson? (.text "2026-01-15 12:00:00Z") = some noon := by decide
  have hhalf : ofJson? (.text "2026-01-15 12:00:00.5Z") = some half := by decide
  refine ⟨noon, half, hnoon, ?_, hhalf, ?_, by decide⟩
  · obtain ⟨text, htext, hagree, -⟩ := readers_agree_iff hnoon
    cases htext
    apply hagree.mpr
    exact ⟨⟨form [] (List.forall_mem_nil _), by decide⟩, rfl⟩
  · obtain ⟨text, htext, -, hcut⟩ := readers_agree_iff hhalf
    cases htext
    apply (hcut noon).mpr
    exact ⟨⟨form ['5'] (List.forall_mem_singleton.mpr rfl), by decide⟩, rfl⟩

/-- A record may carry an instant with an offset and half a second, which is no text for the
strict reader. -/
theorem offset_read_in_records : ∃ t,
    ofJson? (.text "2026-01-15T14:00:00.5+02:00") = some t ∧
      t.seconds = 1768478400 ∧ t.nanos = 500000000 ∧
      parse "2026-01-15T14:00:00.5+02:00" = .error (.notUtc "2026-01-15T14:00:00.5+02:00") :=
  ⟨⟨1768478400, 500000000, by decide, .inl (by decide)⟩, by decide, rfl, rfl, by decide⟩

end Instant

end TrustPermit
