import TrustPermit.Instant.Relaxed
import TrustPermit.Proofs.Decimals

/-! # Instants read back

The full form of an instant shows the date and the clock in UTC, and what follows a number there
never starts with a digit. So the relaxed reader finds the same numbers again: years with a sign,
second 60 and fractions of a second included.
-/

namespace TrustPermit

open Text

namespace Date

theorem of?_self (d : Date) : of? d.year d.month d.day = some d := by
  rw [of?, dif_pos d.exists_month, dif_pos d.exists_day]

theorem day_le (d : Date) : d.day ≤ 31 := by
  refine d.exists_day.2.trans ?_
  simp only [daysInMonth, monthLength]
  split_ifs <;> decide

end Date

theorem ClockTime.of?_self (c : ClockTime) : of? c.hour c.minute c.second c.nanos = some c := by
  rw [of?, dif_pos ⟨c.hour_le, c.minute_le, c.second_le, c.nanos_lt⟩]

namespace Instant

/-- What a clock in UTC shows; a leap second is second 60. -/
def clockTime (t : Instant) : ClockTime where
  hour := (t.seconds % secondsPerDay).toNat / 3600
  minute := (t.seconds % secondsPerDay).toNat / 60 % 60
  second := if t.isLeap then 60 else (t.seconds % secondsPerDay).toNat % 60
  nanos := t.nanos % nanosPerSecond
  hour_le := by simp only [secondsPerDay]; omega
  minute_le := by omega
  second_le := by split <;> omega
  nanos_lt := Nat.mod_lt _ (by decide)

theorem clockTime_of_leap {t : Instant} (h : t.isLeap = true) :
    t.clockTime.second = 60 ∧ t.seconds % 60 = 59 ∧
      nanosPerSecond + t.clockTime.nanos = t.nanos := by
  have hge : nanosPerSecond ≤ t.nanos := of_decide_eq_true h
  have hlt := t.nanos_lt
  refine ⟨if_pos h, by omega, ?_⟩
  simp only [clockTime, nanosPerSecond] at hge hlt ⊢
  omega

theorem clockTime_of_not_leap {t : Instant} (h : ¬ t.isLeap = true) :
    t.clockTime.second ≠ 60 ∧ t.clockTime.second = t.seconds % 60 ∧
      t.clockTime.nanos = t.nanos := by
  have hlt : ¬ nanosPerSecond ≤ t.nanos := fun hge => h (decide_eq_true hge)
  simp only [clockTime, if_neg h, secondsPerDay]
  refine ⟨by omega, by omega, Nat.mod_eq_of_lt (by omega)⟩

theorem ofLocal?_clockTime (t : Instant) : ofLocal? t.date t.clockTime 0 = some t := by
  have hday : t.date.dayNumber = t.seconds / secondsPerDay := Date.dayNumber_ofDayNumber _
  have hshown : secondsPerDay * t.date.dayNumber + 3600 * t.clockTime.hour +
      60 * t.clockTime.minute = t.seconds - t.seconds % 60 := by
    rw [hday]
    simp only [clockTime, secondsPerDay]
    omega
  have hsecond : ((if t.clockTime.second = 60 then 59 else t.clockTime.second : Nat) : Int) =
      t.seconds % 60 := by
    by_cases h : t.isLeap = true
    · rw [if_pos (clockTime_of_leap h).1, (clockTime_of_leap h).2.1]
      rfl
    · rw [if_neg (clockTime_of_not_leap h).1, (clockTime_of_not_leap h).2.1]
  have hnanos : (if t.clockTime.second = 60 then nanosPerSecond + t.clockTime.nanos
      else t.clockTime.nanos) = t.nanos := by
    by_cases h : t.isLeap = true
    · rw [if_pos (clockTime_of_leap h).1, (clockTime_of_leap h).2.2]
    · rw [if_neg (clockTime_of_not_leap h).1, (clockTime_of_not_leap h).2.2]
  have hrange := t.inRange
  simp only [ofLocal?, hshown, hsecond, hnanos, Int.mul_zero, Int.sub_zero, Int.sub_add_cancel]
  rw [if_pos, dif_pos ⟨hrange, t.nanos_lt⟩]
  simp only [firstSecond, lastSecond] at hrange ⊢
  omega

end Instant

namespace Text

theorem isBlank_of_isDigit {c : Char} (h : isDigit c = true) : isBlank c = false := by
  simp only [isDigit, Bool.and_eq_true, decide_eq_true_eq, Char.le_def] at h
  have h₁ : 0x30 ≤ c.toNat := h.1
  have h₂ : c.toNat ≤ 0x39 := h.2
  simp only [isBlank, Bool.or_eq_false_iff, Bool.and_eq_false_iff, decide_eq_false_iff_not,
    beq_eq_false_iff_ne]
  omega

theorem padded_eq_cons (width n : Nat) :
    ∃ c cs, padded width n = c :: cs ∧ isDigit c = true := by
  obtain ⟨c, cs, hc⟩ := List.exists_cons_of_ne_nil (padded_ne_nil width n)
  exact ⟨c, cs, hc, isDigit_of_mem_padded (hc ▸ List.mem_cons_self)⟩

theorem skipBlanks_padded (width n : Nat) (rest : List Char) :
    skipBlanks (padded width n ++ rest) = padded width n ++ rest := by
  obtain ⟨c, cs, hc, hd⟩ := padded_eq_cons width n
  rw [hc, List.cons_append, skipBlanks, List.dropWhile_cons, isBlank_of_isDigit hd]
  rfl

end Text

namespace Instant.Relaxed

variable {rest : List Char}

theorem takeWhile_padded {width n : Nat} (hr : rest.takeWhile isDigit = []) :
    (padded width n ++ rest).takeWhile isDigit = padded width n := by
  rw [List.takeWhile_append_of_pos fun _ => isDigit_of_mem_padded, hr, List.append_nil]

/-- A run of digits is taken whole if the limit has room for it and no digit follows. -/
theorem number_padded {limit : Option Nat} {width n : Nat}
    (hl : ∀ most ∈ limit, (padded width n).length ≤ most) (hr : rest.takeWhile isDigit = []) :
    number limit (padded width n ++ rest) = some (n, rest) := by
  have hrun : (padded width n ++ rest).takeWhile isDigit = padded width n := takeWhile_padded hr
  have hne := padded_ne_nil width n
  cases limit with
  | none => simp [number, hrun, hne]
  | some most => simp [number, hrun, hne, List.take_of_length_le (hl most rfl)]

theorem part_padded {n : Nat} (hn : n < 100) (hr : rest.takeWhile isDigit = []) :
    part (padded 2 n ++ rest) = some (n, rest) := by
  rw [part, skipBlanks_padded]
  refine number_padded ?_ hr
  rintro _ ⟨⟩
  exact (length_padded (by decide) hn).le

/-- Without a sign the text starts with a digit, so neither sign is taken off. -/
theorem year_bare {n : Nat} (hn : n < 10 ^ 4) (hr : rest.takeWhile isDigit = []) :
    year (padded 4 n ++ rest) = some ((n : Int), rest) := by
  have hl := length_padded (by decide) hn
  have hnumber : number (some 4) (padded 4 n ++ rest) = some (n, rest) :=
    number_padded (by rintro _ ⟨⟩; exact hl.le) hr
  obtain ⟨c, cs, hc, hd⟩ := padded_eq_cons 4 n
  rw [year, skipBlanks_padded, hc]
  rw [hc] at hnumber
  split
  · rename_i h
    cases h
    cases hd
  · rename_i h
    cases h
    cases hd
  · rw [hnumber]
    rfl

theorem year_written (y : Int) (hr : rest.takeWhile isDigit = []) :
    year (writtenYear y ++ rest) = some (y, rest) := by
  have hnumber : number none (padded 4 y.natAbs ++ rest) = some (y.natAbs, rest) :=
    number_padded (by rintro _ ⟨⟩) hr
  rw [writtenYear]
  split
  · change (number none (padded 4 y.natAbs ++ rest)).map _ = _
    rw [hnumber, show y = -(y.natAbs : Int) by omega]
    simp
  split
  · change (number none (padded 4 y.natAbs ++ rest)).map _ = _
    rw [hnumber, show y = (y.natAbs : Int) by omega]
    simp
  · rw [year_bare (by omega) hr, show (y.natAbs : Int) = y by omega]

theorem separator_cons {c : Char} (h : isBlank c = false) (rest : List Char) :
    separator c (c :: rest) = some rest := by
  simp [separator, skipBlanks, h]

theorem date_padded {d : Date} {years : List Char}
    (hy : ∀ rest, rest.takeWhile isDigit = [] → year (years ++ rest) = some (d.year, rest))
    (hr : rest.takeWhile isDigit = []) :
    date (years ++ '-' :: padded 2 d.month ++ '-' :: padded 2 d.day ++ rest) = some (d, rest) := by
  have hm : d.month < 100 := by have := d.exists_month; omega
  have hd : d.day < 100 := by have := d.day_le; omega
  have hday : part (padded 2 d.day ++ rest) = some (d.day, rest) := part_padded hd hr
  have hmonth : part (padded 2 d.month ++ '-' :: (padded 2 d.day ++ rest)) =
      some (d.month, '-' :: (padded 2 d.day ++ rest)) := part_padded hm rfl
  simp only [date, List.append_assoc, List.cons_append]
  rw [hy _ rfl]
  simp [separator_cons (c := '-') rfl, hmonth, hday, Date.of?_self]

theorem date_written (t : Instant) (rest : List Char) :
    date (t.writtenDate ++ 'T' :: rest) = some (t.date, 'T' :: rest) :=
  date_padded (fun _ => year_written t.date.year) rfl

theorem fraction_padded {places n : Nat} (h₀ : 0 < places) (h₉ : places ≤ 9)
    (hn : n < 10 ^ places) (hr : rest.takeWhile isDigit = []) :
    fraction ('.' :: (padded places n ++ rest)) = some (n * 10 ^ (9 - places), rest) := by
  have hrun : (padded places n ++ rest).takeWhile isDigit = padded places n := takeWhile_padded hr
  have hlen := length_padded h₀ hn
  have hkept : (padded places n).take 9 = padded places n := List.take_of_length_le (by omega)
  simp [fraction, hrun, padded_ne_nil, hkept, hlen]

theorem fraction_written (t : Instant) :
    fraction (t.writtenFraction ++ ['Z']) = some (t.clockTime.nanos, ['Z']) := by
  have hlt : t.nanos % nanosPerSecond < 10 ^ 9 := Nat.mod_lt _ (by decide)
  simp only [writtenFraction, clockTime]
  split
  · rename_i h
    rw [h]
    rfl
  split
  · rename_i h
    rw [List.cons_append, fraction_padded (by decide) (by decide) (by omega) rfl]
    congr 2
    omega
  split
  · rw [List.cons_append, fraction_padded (by decide) (by decide) (by omega) rfl]
    congr 2
    omega
  · rw [List.cons_append, fraction_padded (by decide) (by decide) hlt rfl, Nat.sub_self,
      Nat.pow_zero, Nat.mul_one]

theorem clock_padded {c : ClockTime} {tail : List Char} (hd : tail.takeWhile isDigit = [])
    (hf : fraction tail = some (c.nanos, rest)) :
    clock (padded 2 c.hour ++ ':' :: padded 2 c.minute ++ ':' :: padded 2 c.second ++ tail) =
      some (c, rest) := by
  have hsecond : part (padded 2 c.second ++ tail) = some (c.second, tail) :=
    part_padded (by have := c.second_le; omega) hd
  have hminute : part (padded 2 c.minute ++ ':' :: (padded 2 c.second ++ tail)) =
      some (c.minute, ':' :: (padded 2 c.second ++ tail)) :=
    part_padded (by have := c.minute_le; omega) rfl
  have hhour : part (padded 2 c.hour ++ ':' :: (padded 2 c.minute ++ ':' ::
        (padded 2 c.second ++ tail))) =
      some (c.hour, ':' :: (padded 2 c.minute ++ ':' :: (padded 2 c.second ++ tail))) :=
    part_padded (by have := c.hour_le; omega) rfl
  simp [clock, hhour, hminute, hsecond, separator_cons (c := ':') rfl, hf, c.of?_self]

theorem clock_written (t : Instant) :
    clock (t.writtenTime ++ (t.writtenFraction ++ ['Z'])) = some (t.clockTime, ['Z']) := by
  have htail : (t.writtenFraction ++ ['Z']).takeWhile isDigit = [] := by
    simp only [writtenFraction]
    split_ifs <;> rfl
  have htime : t.writtenTime = padded 2 t.clockTime.hour ++ ':' ::
      padded 2 t.clockTime.minute ++ ':' :: padded 2 t.clockTime.second := rfl
  rw [htime]
  exact clock_padded htail (fraction_written t)

end Instant.Relaxed

theorem Instant.parseRelaxed?_toFullText (t : Instant) : parseRelaxed? t.toFullText = some t := by
  have hend (cs : List Char) : Relaxed.dateEnd ('T' :: cs) = some cs := rfl
  have hzone : Relaxed.zone (skipBlanks ['Z']) = some (0, []) := rfl
  simp only [parseRelaxed?, toFullText, String.toList_ofList, List.append_assoc, List.cons_append,
    Relaxed.date_written]
  simp only [Option.bind_eq_bind, Option.bind_some, hend, Relaxed.clock_written, hzone]
  exact ofLocal?_clockTime t

end TrustPermit
