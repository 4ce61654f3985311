import TrustPermit.Instant.Strict
import TrustPermit.Proofs.Instants

/-! # The strict form

The texts in the strict form are those of one grammar: a date of four, two and two digits, a clock
of two digits each, digits of a fraction if a point stands before them, and a `Z`. The strict reader
takes these texts and no others, and finds the whole second that they show.
-/

namespace TrustPermit

open Text

theorem Text.length_le_utf8ByteSize (cs : List Char) :
    cs.length ≤ (String.ofList cs).utf8ByteSize := by
  induction cs with
  | nil => exact Nat.zero_le _
  | cons c cs ih =>
    rw [String.ofList_cons, String.utf8ByteSize_append, String.utf8ByteSize_singleton,
      List.length_cons]
    have := c.utf8Size_pos
    omega

theorem Date.of?_eq_some_iff {year : Int} {month day : Nat} {d : Date} :
    of? year month day = some d ↔ d.year = year ∧ d.month = month ∧ d.day = day := by
  constructor
  · intro h
    rw [of?] at h
    split_ifs at h
    cases h
    exact ⟨rfl, rfl, rfl⟩
  · rintro ⟨rfl, rfl, rfl⟩
    exact d.of?_self

theorem Date.dayNumber_bounds {d : Date} (h₀ : 0 ≤ d.year) (h₁ : d.year ≤ 9999) :
    -800000 ≤ d.dayNumber ∧ d.dayNumber ≤ 3000000 := by
  have hday := d.cycleDay.day_lt
  have hmarch : -1 ≤ d.marchYear ∧ d.marchYear ≤ 9999 := by
    simp only [marchYear]
    split <;> omega
  simp only [dayNumber, CycleDay.number, epochOffset, cycleDay] at hday ⊢
  omega

theorem ClockTime.of?_eq_some_iff {hour minute second nanos : Nat} {c : ClockTime} :
    of? hour minute second nanos = some c ↔
      c.hour = hour ∧ c.minute = minute ∧ c.second = second ∧ c.nanos = nanos := by
  constructor
  · intro h
    rw [of?] at h
    split_ifs at h
    cases h
    exact ⟨rfl, rfl, rfl, rfl⟩
  · rintro ⟨rfl, rfl, rfl, rfl⟩
    exact c.of?_self

/-- A text in the strict form by its parts. An empty fraction stands for none. -/
structure StrictForm where
  date : Date
  /-- The character between date and clock. -/
  between : Char
  hour : Nat
  minute : Nat
  second : Nat
  fraction : List Char
  year_nonneg : 0 ≤ date.year
  year_le : date.year ≤ 9999
  between_mem : between ∈ ['T', 't', ' ']
  hour_le : hour ≤ 23
  minute_le : minute ≤ 59
  second_le : second ≤ 60
  fraction_digits : ∀ c ∈ fraction, isDigit c = true

namespace StrictForm

variable (f : StrictForm)

def point (fraction : List Char) : List Char := if fraction = [] then [] else '.' :: fraction

def dateText : List Char :=
  padded 4 f.date.year.toNat ++ '-' :: padded 2 f.date.month ++ '-' :: padded 2 f.date.day

def clockText : List Char :=
  padded 2 f.hour ++ ':' :: padded 2 f.minute ++ ':' :: padded 2 f.second

def text : String :=
  String.ofList (f.dateText ++ f.between :: f.clockText ++ point f.fraction ++ ['Z'])

theorem toList_text : f.text.toList =
    f.dateText ++ f.between :: (f.clockText ++ (point f.fraction ++ ['Z'])) := by
  simp [text]

theorem length_dateText : f.dateText.length = 10 := by
  have hy : (padded 4 f.date.year.toNat).length = 4 :=
    length_padded (by decide) (by have := f.year_le; omega)
  have hm : (padded 2 f.date.month).length = 2 :=
    length_padded (by decide) (by have := f.date.exists_month; omega)
  have hd : (padded 2 f.date.day).length = 2 :=
    length_padded (by decide) (by have := f.date.day_le; omega)
  simp [dateText, hy, hm, hd]

theorem length_clockText : f.clockText.length = 8 := by
  have hh : (padded 2 f.hour).length = 2 := length_padded (by decide) (by have := f.hour_le; omega)
  have hm : (padded 2 f.minute).length = 2 :=
    length_padded (by decide) (by have := f.minute_le; omega)
  have hs : (padded 2 f.second).length = 2 :=
    length_padded (by decide) (by have := f.second_le; omega)
  simp [clockText, hh, hm, hs]

theorem le_utf8ByteSize_text : 19 ≤ f.text.utf8ByteSize := by
  have hlength : 19 ≤ f.text.toList.length := by
    simp only [toList_text, List.length_append, List.length_cons, length_dateText,
      length_clockText]
    omega
  have hsize := length_le_utf8ByteSize f.text.toList
  rw [String.ofList_toList] at hsize
  exact hlength.trans hsize

def nanos : Nat :=
  digitsValue (f.fraction.take 9) * 10 ^ (9 - (f.fraction.take 9).length)

theorem nanos_lt : f.nanos < Instant.nanosPerSecond := by
  have hlength : (f.fraction.take 9).length ≤ 9 := List.length_take_le ..
  have hvalue : digitsValue (f.fraction.take 9) < 10 ^ (f.fraction.take 9).length :=
    digitsValue_lt fun c hc => f.fraction_digits c (List.mem_of_mem_take hc)
  calc f.nanos
    _ < 10 ^ (f.fraction.take 9).length * 10 ^ (9 - (f.fraction.take 9).length) :=
      Nat.mul_lt_mul_of_pos_right hvalue (Nat.pow_pos (by decide))
    _ = 10 ^ 9 := by rw [← Nat.pow_add, Nat.add_sub_cancel' hlength]

def clock : ClockTime where
  hour := f.hour
  minute := f.minute
  second := f.second
  nanos := f.nanos
  hour_le := f.hour_le
  minute_le := f.minute_le
  second_le := f.second_le
  nanos_lt := f.nanos_lt

def seconds : Int :=
  Instant.secondsPerDay * f.date.dayNumber + 3600 * f.hour + 60 * f.minute + min f.second 59

theorem seconds_inRange :
    Instant.firstSecond ≤ f.seconds ∧ f.seconds ≤ Instant.lastSecond := by
  have hdays := Date.dayNumber_bounds f.year_nonneg f.year_le
  have hhour := f.hour_le
  have hminute := f.minute_le
  simp only [seconds, Instant.firstSecond, Instant.lastSecond, Instant.secondsPerDay]
  omega

/-- Nanoseconds into the second that the text shows; second 60 is a leap second. -/
def leapNanos : Nat := if f.second = 60 then Instant.nanosPerSecond + f.nanos else f.nanos

theorem leapNanos_lt : f.leapNanos < Instant.nanosPerSecond ∨
    f.leapNanos < 2 * Instant.nanosPerSecond ∧ f.seconds % 60 = 59 := by
  have hnanos := f.nanos_lt
  simp only [leapNanos, seconds, Instant.secondsPerDay]
  split <;> omega

def instant : Instant := ⟨f.seconds, f.leapNanos, f.seconds_inRange, f.leapNanos_lt⟩

theorem ofLocal?_clock : Instant.ofLocal? f.date f.clock 0 = some f.instant := by
  have hbounds := Date.dayNumber_bounds f.year_nonneg f.year_le
  have hhour : f.clock.hour ≤ 23 := f.hour_le
  have hminute : f.clock.minute ≤ 59 := f.minute_le
  have hsecond : ((if f.clock.second = 60 then 59 else f.clock.second : Nat) : Int) =
      min f.second 59 := by
    have hle : f.clock.second ≤ 60 := f.second_le
    change ((if f.clock.second = 60 then 59 else f.clock.second : Nat) : Int) =
      min f.clock.second 59
    split <;> omega
  simp only [Instant.ofLocal?, hsecond, Int.mul_zero, Int.sub_zero]
  rw [if_pos]
  · exact dif_pos ⟨f.instant.inRange, f.instant.nanos_lt⟩
  · simp only [Instant.firstSecond, Instant.lastSecond, Instant.secondsPerDay]
    omega

theorem date_instant : f.instant.date = f.date := by
  have hhour := f.hour_le
  have hminute := f.minute_le
  have hday : f.instant.seconds / Instant.secondsPerDay = f.date.dayNumber := by
    simp only [instant, seconds, Instant.secondsPerDay]
    omega
  rw [Instant.date, hday, Date.ofDayNumber_dayNumber]

theorem clockTime_truncated :
    f.instant.truncated.clockTime.hour = f.hour ∧
      f.instant.truncated.clockTime.minute = f.minute ∧
      f.instant.truncated.clockTime.second = min f.second 59 := by
  have hhour := f.hour_le
  have hminute := f.minute_le
  have hseconds : (f.instant.truncated.seconds % Instant.secondsPerDay).toNat =
      3600 * f.hour + 60 * f.minute + min f.second 59 := by
    simp only [Instant.truncated, instant, seconds, Instant.secondsPerDay]
    omega
  have hsecond : f.instant.truncated.clockTime.second =
      (f.instant.truncated.seconds % Instant.secondsPerDay).toNat % 60 := rfl
  rw [hsecond]
  simp only [Instant.clockTime, hseconds]
  omega

end StrictForm

namespace Instant.Strict

variable {cs rest : List Char}

theorem digits_eq_ok_iff {count n : Nat} (hc : 0 < count) :
    digits count cs = .ok (n, rest) ↔ n < 10 ^ count ∧ cs = padded count n ++ rest := by
  simp only [digits]
  constructor
  · intro h
    split_ifs at h with hfront
    simp only [Bool.and_eq_true, decide_eq_true_eq, List.all_eq_true] at hfront
    obtain ⟨hl, hd⟩ := hfront
    cases h
    have hne : cs.take count ≠ [] := List.ne_nil_of_length_pos (hc.trans_eq hl.symm)
    have hpadded := padded_digitsValue hne hd
    rw [hl] at hpadded
    have hlt := digitsValue_lt hd
    rw [hl] at hlt
    exact ⟨hlt, by rw [hpadded, List.take_append_drop]⟩
  · rintro ⟨hn, rfl⟩
    have hl := length_padded hc hn
    have hfront : (padded count n ++ rest).take count = padded count n := by
      rw [List.take_append_of_le_length hl.ge, List.take_of_length_le hl.le]
    have hrest : (padded count n ++ rest).drop count = rest := List.drop_left' hl
    rw [hfront, hrest, digitsValue_padded, if_pos]
    simp only [Bool.and_eq_true, decide_eq_true_eq, List.all_eq_true]
    exact ⟨hl, fun _ => isDigit_of_mem_padded⟩

theorem oneOf_eq_ok_iff {allowed : List Char} {c : Char} :
    oneOf allowed cs = .ok (c, rest) ↔ c ∈ allowed ∧ cs = c :: rest := by
  cases cs with
  | nil => simp [oneOf]
  | cons d ds =>
    simp only [oneOf]
    split_ifs with hd
    · simp only [List.contains_iff_mem] at hd
      constructor
      · rintro ⟨⟩
        exact ⟨hd, rfl⟩
      · rintro ⟨-, ⟨⟩⟩
        rfl
    · simp only [List.contains_iff_mem] at hd
      constructor
      · rintro ⟨⟩
      · rintro ⟨hc, ⟨⟩⟩
        exact absurd hc hd

theorem skipFraction_ok (h : skipFraction cs = .ok rest) :
    ∃ fraction, (∀ c ∈ fraction, isDigit c = true) ∧ cs = StrictForm.point fraction ++ rest := by
  unfold skipFraction at h
  split at h
  case h_1 digits =>
    cases digits with
    | nil => cases h
    | cons c ds =>
      simp only at h
      split_ifs at h with hd
      cases h
      refine ⟨(c :: ds).takeWhile isDigit, fun _ => List.mem_takeWhile_imp, ?_⟩
      rw [StrictForm.point, if_neg (by simp [hd]), List.cons_append,
        List.takeWhile_append_dropWhile]
  case h_2 =>
    cases h
    exact ⟨[], by simp, rfl⟩

theorem skipFraction_point {fraction : List Char} (hd : ∀ c ∈ fraction, isDigit c = true) :
    skipFraction (StrictForm.point fraction ++ ['Z']) = .ok ['Z'] := by
  simp only [StrictForm.point]
  split_ifs with hf
  · rfl
  · obtain ⟨c, ds, rfl⟩ := List.exists_cons_of_ne_nil hf
    have hrest : (c :: (ds ++ ['Z'])).dropWhile isDigit = ['Z'] := by
      rw [← List.cons_append, List.dropWhile_append_of_pos hd]
      rfl
    simp only [skipFraction, List.cons_append, hd c List.mem_cons_self, hrest]
    rfl

theorem skipOffsetMinutes_ok (h : skipOffsetMinutes cs = .ok []) :
    ∃ a b, cs = [a, b] ∧ isDigit b = true := by
  unfold skipOffsetMinutes at h
  split at h
  · split_ifs at h with hd
    cases h
    exact ⟨_, _, rfl, (Bool.and_eq_true_iff.mp hd).2⟩
  · cases h

/-- An offset in digits does not end in `Z`. -/
theorem skipOffset_ok (h : skipOffset cs = .ok []) (hlast : cs.getLast? = some 'Z') :
    cs = ['Z'] := by
  unfold skipOffset at h
  split at h
  case h_1 =>
    cases h
    rfl
  case h_2 =>
    cases h
    cases hlast
  case h_3 sign digits _ _ =>
    split_ifs at h
    split at h
    · split_ifs at h
      simp only [Guard.bind_eq_ok_iff, Prod.exists, oneOf_eq_ok_iff] at h
      obtain ⟨_, _, ⟨-, rfl⟩, hminutes⟩ := h
      obtain ⟨a, b, rfl, hb⟩ := skipOffsetMinutes_ok hminutes
      simp only [List.getLast?_cons_cons, List.getLast?_singleton, Option.some.injEq] at hlast
      rw [hlast] at hb
      cases hb
    · cases h
  case h_4 => cases h

theorem date_eq_ok_iff {d : Date} : date cs = .ok (d, rest) ↔
    (0 ≤ d.year ∧ d.year ≤ 9999) ∧
      cs = padded 4 d.year.toNat ++ '-' :: padded 2 d.month ++ '-' :: padded 2 d.day ++ rest := by
  have hm : d.month < 100 := by have := d.exists_month; omega
  have hd : d.day < 100 := by have := d.day_le; omega
  simp only [date, Guard.bind_eq_ok_iff, Guard.expect_eq_ok_iff, Guard.pure_eq_ok_iff, Prod.exists,
    digits_eq_ok_iff (show 0 < 4 by decide), digits_eq_ok_iff (show 0 < 2 by decide),
    oneOf_eq_ok_iff, List.mem_singleton, Date.of?_eq_some_iff, Prod.mk.injEq]
  constructor
  · rintro ⟨year, _, ⟨hy, rfl⟩, _, _, ⟨rfl, rfl⟩, month, _, ⟨-, rfl⟩, _, _, ⟨rfl, rfl⟩, day, _,
      ⟨-, rfl⟩, _, ⟨hyear, rfl, rfl⟩, rfl, rfl⟩
    refine ⟨by omega, ?_⟩
    rw [hyear, Int.toNat_natCast]
    simp only [List.append_assoc, List.cons_append]
  · rintro ⟨hy, rfl⟩
    simp only [List.append_assoc, List.cons_append]
    exact ⟨d.year.toNat, _, ⟨by omega, rfl⟩, _, _, ⟨rfl, rfl⟩, d.month, _, ⟨hm, rfl⟩, _, _,
      ⟨rfl, rfl⟩, d.day, _, ⟨hd, rfl⟩, d, ⟨by omega, rfl, rfl⟩, rfl, rfl⟩

theorem clock_eq_ok_iff {c : ClockTime} : clock cs = .ok (c, rest) ↔ c.nanos = 0 ∧
    ∃ tail, skipFraction tail = .ok rest ∧
      cs = padded 2 c.hour ++ ':' :: padded 2 c.minute ++ ':' :: padded 2 c.second ++ tail := by
  have hh : c.hour < 100 := by have := c.hour_le; omega
  have hm : c.minute < 100 := by have := c.minute_le; omega
  have hs : c.second < 100 := by have := c.second_le; omega
  simp only [clock, Guard.bind_eq_ok_iff, Guard.expect_eq_ok_iff, Guard.pure_eq_ok_iff, Prod.exists,
    digits_eq_ok_iff (show 0 < 2 by decide), oneOf_eq_ok_iff, List.mem_singleton,
    ClockTime.of?_eq_some_iff, Prod.mk.injEq]
  constructor
  · rintro ⟨_, _, ⟨-, rfl⟩, _, _, ⟨rfl, rfl⟩, _, _, ⟨-, rfl⟩, _, _, ⟨rfl, rfl⟩, _, tail, ⟨-, rfl⟩,
      _, hf, _, ⟨rfl, rfl, rfl, hn⟩, rfl, rfl⟩
    exact ⟨hn, tail, hf, by simp only [List.append_assoc, List.cons_append]⟩
  · rintro ⟨hn, tail, hf, rfl⟩
    simp only [List.append_assoc, List.cons_append]
    exact ⟨c.hour, _, ⟨hh, rfl⟩, _, _, ⟨rfl, rfl⟩, c.minute, _, ⟨hm, rfl⟩, _, _, ⟨rfl, rfl⟩,
      c.second, tail, ⟨hs, rfl⟩, rest, hf, c, ⟨rfl, rfl, rfl, hn⟩, rfl, rfl⟩

theorem seconds_text (f : StrictForm) : seconds f.text = .ok f.instant.seconds := by
  have hdate (rest : List Char) : date (f.dateText ++ rest) = .ok (f.date, rest) :=
    date_eq_ok_iff.mpr ⟨⟨f.year_nonneg, f.year_le⟩, rfl⟩
  have hbetween (rest : List Char) : oneOf ['T', 't', ' '] (f.between :: rest) =
      .ok (f.between, rest) := oneOf_eq_ok_iff.mpr ⟨f.between_mem, rfl⟩
  have hclock : clock (f.clockText ++ (StrictForm.point f.fraction ++ ['Z'])) =
      .ok ({ f.clock with nanos := 0, nanos_lt := by decide }, ['Z']) :=
    clock_eq_ok_iff.mpr ⟨rfl, _, skipFraction_point f.fraction_digits, rfl⟩
  simp only [seconds, Guard.bind_eq_ok_iff, Guard.demand_eq_ok_iff, Guard.pure_eq_ok_iff,
    Prod.exists, f.toList_text]
  exact ⟨(), f.le_utf8ByteSize_text, _, _, hdate _, _, _, hbetween _, _, _, hclock, [], rfl, (),
    rfl, rfl⟩

theorem exists_form {text : String} {n : Int} (h : seconds text = .ok n)
    (hlast : text.toList.getLast? = some 'Z') : ∃ f : StrictForm, f.text = text := by
  simp only [seconds, Guard.bind_eq_ok_iff, Guard.demand_eq_ok_iff, Guard.pure_eq_ok_iff,
    Prod.exists, date_eq_ok_iff, oneOf_eq_ok_iff, clock_eq_ok_iff] at h
  obtain ⟨_, -, d, _, ⟨hyear, htext⟩, between, _, ⟨hbetween, rfl⟩, c, rest, ⟨-, tail, hf, rfl⟩, _,
    hoffset, _, rfl, -⟩ := h
  obtain ⟨fraction, hd, rfl⟩ := skipFraction_ok hf
  let f : StrictForm := ⟨d, between, c.hour, c.minute, c.second, fraction, hyear.1, hyear.2,
    hbetween, c.hour_le, c.minute_le, c.second_le, hd⟩
  have hshape : text.toList =
      (f.dateText ++ f.between :: (f.clockText ++ StrictForm.point f.fraction)) ++ rest := by
    rw [htext]
    simp only [StrictForm.dateText, StrictForm.clockText, List.append_assoc, List.cons_append, f]
  have hne : rest ≠ [] := by
    rintro rfl
    cases hoffset
  rw [hshape, List.getLast?_append_of_ne_nil _ hne] at hlast
  refine ⟨f, String.toList_inj.mp ?_⟩
  rw [f.toList_text, hshape, skipOffset_ok hoffset hlast]
  simp only [List.append_assoc, List.cons_append]

end Instant.Strict

namespace Instant

theorem parse_text (f : StrictForm) : parse f.text = .ok f.instant.truncated := by
  have hlast : f.text.toList.getLast? = some 'Z' := by
    rw [StrictForm.text, String.toList_ofList, List.getLast?_concat]
  have hseconds : ofSeconds? f.instant.seconds = some f.instant.truncated :=
    dif_pos f.instant.inRange
  rw [parse, if_pos hlast, Strict.seconds_text]
  simp only [hseconds]

theorem parse_eq_ok_iff {text : String} {t : Instant} :
    parse text = .ok t ↔ ∃ f : StrictForm, f.text = text ∧ f.instant.truncated = t := by
  constructor
  · intro h
    have hform : ∃ f : StrictForm, f.text = text := by
      rw [parse] at h
      split_ifs at h with hlast
      split at h
      · rename_i hseconds
        exact Strict.exists_form hseconds hlast
      · cases h
    obtain ⟨f, rfl⟩ := hform
    rw [parse_text] at h
    exact ⟨f, rfl, Except.ok.inj h⟩
  · rintro ⟨f, rfl, rfl⟩
    exact parse_text f

end Instant

namespace StrictForm

/-- A whole second at which a clock in UTC shows what the text says, with second 60 as second 59. -/
structure Tells (f : StrictForm) (t : Instant) : Prop where
  nanos : t.nanos = 0
  date : t.date = f.date
  hour : t.clockTime.hour = f.hour
  minute : t.clockTime.minute = f.minute
  second : t.clockTime.second = min f.second 59

variable {f : StrictForm} {t : Instant}

theorem tells_iff : f.Tells t ↔ f.instant.truncated = t := by
  obtain ⟨hhour, hminute, hsecond⟩ := f.clockTime_truncated
  constructor
  · intro h
    have hnanos : f.instant.truncated.clockTime.nanos = t.clockTime.nanos := by
      change 0 % Instant.nanosPerSecond = t.nanos % Instant.nanosPerSecond
      rw [h.nanos]
    have hclock : f.instant.truncated.clockTime = t.clockTime :=
      ClockTime.ext (hhour.trans h.hour.symm) (hminute.trans h.minute.symm)
        (hsecond.trans h.second.symm) hnanos
    have hdate : f.instant.truncated.date = t.date := f.date_instant.trans h.date.symm
    have heq := f.instant.truncated.ofLocal?_clockTime
    rw [hdate, hclock, t.ofLocal?_clockTime] at heq
    exact (Option.some.inj heq).symm
  · rintro rfl
    exact ⟨rfl, f.date_instant, hhour, hminute, hsecond⟩

def ofInstant (t : Instant) (h₀ : 0 ≤ t.date.year) (h₁ : t.date.year ≤ 9999) : StrictForm where
  date := t.date
  between := 'T'
  hour := t.clockTime.hour
  minute := t.clockTime.minute
  second := t.clockTime.second
  fraction := []
  year_nonneg := h₀
  year_le := h₁
  between_mem := List.mem_cons_self
  hour_le := t.clockTime.hour_le
  minute_le := t.clockTime.minute_le
  second_le := t.clockTime.second_le
  fraction_digits := by simp

theorem text_ofInstant (h₀ : 0 ≤ t.date.year) (h₁ : t.date.year ≤ 9999) :
    (ofInstant t h₀ h₁).text = t.toText := by
  have hyear : Instant.writtenYear t.date.year = padded 4 t.date.year.toNat := by
    rw [Instant.writtenYear, if_neg (by omega), if_neg (by omega),
      show t.date.year.natAbs = t.date.year.toNat by omega]
  have htime : t.writtenTime = (ofInstant t h₀ h₁).clockText := rfl
  have hdate : t.writtenDate = (ofInstant t h₀ h₁).dateText := by
    rw [Instant.writtenDate, hyear]
    rfl
  rw [Instant.toText, htime, hdate, text]
  simp [point, ofInstant]

theorem tells_ofInstant (h₀ : 0 ≤ t.date.year) (h₁ : t.date.year ≤ 9999) (h : t.nanos = 0) :
    (ofInstant t h₀ h₁).Tells t where
  nanos := h
  date := rfl
  hour := rfl
  minute := rfl
  second := by
    have hleap : ¬ t.isLeap = true := by
      simp [Instant.isLeap, h, Instant.nanosPerSecond]
    have hne := (Instant.clockTime_of_not_leap hleap).1
    have hle := t.clockTime.second_le
    change t.clockTime.second = min t.clockTime.second 59
    omega

end StrictForm

namespace Instant

variable {t t' : Instant}

theorem truncated_eq_self_iff : t.truncated = t ↔ t.nanos = 0 := by
  constructor
  · intro h
    rw [← h]
    rfl
  · intro h
    apply rank_inj.mp
    rw [rank, rank, h]
    rfl

theorem ofSeconds_seconds_iff : ofSeconds t.seconds = .ok t ↔ t.nanos = 0 := by
  have hread : ofSeconds? t.seconds = some t.truncated := dif_pos t.inRange
  simp only [ofSeconds, hread, Except.ok.injEq, truncated_eq_self_iff]

theorem lt_iff_seconds (h : t.nanos = 0) (h' : t'.nanos = 0) :
    t < t' ↔ t.seconds < t'.seconds := by
  change t.rank < t'.rank ↔ _
  simp only [rank, h, h', nanosPerSecond]
  omega

theorem eq_iff_seconds (h : t.nanos = 0) (h' : t'.nanos = 0) :
    t = t' ↔ t.seconds = t'.seconds := by
  rw [← rank_inj]
  simp only [rank, h, h', nanosPerSecond]
  omega

theorem parse_eq_ok_iff_tells {text : String} :
    parse text = .ok t ↔ ∃ f : StrictForm, f.text = text ∧ f.Tells t := by
  simp only [parse_eq_ok_iff, StrictForm.tells_iff]

theorem parse_toText (h : t.nanos = 0) (h₀ : 0 ≤ t.date.year) (h₁ : t.date.year ≤ 9999) :
    parse t.toText = .ok t :=
  parse_eq_ok_iff_tells.mpr ⟨.ofInstant t h₀ h₁, StrictForm.text_ofInstant h₀ h₁,
    StrictForm.tells_ofInstant h₀ h₁ h⟩

/-- The text of a whole second is read back as it, and so is its number of seconds. A text is read
just if it is in the strict form, as the whole second of which it tells, and two instants that are
read from texts stand as their seconds do. -/
theorem texts_and_seconds_round_trip :
    (∀ t : Instant, t.nanos = 0 → 0 ≤ t.date.year → t.date.year ≤ 9999 →
      parse t.toText = .ok t) ∧
    (∀ t : Instant, ofSeconds t.seconds = .ok t ↔ t.nanos = 0) ∧
    (∀ text t, parse text = .ok t ↔ ∃ f : StrictForm, f.text = text ∧ f.Tells t) ∧
    ∀ text text' t t', parse text = .ok t → parse text' = .ok t' →
      (t < t' ↔ t.seconds < t'.seconds) ∧ (t = t' ↔ t.seconds = t'.seconds) := by
  have hwhole {text : String} {t : Instant} (h : parse text = .ok t) : t.nanos = 0 := by
    obtain ⟨f, -, hf⟩ := parse_eq_ok_iff_tells.mp h
    exact hf.nanos
  refine ⟨fun t => parse_toText, fun t => ofSeconds_seconds_iff,
    fun text t => parse_eq_ok_iff_tells, fun text text' t t' h h' => ⟨?_, ?_⟩⟩
  · exact lt_iff_seconds (hwhole h) (hwhole h')
  · exact eq_iff_seconds (hwhole h) (hwhole h')

/-- The end of a leap day, and half of a leap second, which counts as the second before it. -/
theorem texts_and_seconds_round_trip_leap : ∃ day leap : Instant,
    day.toText = "2000-02-29T23:59:59Z" ∧ parse day.toText = .ok day ∧
      ofSeconds 951868799 = .ok day ∧ parse "2016-12-31T23:59:60.5Z" = .ok leap ∧
      leap.toText = "2016-12-31T23:59:59Z" ∧ day < leap := by
  let day : Instant := ⟨951868799, 0, by decide, .inl (by decide)⟩
  let leap : Instant := ⟨1483228799, 0, by decide, .inl (by decide)⟩
  let form : StrictForm := ⟨leap.date, 'T', 23, 59, 60, ['5'], by decide, by decide, by decide,
    by decide, by decide, by decide, List.forall_mem_singleton.mpr rfl⟩
  obtain ⟨htext, hseconds, hform, horder⟩ := texts_and_seconds_round_trip
  have hday : parse day.toText = .ok day := htext day rfl (by decide) (by decide)
  have hleap : parse "2016-12-31T23:59:60.5Z" = .ok leap :=
    (hform _ leap).mpr ⟨form, by decide, rfl, rfl, by decide, by decide, by decide⟩
  exact ⟨day, leap, by decide, hday, (hseconds day).mpr rfl, hleap, by decide,
    (horder _ _ day leap hday hleap).1.mpr (by decide)⟩

end Instant

end TrustPermit
