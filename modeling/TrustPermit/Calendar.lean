/-! # The calendar

Days of the proleptic Gregorian calendar and their numbers, counted from 1 January 1970, correspond
one to one. All cycles of 400 years have the same length; months are counted from March, so that a
leap day is the last of its year.
-/

namespace TrustPermit

def isLeapYear (year : Int) : Bool := year % 4 = 0 ∧ (year % 100 ≠ 0 ∨ year % 400 = 0)

def monthLength (leap : Bool) (month : Nat) : Nat :=
  if month = 2 then if leap then 29 else 28
  else if month = 4 ∨ month = 6 ∨ month = 9 ∨ month = 11 then 30
  else 31

def daysInMonth (year : Int) (month : Nat) : Nat := monthLength (isLeapYear year) month

/-- Days from 1 March to the first of the month that lies `index` months after March. -/
def daysBeforeMonth (index : Nat) : Nat := (153 * index + 2) / 5

/-- The month that lies `index` months after March. -/
def monthAt (index : Nat) : Nat := if index < 10 then index + 3 else index - 9

def marchIndex (month : Nat) : Nat := (month + 9) % 12

theorem monthLength_monthAt : ∀ leap, ∀ index < 11,
    monthLength leap (monthAt index) = daysBeforeMonth (index + 1) - daysBeforeMonth index := by
  decide

theorem monthAt_marchIndex : ∀ month < 13, 1 ≤ month → monthAt (marchIndex month) = month := by
  decide

theorem marchIndex_monthAt : ∀ index < 12, marchIndex (monthAt index) = index := by decide

/-- A day counted from March on: the cycle of 400 years, the century in it, the four years in
that, the year in those, and the day in the year. Only the last year of four may have a leap
day, and of the last four years of a century only those of the last century. -/
@[ext] structure CycleDay where
  cycle : Int
  century : Nat
  quad : Nat
  single : Nat
  day : Nat
  century_le : century ≤ 3
  quad_le : quad ≤ 24
  single_le : single ≤ 3
  day_lt : day < 365 ∨ day = 365 ∧ single = 3 ∧ (quad < 24 ∨ century = 3)

namespace CycleDay

/-- Days since 1 March of the year 0. -/
def number (c : CycleDay) : Int :=
  146097 * c.cycle + 36524 * c.century + 1461 * c.quad + 365 * c.single + c.day

/-- The year in which the count of days starts. -/
def year (c : CycleDay) : Int := 400 * c.cycle + 100 * c.century + 4 * c.quad + c.single

def ofNumber (number : Int) : CycleDay :=
  let rest := (number % 146097).toNat
  let century := min (rest / 36524) 3
  let inCentury := rest - 36524 * century
  let quad := inCentury / 1461
  let inQuad := inCentury - 1461 * quad
  let single := min (inQuad / 365) 3
  have hr : rest < 146097 := by omega
  { cycle := number / 146097
    century := century
    quad := quad
    single := single
    day := inQuad - 365 * single
    century_le := by omega
    quad_le := by omega
    single_le := by omega
    day_lt := by omega }

theorem number_ofNumber (number : Int) : (ofNumber number).number = number := by
  simp only [CycleDay.number, ofNumber]
  omega

theorem ofNumber_number (c : CycleDay) : ofNumber c.number = c := by
  obtain ⟨cycle, century, quad, single, day, hc, hq, hs, hd⟩ := c
  obtain ⟨n, hn⟩ : ∃ n, n = 36524 * century + 1461 * quad + 365 * single + day := ⟨_, rfl⟩
  have hr : ((146097 * cycle + 36524 * century + 1461 * quad + 365 * single + day) % 146097).toNat
      = n := by omega
  have h₀ : (146097 * cycle + 36524 * century + 1461 * quad + 365 * single + day) / 146097 =
      cycle := by omega
  have h₁ : min (n / 36524) 3 = century := by omega
  have h₂ : (n - 36524 * century) / 1461 = quad := by omega
  have h₃ : min ((n - 36524 * century - 1461 * quad) / 365) 3 = single := by omega
  have h₄ : n - 36524 * century - 1461 * quad - 365 * single = day := by omega
  simp only [ofNumber, number, hr, h₀, h₁, h₂, h₃, h₄]

def index (c : CycleDay) : Nat := (5 * c.day + 2) / 153

theorem index_lt (c : CycleDay) : c.index < 12 := by
  have := c.day_lt
  simp only [index]
  omega

def month (c : CycleDay) : Nat := monthAt c.index

theorem month_bounds (c : CycleDay) : 1 ≤ c.month ∧ c.month ≤ 12 := by
  have := c.index_lt
  simp only [month, monthAt]
  split <;> omega

/-- The year by the calendar: January and February belong to the next one. -/
def civilYear (c : CycleDay) : Int := if c.month ≤ 2 then c.year + 1 else c.year

theorem isLeapYear_of_day (c : CycleDay) (h : c.day = 365) : isLeapYear (c.year + 1) = true := by
  have := c.day_lt
  have := c.quad_le
  exact decide_eq_true (by simp only [year]; omega)

theorem day_le (c : CycleDay) :
    c.day - daysBeforeMonth c.index + 1 ≤ daysInMonth c.civilYear c.month := by
  have hi := c.index_lt
  have hd := c.day_lt
  have hk : 153 * c.index ≤ 5 * c.day + 2 ∧ 5 * c.day + 2 < 153 * (c.index + 1) := by
    simp only [index]
    omega
  by_cases hf : c.index = 11
  · have hm : c.month = 2 := by simp [month, hf, monthAt]
    have hy : c.civilYear = c.year + 1 := by simp [civilYear, hm]
    rw [hm, hy, hf, daysInMonth, monthLength, if_pos rfl]
    by_cases h : c.day = 365
    · simp [h, c.isLeapYear_of_day h, daysBeforeMonth]
    · simp only [daysBeforeMonth]
      split <;> omega
  · rw [daysInMonth, month, monthLength_monthAt _ _ (by omega)]
    simp only [daysBeforeMonth]
    omega

end CycleDay

/-- A day that exists. -/
@[ext] structure Date where
  year : Int
  month : Nat
  day : Nat
  exists_month : 1 ≤ month ∧ month ≤ 12
  exists_day : 1 ≤ day ∧ day ≤ daysInMonth year month
  deriving DecidableEq

namespace CycleDay

def date (c : CycleDay) : Date where
  year := c.civilYear
  month := c.month
  day := c.day - daysBeforeMonth c.index + 1
  exists_month := c.month_bounds
  exists_day := ⟨by omega, c.day_le⟩

end CycleDay

namespace Date

def of? (year : Int) (month day : Nat) : Option Date :=
  if hm : 1 ≤ month ∧ month ≤ 12 then
    if hd : 1 ≤ day ∧ day ≤ daysInMonth year month then some ⟨year, month, day, hm, hd⟩ else none
  else none

def marchYear (d : Date) : Int := if d.month ≤ 2 then d.year - 1 else d.year

def marchDay (d : Date) : Nat := daysBeforeMonth (marchIndex d.month) + (d.day - 1)

theorem marchIndex_lt (d : Date) : marchIndex d.month < 12 := Nat.mod_lt _ (by decide)

/-- The month to which a day of the year from March on belongs. -/
theorem monthIndex_marchDay (d : Date) : (5 * d.marchDay + 2) / 153 = marchIndex d.month := by
  have hi := d.marchIndex_lt
  obtain ⟨hd₁, hd₂⟩ := d.exists_day
  have hm := monthAt_marchIndex d.month (by have := d.exists_month; omega) d.exists_month.1
  rw [daysInMonth, ← hm] at hd₂
  simp only [marchDay]
  generalize marchIndex d.month = i at hi hm hd₂ ⊢
  by_cases hf : i = 11
  · subst hf
    have h : d.day ≤ 29 := by
      refine Nat.le_trans hd₂ ?_
      cases isLeapYear d.year <;> decide
    simp only [daysBeforeMonth]
    omega
  · rw [monthLength_monthAt _ _ (by omega)] at hd₂
    simp only [daysBeforeMonth] at hd₂ ⊢
    omega

theorem marchDay_lt (d : Date) :
    d.marchDay < 365 ∨ d.marchDay = 365 ∧ isLeapYear (d.marchYear + 1) = true := by
  have hi := d.monthIndex_marchDay
  have hl := d.marchIndex_lt
  by_cases hf : d.month = 2
  · have hd := d.exists_day
    have hy : d.marchYear + 1 = d.year := by simp [marchYear, hf]
    rw [daysInMonth, hf, monthLength, if_pos rfl] at hd
    simp only [marchDay, hf, hy, marchIndex, daysBeforeMonth]
    split at hd <;> simp_all <;> omega
  · have : marchIndex d.month ≠ 11 := by
      have := d.exists_month
      simp only [marchIndex]
      omega
    omega

/-- Days from 1 March of the year 0 to 1 January 1970. -/
def epochOffset : Int := 719468

def cycleDay (d : Date) : CycleDay where
  cycle := d.marchYear / 400
  century := (d.marchYear % 400 / 100).toNat
  quad := (d.marchYear % 100 / 4).toNat
  single := (d.marchYear % 4).toNat
  day := d.marchDay
  century_le := by omega
  quad_le := by omega
  single_le := by omega
  day_lt := by
    rcases d.marchDay_lt with h | ⟨h, hl⟩
    · exact .inl h
    · have := of_decide_eq_true hl
      exact .inr ⟨h, by omega⟩

theorem date_cycleDay (d : Date) : d.cycleDay.date = d := by
  have hi : d.cycleDay.index = marchIndex d.month := d.monthIndex_marchDay
  have hm : d.cycleDay.month = d.month := by
    rw [CycleDay.month, hi]
    exact monthAt_marchIndex _ (by have := d.exists_month; omega) d.exists_month.1
  have hy : d.cycleDay.year = d.marchYear := by
    simp only [CycleDay.year, cycleDay]
    omega
  have hd := d.exists_day.1
  ext
  · change d.cycleDay.civilYear = d.year
    by_cases h : d.month ≤ 2 <;> simp [CycleDay.civilYear, hm, hy, marchYear, h]
  · exact hm
  · change d.marchDay - daysBeforeMonth d.cycleDay.index + 1 = d.day
    rw [hi, marchDay]
    omega

/-- The number of the day, 0 for 1 January 1970. -/
def dayNumber (d : Date) : Int := d.cycleDay.number - epochOffset

def ofDayNumber (number : Int) : Date := (CycleDay.ofNumber (number + epochOffset)).date

/-- Counting the days forth and back leads to the same date. -/
theorem ofDayNumber_dayNumber (d : Date) : ofDayNumber d.dayNumber = d := by
  rw [ofDayNumber, dayNumber, Int.sub_add_cancel, CycleDay.ofNumber_number, date_cycleDay]

end Date

namespace CycleDay

theorem cycleDay_date (c : CycleDay) : c.date.cycleDay = c := by
  have hy : c.date.marchYear = c.year := by
    by_cases h : c.month ≤ 2 <;> simp [Date.marchYear, date, civilYear, h]
  have hd : c.date.marchDay = c.day := by
    have hi : marchIndex c.date.month = c.index := marchIndex_monthAt _ c.index_lt
    simp only [Date.marchDay, hi]
    simp only [date, index, daysBeforeMonth]
    omega
  have := c.century_le
  have := c.quad_le
  have := c.single_le
  ext <;> simp only [Date.cycleDay, hy, hd, year] <;> omega

end CycleDay

namespace Date

theorem dayNumber_ofDayNumber (number : Int) : (ofDayNumber number).dayNumber = number := by
  rw [ofDayNumber, dayNumber, CycleDay.cycleDay_date, CycleDay.number_ofNumber, Int.add_sub_cancel]

end Date

end TrustPermit
