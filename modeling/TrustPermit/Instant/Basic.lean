import TrustPermit.Calendar
import TrustPermit.Text

/-! # Instants

An instant is a number of seconds since the start of 1970 in UTC and a number of nanoseconds.
A leap second is the second 59 of a minute with a billion nanoseconds or more. An instant is written
in UTC with a `Z`, with or without the fraction of the second.
-/

namespace TrustPermit

namespace Instant

/-- The first second of the year -262143. -/
def firstSecond : Int := -8334601228800

/-- The last second of the year 262142. -/
def lastSecond : Int := 8210266876799

def nanosPerSecond : Nat := 1000000000

def secondsPerDay : Int := 86400

end Instant

structure Instant where
  seconds : Int
  nanos : Nat
  inRange : Instant.firstSecond ≤ seconds ∧ seconds ≤ Instant.lastSecond
  nanos_lt : nanos < Instant.nanosPerSecond ∨
    nanos < 2 * Instant.nanosPerSecond ∧ seconds % 60 = 59
  deriving DecidableEq

namespace Instant

/-- Position on one line of nanoseconds on which every second has room for a leap second. -/
def rank (t : Instant) : Int := t.seconds * (2 * nanosPerSecond) + t.nanos

instance : LT Instant := ⟨fun a b => a.rank < b.rank⟩

instance : LE Instant := ⟨fun a b => a.rank ≤ b.rank⟩

instance : DecidableLT Instant := fun a b => inferInstanceAs (Decidable (a.rank < b.rank))

instance : DecidableLE Instant := fun a b => inferInstanceAs (Decidable (a.rank ≤ b.rank))

theorem rank_inj {a b : Instant} : a.rank = b.rank ↔ a = b := by
  refine ⟨fun h => ?_, fun h => h ▸ rfl⟩
  have ha := a.nanos_lt
  have hb := b.nanos_lt
  obtain ⟨sa, na, _, _⟩ := a
  obtain ⟨sb, nb, _, _⟩ := b
  simp only [rank, nanosPerSecond] at h ha hb
  obtain ⟨rfl, rfl⟩ : sa = sb ∧ na = nb := by omega
  rfl

/-- A whole second. -/
def ofSeconds? (seconds : Int) : Option Instant :=
  if h : firstSecond ≤ seconds ∧ seconds ≤ lastSecond then
    some ⟨seconds, 0, h, .inl (by decide)⟩
  else none

/-- The whole second in which the instant lies. -/
def truncated (t : Instant) : Instant := ⟨t.seconds, 0, t.inRange, .inl (by decide)⟩

/-- The same time of the day, `days` days later. A sum may not be a leap second of the last
second. -/
def addDays? (t : Instant) (days : Nat) : Option Instant :=
  if days = 0 then some t
  else if h : t.seconds + secondsPerDay * days < lastSecond ∨
      t.seconds + secondsPerDay * days = lastSecond ∧ t.nanos < nanosPerSecond then
    some ⟨t.seconds + secondsPerDay * days, t.nanos,
      ⟨by have := t.inRange; simp only [secondsPerDay]; omega, by omega⟩,
      t.nanos_lt.imp_right fun hn => ⟨hn.1, by have := hn.2; simp only [secondsPerDay]; omega⟩⟩
  else none

def isLeap (t : Instant) : Bool := nanosPerSecond ≤ t.nanos

end Instant

/-- A time of the day; second 60 is a leap second. -/
@[ext] structure ClockTime where
  hour : Nat
  minute : Nat
  second : Nat
  nanos : Nat
  hour_le : hour ≤ 23
  minute_le : minute ≤ 59
  second_le : second ≤ 60
  nanos_lt : nanos < Instant.nanosPerSecond
  deriving DecidableEq

namespace ClockTime

def of? (hour minute second nanos : Nat) : Option ClockTime :=
  if h : hour ≤ 23 ∧ minute ≤ 59 ∧ second ≤ 60 ∧ nanos < Instant.nanosPerSecond then
    some ⟨hour, minute, second, nanos, h.1, h.2.1, h.2.2.1, h.2.2.2⟩
  else none

end ClockTime

namespace Instant

/-- The instant at which clocks `offsetMinutes` ahead of UTC show this date and time. Both the
shown date and the instant must be in range. -/
def ofLocal? (d : Date) (c : ClockTime) (offsetMinutes : Int) : Option Instant :=
  let shown := secondsPerDay * d.dayNumber + 3600 * c.hour + 60 * c.minute
  let nanos := if c.second = 60 then nanosPerSecond + c.nanos else c.nanos
  let second := if c.second = 60 then 59 else c.second
  if firstSecond ≤ shown ∧ shown ≤ lastSecond then
    let seconds := shown + second - 60 * offsetMinutes
    if h : (firstSecond ≤ seconds ∧ seconds ≤ lastSecond) ∧ (nanos < nanosPerSecond ∨
        nanos < 2 * nanosPerSecond ∧ seconds % 60 = 59) then
      some ⟨seconds, nanos, h.1, h.2⟩
    else none
  else none

def date (t : Instant) : Date := .ofDayNumber (t.seconds / secondsPerDay)

end Instant

open Text

namespace Instant

/-- Years of at most four digits are bare, others carry a sign. -/
def writtenYear (year : Int) : List Char :=
  if year < 0 then '-' :: padded 4 year.natAbs
  else if 9999 < year then '+' :: padded 4 year.natAbs
  else padded 4 year.natAbs

def writtenDate (t : Instant) : List Char :=
  writtenYear t.date.year ++ '-' :: padded 2 t.date.month ++ '-' :: padded 2 t.date.day

def writtenTime (t : Instant) : List Char :=
  let seconds := (t.seconds % secondsPerDay).toNat
  let second := if t.isLeap then 60 else seconds % 60
  padded 2 (seconds / 3600) ++ ':' :: padded 2 (seconds / 60 % 60) ++ ':' :: padded 2 second

/-- Nothing for a whole second, else as few groups of three digits as are exact. -/
def writtenFraction (t : Instant) : List Char :=
  let nanos := t.nanos % nanosPerSecond
  if nanos = 0 then []
  else if nanos % 1000000 = 0 then '.' :: padded 3 (nanos / 1000000)
  else if nanos % 1000 = 0 then '.' :: padded 6 (nanos / 1000)
  else '.' :: padded 9 nanos

def toText (t : Instant) : String :=
  String.ofList (t.writtenDate ++ 'T' :: t.writtenTime ++ ['Z'])

/-- The full form, which keeps every instant apart. -/
def toFullText (t : Instant) : String :=
  String.ofList (t.writtenDate ++ 'T' :: t.writtenTime ++ t.writtenFraction ++ ['Z'])

end Instant

end TrustPermit
