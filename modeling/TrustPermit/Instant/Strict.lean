import TrustPermit.Guard
import TrustPermit.Instant.Basic

/-! # Instants in the strict form

The form `2026-01-15T12:00:00Z`, in UTC only. A fraction of the second is checked and dropped,
a leap second counts as second 59.
-/

namespace TrustPermit

open Text

/-- The first thing wrong with a text in the strict form. -/
inductive FormFault where
  | short
  | invalid
  | range
  | trailing
  deriving DecidableEq

def FormFault.reason : FormFault → String
  | short => "premature end of input"
  | invalid => "input contains invalid characters"
  | range => "input is out of range"
  | trailing => "trailing input"

inductive InstantFault where
  | notUtc (text : String)
  | malformed (text : String) (fault : FormFault)
  | outOfRange (seconds : Int)
  deriving DecidableEq

def InstantFault.reason : InstantFault → String
  | notUtc text => "timestamp must use Z suffix (UTC only), got: " ++ quoted text
  | malformed text fault =>
    "invalid RFC 3339 timestamp " ++ quoted text ++ ": " ++ fault.reason
  | outOfRange seconds => "unix timestamp out of range: " ++ toString seconds

namespace Instant

namespace Strict

/-- A step of reading: a value and what is left, or the first fault. -/
abbrev Step (α : Type) := Except FormFault (α × List Char)

def digits (count : Nat) (cs : List Char) : Step Nat :=
  let front := cs.take count
  if front.length = count && front.all isDigit then .ok (digitsValue front, cs.drop count)
  else .error .invalid

def oneOf (allowed : List Char) : List Char → Step Char
  | c :: cs => if allowed.contains c then .ok (c, cs) else .error .invalid
  | [] => .error .short

/-- Reads over a point and the digits after it, of which there must be one. -/
def skipFraction (cs : List Char) : Except FormFault (List Char) :=
  match cs with
  | '.' :: rest =>
    match rest with
    | c :: _ => if isDigit c then .ok (rest.dropWhile isDigit) else .error .invalid
    | [] => .error .short
  | _ => .ok cs

/-- Reads over the two minute digits of an offset. -/
def skipOffsetMinutes : List Char → Except FormFault (List Char)
  | a :: b :: rest =>
    if isDigit a && isDigit b then if '6' ≤ a then .error .range else .ok rest
    else .error .invalid
  | _ => .error .short

/-- Reads over an offset. Only `Z` can end a text that ends in `Z`, so the value of an offset in
digits is never needed. -/
def skipOffset : List Char → Except FormFault (List Char)
  | 'Z' :: rest => .ok rest
  | 'z' :: rest => .ok rest
  | sign :: rest =>
    if sign = '+' || sign = '-' || sign = '−' then
      match rest with
      | a :: b :: rest =>
        if isDigit a && isDigit b then do
          let (_, rest) ← oneOf [':'] rest
          skipOffsetMinutes rest
        else .error .invalid
      | _ => .error .short
    else .error .invalid
  | [] => .error .short

def date (cs : List Char) : Except FormFault (Date × List Char) := do
  let (year, cs) ← digits 4 cs
  let (_, cs) ← oneOf ['-'] cs
  let (month, cs) ← digits 2 cs
  let (_, cs) ← oneOf ['-'] cs
  let (day, cs) ← digits 2 cs
  let date ← expect (Date.of? year month day) .range
  return (date, cs)

/-- Reads a time of the day and over the fraction of its second. -/
def clock (cs : List Char) : Except FormFault (ClockTime × List Char) := do
  let (hour, cs) ← digits 2 cs
  let (_, cs) ← oneOf [':'] cs
  let (minute, cs) ← digits 2 cs
  let (_, cs) ← oneOf [':'] cs
  let (second, cs) ← digits 2 cs
  let cs ← skipFraction cs
  let clock ← expect (ClockTime.of? hour minute second 0) .range
  return (clock, cs)

/-- The seconds since 1970 at which a UTC clock shows the text. -/
def seconds (text : String) : Except FormFault Int := do
  demand (19 ≤ text.utf8ByteSize) .short
  let (date, cs) ← date text.toList
  let (_, cs) ← oneOf ['T', 't', ' '] cs
  let (clock, cs) ← clock cs
  let cs ← skipOffset cs
  demand (cs = []) .trailing
  return secondsPerDay * date.dayNumber + 3600 * clock.hour + 60 * clock.minute +
    min clock.second 59

end Strict

def parse (text : String) : Except InstantFault Instant :=
  if text.toList.getLast? = some 'Z' then
    match Strict.seconds text with
    | .ok seconds =>
      match ofSeconds? seconds with
      | some t => .ok t
      | none => .error (.malformed text .range)
    | .error fault => .error (.malformed text fault)
  else .error (.notUtc text)

def ofSeconds (seconds : Int) : Except InstantFault Instant :=
  match ofSeconds? seconds with
  | some t => .ok t
  | none => .error (.outOfRange seconds)

end Instant

end TrustPermit
