import TrustPermit.Instant.Basic

/-! # Instants in the relaxed form

Records carry instants in a wider form than the strict one: blanks between the parts, short
months, days and times, signed years, and offsets from UTC. Nanoseconds are kept.
-/

namespace TrustPermit

open Text

namespace Instant

namespace Relaxed

/-- Reads a number of one digit or more; `limit` caps the digits taken. -/
def number (limit : Option Nat) (cs : List Char) : Option (Nat × List Char) :=
  let run := cs.takeWhile isDigit
  let run := match limit with
    | some most => run.take most
    | none => run
  if run.isEmpty then none else some (digitsValue run, cs.drop run.length)

/-- Reads a number of one or two digits after blanks. -/
def part (cs : List Char) : Option (Nat × List Char) := number (some 2) (skipBlanks cs)

/-- A year without a sign has at most four digits. -/
def year (cs : List Char) : Option (Int × List Char) :=
  match skipBlanks cs with
  | '-' :: cs => (number none cs).map fun (n, rest) => (-(n : Int), rest)
  | '+' :: cs => (number none cs).map fun (n, rest) => ((n : Int), rest)
  | cs => (number (some 4) cs).map fun (n, rest) => ((n : Int), rest)

def separator (sep : Char) (cs : List Char) : Option (List Char) :=
  match skipBlanks cs with
  | c :: rest => if c = sep then some rest else none
  | [] => none

/-- Nanoseconds of a fraction; digits after the ninth are dropped. -/
def fraction (cs : List Char) : Option (Nat × List Char) :=
  match cs with
  | '.' :: rest =>
    let run := rest.takeWhile isDigit
    if run.isEmpty then none
    else
      let kept := run.take 9
      some (digitsValue kept * Nat.pow 10 (9 - kept.length), rest.drop run.length)
  | _ => some (0, cs)

def isSpacer (c : Char) : Bool := c == ':' || isBlank c

def twoDigits (a b : Char) : Option Nat :=
  if isDigit a && isDigit b then some (digitsValue [a, b]) else none

def sign (c : Char) : Option Int :=
  if c = '+' then some 1 else if c = '-' || c = '−' then some (-1) else none

/-- Minutes ahead of UTC, in absolute value below a day. -/
def offset (cs : List Char) : Option (Int × List Char) :=
  match cs with
  | s :: h₁ :: h₂ :: rest => do
    let sign ← sign s
    let hours ← twoDigits h₁ h₂
    match rest.dropWhile isSpacer with
    | m₁ :: m₂ :: rest =>
      let minutes ← twoDigits m₁ m₂
      if 23 < hours ∨ 59 < minutes then none else some (sign * (60 * hours + minutes), rest)
    | _ => none
  | _ => none

/-- An offset, or a name of UTC. -/
def zone (cs : List Char) : Option (Int × List Char) :=
  match cs with
  | 'Z' :: rest => some (0, rest)
  | 'z' :: rest => some (0, rest)
  | u :: t :: c :: rest =>
    if (u = 'U' || u = 'u') && (t = 'T' || t = 't') && (c = 'C' || c = 'c') then some (0, rest)
    else offset cs
  | _ => none

def date (cs : List Char) : Option (Date × List Char) := do
  let (year, cs) ← year cs
  let cs ← separator '-' cs
  let (month, cs) ← part cs
  let cs ← separator '-' cs
  let (day, cs) ← part cs
  let date ← Date.of? year month day
  return (date, cs)

def clock (cs : List Char) : Option (ClockTime × List Char) := do
  let (hour, cs) ← part cs
  let cs ← separator ':' cs
  let (minute, cs) ← part cs
  let cs ← separator ':' cs
  let (second, cs) ← part cs
  let (nanos, cs) ← fraction cs
  let clock ← ClockTime.of? hour minute second nanos
  return (clock, cs)

/-- Reads over the one character between date and time. -/
def dateEnd : List Char → Option (List Char)
  | 'T' :: rest => some rest
  | 't' :: rest => some rest
  | ' ' :: rest => some rest
  | _ => none

end Relaxed

def parseRelaxed? (text : String) : Option Instant := do
  let (date, cs) ← Relaxed.date text.toList
  let cs ← Relaxed.dateEnd cs
  let (clock, cs) ← Relaxed.clock cs
  let (ahead, cs) ← Relaxed.zone (skipBlanks cs)
  if (skipBlanks cs).isEmpty then ofLocal? date clock ahead else none

end Instant

end TrustPermit
