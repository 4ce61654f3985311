import TrustPermit.Text

/-! # Bounded numbers and rates

Amounts, counts and signed changes have fixed ranges; a result that leaves its range is refused,
never cut off. A rate is a non-negative decimal with 18 fractional digits, held as a whole number of
its smallest units. It applies to whole amounts by rounding down, so every node of a ledger computes
the same shares.
-/

namespace TrustPermit

/-- Amounts, prices and ids take 64 bits. -/
def amountBound : Nat := 18446744073709551616

/-- Sizes, depths and numbers of days take 32 bits. -/
def countBound : Nat := 4294967296

/-- A signed change of an amount takes 64 bits, its sign included. -/
def deltaBound : Nat := 9223372036854775808

namespace Rate

/-- Fractional digits of a rate. -/
def decimals : Nat := 18

/-- The units of the rate `1`. -/
def scale : Nat := 1000000000000000000

/-- Rates and their products with amounts take 128 bits. -/
def bound : Nat := 340282366920938463463374607431768211456

end Rate

structure Rate where
  scaled : Nat
  fits : scaled < Rate.bound
  deriving DecidableEq

namespace Rate

def zero : Rate := ⟨0, by decide⟩

def one : Rate := ⟨scale, by decide⟩

def ofScaled? (scaled : Nat) : Option Rate :=
  if h : scaled < bound then some ⟨scaled, h⟩ else none

/-- The rate `numerator / 10 ^ places`, if it has a rate's precision and range. -/
def ofParts? (numerator places : Nat) : Option Rate :=
  if decimals < places then none else ofScaled? (numerator * Nat.pow 10 (decimals - places))

def isAtMostOne (r : Rate) : Bool := r.scaled ≤ scale

/-- The whole part of `amount * r`; none if the product of units leaves the range of rates
or the result that of amounts. -/
def portion? (r : Rate) (amount : Nat) : Option Nat :=
  let product := amount * r.scaled
  if product < bound ∧ product / scale < amountBound then some (product / scale) else none

theorem portion?_eq_some_iff {r : Rate} {amount share : Nat} :
    r.portion? amount = some share ↔
      amount * r.scaled < bound ∧ share < amountBound ∧ share = amount * r.scaled / scale := by
  simp only [portion?]
  constructor
  · intro h
    split at h
    · rename_i hb
      cases h
      exact ⟨hb.1, hb.2, rfl⟩
    · cases h
  · rintro ⟨hp, hs, rfl⟩
    rw [if_pos ⟨hp, hs⟩]

end Rate

open Text

/-- The first rule that a text breaks as a rate. -/
inductive RateFault where
  | wholePart
  | noFraction
  | fraction
  | precision
  | range
  deriving DecidableEq

def RateFault.reason : RateFault → String
  | wholePart => "integer part must be decimal digits"
  | noFraction => "missing fractional digits after '.'"
  | fraction => "fractional part must be decimal digits"
  | precision => "more than 18 fractional digits"
  | range => "value out of range"

namespace Rate

/-- Reads digits before and after the point; no point counts as no digits after it. -/
def ofDigits (whole fraction : List Char) : Except RateFault Rate :=
  if fraction.length > decimals then .error .precision
  else
    match ofParts? (digitsValue (whole ++ fraction)) fraction.length with
    | some r => .ok r
    | none => .error .range

def parse (text : String) : Except RateFault Rate :=
  let cs := text.toList
  let point := splitFirst '.' cs
  let (whole, fraction) := point.getD (cs, [])
  if whole.isEmpty || !whole.all isDigit then .error .wholePart
  else if point.isSome && fraction.isEmpty then .error .noFraction
  else if !fraction.all isDigit then .error .fraction
  else ofDigits whole fraction

/-- The whole part, then the fraction without its trailing zeros if it is not zero. -/
def printed (r : Rate) : List Char :=
  let whole := Nat.toDigits 10 (r.scaled / scale)
  let fraction := r.scaled % scale
  if fraction = 0 then whole else whole ++ '.' :: trimEnd '0' (padded decimals fraction)

def toText (r : Rate) : String := String.ofList r.printed

end Rate

end TrustPermit
