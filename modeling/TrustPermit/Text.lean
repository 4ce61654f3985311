/-! # Text

White space and runs of ASCII digits, cuts at a separator, and how messages show a text that they
reject. A cut at the first or at the last occurrence of a character succeeds exactly when the
character occurs, and loses nothing else.
-/

namespace TrustPermit.Text

/-- A character that stands for space between words, in any script. -/
def isBlank (c : Char) : Bool :=
  let n := c.toNat
  (0x09 ≤ n && n ≤ 0x0D) || n == 0x20 || n == 0x85 || n == 0xA0 || n == 0x1680 ||
    (0x2000 ≤ n && n ≤ 0x200A) || n == 0x2028 || n == 0x2029 || n == 0x202F || n == 0x205F ||
    n == 0x3000

def skipBlanks (cs : List Char) : List Char := cs.dropWhile isBlank

/-- A digit `0` to `9`; other scripts' digits do not count. -/
def isDigit (c : Char) : Bool := '0' ≤ c && c ≤ '9'

def isLower (c : Char) : Bool := 'a' ≤ c && c ≤ 'z'

def isUpper (c : Char) : Bool := 'A' ≤ c && c ≤ 'Z'

def isAlphanumeric (c : Char) : Bool := isLower c || isUpper c || isDigit c

/-- The number that a run of digits denotes. -/
def digitsValue (cs : List Char) : Nat := Nat.ofDigitChars 10 cs 0

/-- The value of a digit in base 16, where letters of either case count. -/
def hexDigit? (c : Char) : Option Nat :=
  if isDigit c then some (c.toNat - '0'.toNat)
  else if 'a' ≤ c && c ≤ 'f' then some (c.toNat - 'a'.toNat + 10)
  else if 'A' ≤ c && c ≤ 'F' then some (c.toNat - 'A'.toNat + 10)
  else none

/-- The number that digits of a base up to 16 denote. -/
def valueIn? (base : Nat) (cs : List Char) : Option Nat :=
  if cs.isEmpty then none
  else cs.foldlM (fun n c => ((hexDigit? c).filter (· < base)).map (base * n + ·)) 0

/-- The decimal digits of `n`, at least `width` of them. -/
def padded (width n : Nat) : List Char :=
  let digits := Nat.toDigits 10 n
  List.replicate (width - digits.length) '0' ++ digits

/-- Without the characters `c` at the end. -/
def trimEnd (c : Char) (cs : List Char) : List Char := (cs.reverse.dropWhile (· = c)).reverse

/-- The parts before and after the first `sep`. -/
def splitFirst (sep : Char) : List Char → Option (List Char × List Char)
  | [] => none
  | c :: cs =>
    if sep = c then some ([], cs)
    else (splitFirst sep cs).map fun (before, after) => (c :: before, after)

/-- The parts before and after the last `sep`. -/
def splitLast (sep : Char) : List Char → Option (List Char × List Char)
  | [] => none
  | c :: cs =>
    match splitLast sep cs with
    | some (before, after) => some (c :: before, after)
    | none => if sep = c then some ([], cs) else none

theorem splitFirst_eq_none_iff {sep : Char} {cs : List Char} :
    splitFirst sep cs = none ↔ sep ∉ cs := by
  induction cs with
  | nil => simp [splitFirst]
  | cons c cs ih => by_cases h : sep = c <;> simp [splitFirst, h, ← ih]

theorem splitFirst_append {sep : Char} {before : List Char} (after : List Char)
    (h : sep ∉ before) : splitFirst sep (before ++ sep :: after) = some (before, after) := by
  induction before with
  | nil => simp [splitFirst]
  | cons b before ih =>
    obtain ⟨hb, hs⟩ : ¬ sep = b ∧ sep ∉ before := by simpa using h
    simp [splitFirst, hb, ih hs]

theorem splitFirst_eq_some_iff {sep : Char} {cs before after : List Char} :
    splitFirst sep cs = some (before, after) ↔ cs = before ++ sep :: after ∧ sep ∉ before := by
  refine ⟨fun h => ?_, fun ⟨he, hn⟩ => he ▸ splitFirst_append after hn⟩
  induction cs generalizing before with
  | nil => simp [splitFirst] at h
  | cons c cs ih =>
    by_cases hc : sep = c
    · obtain ⟨rfl, rfl⟩ : before = [] ∧ after = cs := by simpa [splitFirst, hc, eq_comm] using h
      simp [hc]
    · obtain ⟨u, hu, rfl⟩ : ∃ u, splitFirst sep cs = some (u, after) ∧ c :: u = before := by
        simpa [splitFirst, hc] using h
      obtain ⟨rfl, hn⟩ := ih hu
      simp [hn, hc]

theorem splitLast_eq_none_iff {sep : Char} {cs : List Char} :
    splitLast sep cs = none ↔ sep ∉ cs := by
  induction cs with
  | nil => simp [splitLast]
  | cons c cs ih =>
    cases h : splitLast sep cs with
    | some parts =>
      have hm : sep ∈ cs := by
        by_cases hm : sep ∈ cs
        · exact hm
        · simp [ih.2 hm] at h
      simp [splitLast, h, hm]
    | none =>
      have hm := ih.1 h
      by_cases hc : sep = c
      · subst hc; simp [splitLast, h]
      · simp [splitLast, h, hc, hm]

theorem splitLast_append {sep : Char} (before : List Char) {after : List Char}
    (h : sep ∉ after) : splitLast sep (before ++ sep :: after) = some (before, after) := by
  induction before with
  | nil => simp [splitLast, splitLast_eq_none_iff.2 h]
  | cons b before ih => simp [splitLast, ih]

theorem splitLast_eq_some_iff {sep : Char} {cs before after : List Char} :
    splitLast sep cs = some (before, after) ↔ cs = before ++ sep :: after ∧ sep ∉ after := by
  refine ⟨fun h => ?_, fun ⟨he, hn⟩ => he ▸ splitLast_append before hn⟩
  induction cs generalizing before with
  | nil => simp [splitLast] at h
  | cons c cs ih =>
    cases hl : splitLast sep cs with
    | some parts =>
      obtain ⟨u, v⟩ := parts
      obtain ⟨rfl, rfl⟩ : c :: u = before ∧ v = after := by simpa [splitLast, hl] using h
      simp [ih hl]
    | none =>
      have hm := splitLast_eq_none_iff.1 hl
      by_cases hc : sep = c
      · subst hc
        obtain ⟨rfl, rfl⟩ : [] = before ∧ cs = after := by simpa [splitLast, hl] using h
        simp [hm]
      · simp [splitLast, hl, hc] at h

/-- Code points of one general category that do not print, as closed ranges. -/
abbrev Ranges := List (Nat × Nat)

/-- Controls, formats, separators other than the space, surrogates, private use and
noncharacters. -/
def unprintable : Ranges :=
  [(0x00, 0x1F), (0x7F, 0xA0), (0xAD, 0xAD), (0x600, 0x605), (0x61C, 0x61C), (0x6DD, 0x6DD),
   (0x70F, 0x70F), (0x890, 0x891), (0x8E2, 0x8E2), (0x1680, 0x1680), (0x180E, 0x180E),
   (0x2000, 0x200F), (0x2028, 0x202F), (0x205F, 0x206F), (0x3000, 0x3000), (0xD800, 0xF8FF),
   (0xFDD0, 0xFDEF), (0xFEFF, 0xFEFF), (0xFFF0, 0xFFFB), (0xFFFE, 0xFFFF),
   (0x110BD, 0x110BD), (0x110CD, 0x110CD), (0x13430, 0x1343F), (0x1BCA0, 0x1BCA3),
   (0x1D173, 0x1D17A), (0xE0000, 0xE00FF), (0xE01F0, 0x10FFFF)]

def isUnprintable (c : Char) : Bool :=
  unprintable.any fun (low, high) => low ≤ c.toNat && c.toNat ≤ high

/-- A code point in lower-case hexadecimal, without padding, in braces. -/
def escapeCodePoint (c : Char) : List Char :=
  ['\\', 'u', '\x7b'] ++ Nat.toDigits 16 c.toNat ++ ['\x7d']

def escape (c : Char) : List Char :=
  match c with
  | '"' => ['\\', '"']
  | '\\' => ['\\', '\\']
  | '\n' => ['\\', 'n']
  | '\r' => ['\\', 'r']
  | '\t' => ['\\', 't']
  | '\x00' => ['\\', '0']
  | c => if isUnprintable c then escapeCodePoint c else [c]

def quoted (text : String) : String :=
  String.ofList ('"' :: text.toList.flatMap escape ++ ['"'])

end TrustPermit.Text
