import Mathlib.Tactic.FieldSimp
import Mathlib.Tactic.NormNum
import TrustPermit.Proofs.Decimals

/-! # Numerals of rates

The texts that are rates are those of one grammar: digits, and up to eighteen more behind a point.
A rate is read exactly from a numeral in range, whatever zeros it has, and is printed as the one
numeral that has none to spare.
-/

namespace TrustPermit

open Text

namespace Text

theorem head?_toDigits {n : Nat} (h : (Nat.toDigits 10 n).head? = some '0') : n = 0 := by
  induction n using Nat.strong_induction_on with
  | _ n ih =>
    rcases Nat.lt_or_ge n 10 with hn | hn
    · rw [Nat.toDigits_of_lt_base hn, List.head?_singleton, Option.some.injEq] at h
      exact Nat.digitChar_eq_zero.mp h
    · rw [Nat.toDigits_of_base_le (by decide) hn,
        List.head?_append_of_ne_nil _ Nat.toDigits_ne_nil] at h
      have hz := ih (n / 10) (by omega) h
      omega

theorem getLast?_trimEnd (c : Char) (cs : List Char) : (trimEnd c cs).getLast? ≠ some c := by
  intro h
  obtain ⟨hne, hc⟩ := List.mem_getLast?_eq_getLast h
  exact List.rdropWhile_last_not (fun d => decide (d = c)) cs hne (decide_eq_true hc.symm)

end Text

namespace Rate

/-- Digits, and up to eighteen more behind a point. -/
structure Numeral where
  whole : List Char
  fraction : List Char
  whole_ne_nil : whole ≠ []
  whole_digits : ∀ c ∈ whole, isDigit c = true
  fraction_digits : ∀ c ∈ fraction, isDigit c = true
  fraction_length : fraction.length ≤ decimals

theorem ofDigits_eq_ok_iff {whole fraction : List Char} {r : Rate}
    (h : fraction.length ≤ decimals) :
    ofDigits whole fraction = .ok r ↔
      digitsValue (whole ++ fraction) * 10 ^ (decimals - fraction.length) = r.scaled := by
  refine ⟨fun hr => ?_, ofDigits_of_scaled (Nat.add_sub_cancel' h)⟩
  rw [ofDigits, if_neg (Nat.not_lt.mpr h), ofParts?, if_neg (Nat.not_lt.mpr h), ofScaled?] at hr
  split_ifs at hr with hfit
  cases hr
  rfl

namespace Numeral

def text (n : Numeral) : String :=
  String.ofList (if n.fraction = [] then n.whole else n.whole ++ '.' :: n.fraction)

def value (n : Numeral) : ℚ :=
  digitsValue n.whole + digitsValue n.fraction / 10 ^ n.fraction.length

/-- No zero in front of another digit, and none at the end of the fraction. -/
structure Terse (n : Numeral) : Prop where
  whole : n.whole.head? = some '0' → n.whole = ['0']
  fraction : n.fraction.getLast? ≠ some '0'

variable {n n' : Numeral} {r : Rate}

theorem splitFirst_text (n : Numeral) :
    splitFirst '.' n.text.toList =
      if n.fraction = [] then none else some (n.whole, n.fraction) := by
  have hpoint : '.' ∉ n.whole := fun h => absurd (n.whole_digits _ h) (by decide)
  rw [text, String.toList_ofList]
  split
  · exact splitFirst_eq_none_iff.mpr hpoint
  · exact splitFirst_append _ hpoint

theorem text_injective : Function.Injective text := by
  intro n n' h
  have hsplit := congrArg (fun t => splitFirst '.' t.toList) h
  have hlist := congrArg String.toList h
  simp only [splitFirst_text] at hsplit
  cases n
  cases n'
  simp only [text, String.toList_ofList] at hlist
  simp only [mk.injEq]
  split_ifs at hsplit hlist <;> simp_all

theorem parse_text (n : Numeral) : parse n.text = ofDigits n.whole n.fraction := by
  rw [text]
  split
  · rename_i hnil
    rw [parse_whole n.whole_ne_nil n.whole_digits, hnil]
  · rename_i hne
    exact parse_point n.whole_ne_nil hne n.whole_digits n.fraction_digits

def units (n : Numeral) : Nat :=
  digitsValue (n.whole ++ n.fraction) * 10 ^ (decimals - n.fraction.length)

theorem units_eq (n : Numeral) : (n.units : ℚ) = n.value * 10 ^ 18 := by
  have hpow : (10 : ℚ) ^ n.fraction.length * 10 ^ (decimals - n.fraction.length) = 10 ^ 18 := by
    rw [← pow_add, Nat.add_sub_cancel' n.fraction_length]
    rfl
  rw [units, digitsValue_append, value]
  push_cast
  rw [← hpow]
  field_simp

theorem parse_text_eq_ok_iff : parse n.text = .ok r ↔ n.units = r.scaled := by
  rw [parse_text]
  exact ofDigits_eq_ok_iff n.fraction_length

theorem exists_parse_text_iff : (∃ r, parse n.text = .ok r) ↔ n.units < bound := by
  simp only [parse_text_eq_ok_iff]
  exact ⟨fun ⟨r, hr⟩ => hr ▸ r.fits, fun h => ⟨⟨n.units, h⟩, rfl⟩⟩

end Numeral

theorem exists_numeral {text : String} {r : Rate} (h : parse text = .ok r) :
    ∃ n : Numeral, n.text = text := by
  cases hpoint : splitFirst '.' text.toList with
  | none =>
    simp only [parse, hpoint, Option.getD_none] at h
    split_ifs at h with hw
    obtain ⟨hne, hd⟩ : text.toList ≠ [] ∧ ∀ c ∈ text.toList, isDigit c = true := by
      simpa using hw
    refine ⟨⟨text.toList, [], hne, hd, by simp, by simp⟩, ?_⟩
    simp [Numeral.text]
  | some parts =>
    obtain ⟨whole, fraction⟩ := parts
    simp only [parse, hpoint, Option.getD_some] at h
    split_ifs at h with hw hf hd
    obtain ⟨hne, hwhole⟩ : whole ≠ [] ∧ ∀ c ∈ whole, isDigit c = true := by simpa using hw
    have hfraction : fraction ≠ [] := by simpa using hf
    have hlength : fraction.length ≤ decimals := by
      by_contra hlong
      rw [ofDigits, if_pos (Nat.lt_of_not_le hlong)] at h
      cases h
    refine ⟨⟨whole, fraction, hne, hwhole, by simpa using hd, hlength⟩, ?_⟩
    rw [Numeral.text, if_neg hfraction, ← (splitFirst_eq_some_iff.mp hpoint).1,
      String.ofList_toList]

def numeral (r : Rate) : Numeral where
  whole := Nat.toDigits 10 (r.scaled / scale)
  fraction := trimEnd '0' (padded decimals (r.scaled % scale))
  whole_ne_nil := Nat.toDigits_ne_nil
  whole_digits _ h := Nat.isDigit_of_mem_toDigits (by decide) (by decide) h
  fraction_digits _ h := isDigit_of_mem_padded ((List.rdropWhile_prefix _ _).subset h)
  fraction_length := by
    have hlt : r.scaled % scale < scale := Nat.mod_lt _ (by decide)
    exact ((List.rdropWhile_prefix _ _).length_le).trans (length_padded (by decide) hlt).le

theorem text_numeral (r : Rate) : r.numeral.text = r.toText := by
  have hlt : r.scaled % scale < scale := Nat.mod_lt _ (by decide)
  have hnil : r.numeral.fraction = [] ↔ r.scaled % scale = 0 := by
    refine ⟨fun h => ?_, fun h => ?_⟩
    · by_contra hne
      obtain ⟨-, hne', -⟩ := fraction_digits hne hlt
      exact hne' h
    · change trimEnd '0' (padded decimals (r.scaled % scale)) = []
      rw [h]
      decide
  simp only [Numeral.text, hnil]
  rfl

theorem terse_numeral (r : Rate) : r.numeral.Terse where
  whole h := by
    have hzero : r.scaled / scale = 0 := head?_toDigits h
    simp only [numeral, hzero]
    rfl
  fraction := getLast?_trimEnd _ _

/-- A text is a rate just if it is a numeral in range, which is one numeral then and gives the rate
exactly. A rate is printed as a numeral without a zero to spare, and is read back from it. -/
theorem texts_are_numerals :
    Function.Injective Numeral.text ∧
    (∀ text, (∃ r, parse text = .ok r) ↔
      ∃ n : Numeral, n.text = text ∧ n.value * 10 ^ 18 < 2 ^ 128) ∧
    (∀ text r, parse text = .ok r ↔
      ∃ n : Numeral, n.text = text ∧ (r.scaled : ℚ) = n.value * 10 ^ 18) ∧
    ∀ r : Rate, parse r.toText = .ok r ∧ ∃ n : Numeral, n.text = r.toText ∧ n.Terse := by
  have hrange (n : Numeral) : n.value * 10 ^ 18 < 2 ^ 128 ↔ n.units < bound := by
    rw [← n.units_eq, ← Nat.cast_lt (α := ℚ)]
    norm_num [bound]
  have hexact (n : Numeral) (r : Rate) :
      (r.scaled : ℚ) = n.value * 10 ^ 18 ↔ n.units = r.scaled := by
    rw [← n.units_eq, Nat.cast_inj, eq_comm]
  simp only [hrange, hexact]
  refine ⟨Numeral.text_injective, fun text => ⟨?_, ?_⟩, fun text r => ⟨?_, ?_⟩,
    fun r => ⟨r.parse_toText, r.numeral, r.text_numeral, r.terse_numeral⟩⟩
  · rintro ⟨r, hr⟩
    obtain ⟨n, rfl⟩ := exists_numeral hr
    exact ⟨n, rfl, Numeral.exists_parse_text_iff.mp ⟨r, hr⟩⟩
  · rintro ⟨n, rfl, hn⟩
    exact Numeral.exists_parse_text_iff.mpr hn
  · intro hr
    obtain ⟨n, rfl⟩ := exists_numeral hr
    exact ⟨n, rfl, Numeral.parse_text_eq_ok_iff.mp hr⟩
  · rintro ⟨n, rfl, hn⟩
    exact Numeral.parse_text_eq_ok_iff.mpr hn

end Rate

end TrustPermit
