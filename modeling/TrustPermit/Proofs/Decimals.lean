import Mathlib.Algebra.GroupWithZero.Nat
import Mathlib.Data.List.DropRight
import TrustPermit.Rate

/-! # Decimals read back

A number filled up with zeros is still that number, and zeros dropped behind the point are made up
for by the places that are missing. So a rate is read back from the text it is printed as.
-/

namespace TrustPermit

namespace Text

theorem isDigit_of_mem_padded {width n : Nat} {c : Char} (h : c ∈ padded width n) :
    isDigit c = true := by
  rcases List.mem_append.mp h with hz | hd
  · rw [List.eq_of_mem_replicate hz]
    rfl
  · exact Nat.isDigit_of_mem_toDigits (by decide) (by decide) hd

theorem padded_ne_nil (width n : Nat) : padded width n ≠ [] :=
  List.append_ne_nil_of_right_ne_nil _ Nat.toDigits_ne_nil

theorem padded_zero (n : Nat) : padded 0 n = Nat.toDigits 10 n := by
  rw [padded, Nat.zero_sub, List.replicate_zero, List.nil_append]

theorem length_padded {width n : Nat} (hw : 0 < width) (hn : n < 10 ^ width) :
    (padded width n).length = width := by
  have hl := (Nat.length_toDigits_le_iff (by decide) hw).mpr hn
  rw [padded, List.length_append, List.length_replicate]
  exact Nat.sub_add_cancel hl

@[simp] theorem digitsValue_padded (width n : Nat) : digitsValue (padded width n) = n := by
  rw [digitsValue, padded, Nat.ofDigitChars_append, Nat.ofDigitChars_replicate_zero, Nat.mul_zero,
    Nat.ofDigitChars_ten_toDigits]

theorem digitsValue_append (cs ds : List Char) :
    digitsValue (cs ++ ds) = digitsValue cs * 10 ^ ds.length + digitsValue ds := by
  rw [digitsValue, Nat.ofDigitChars_append, Nat.ofDigitChars_eq_ofDigitChars_zero, Nat.mul_comm]
  rfl

theorem digitsValue_append_zeros (cs : List Char) (k : Nat) :
    digitsValue (cs ++ List.replicate k '0') = digitsValue cs * 10 ^ k := by
  have hzeros : digitsValue (List.replicate k '0') = 0 := by
    rw [digitsValue, Nat.ofDigitChars_replicate_zero, Nat.mul_zero]
  rw [digitsValue_append, List.length_replicate, hzeros, Nat.add_zero]

theorem digitsValue_singleton {c : Char} (h : isDigit c = true) :
    digitsValue [c] < 10 ∧ digitsValue [c] + '0'.toNat = c.toNat := by
  simp only [isDigit, Bool.and_eq_true, decide_eq_true_eq, Char.le_def] at h
  have hlow : '0'.toNat ≤ c.toNat := h.1
  have hhigh : c.toNat ≤ '9'.toNat := h.2
  have hvalue : digitsValue [c] = c.toNat - '0'.toNat := by
    simp [digitsValue, Nat.ofDigitChars_cons]
  have hzero : '0'.toNat = 48 := rfl
  have hnine : '9'.toNat = 57 := rfl
  omega

theorem digitsValue_cons (c : Char) (cs : List Char) :
    digitsValue (c :: cs) = digitsValue [c] * 10 ^ cs.length + digitsValue cs :=
  digitsValue_append [c] cs

theorem digitsValue_lt {cs : List Char} (h : ∀ c ∈ cs, isDigit c = true) :
    digitsValue cs < 10 ^ cs.length := by
  induction cs with
  | nil => exact Nat.one_pos
  | cons c cs ih =>
    have hc := (digitsValue_singleton (h c List.mem_cons_self)).1
    have hcs := ih fun d hd => h d (List.mem_cons_of_mem c hd)
    rw [digitsValue_cons, List.length_cons, Nat.pow_succ]
    have hle := Nat.mul_le_mul_right (10 ^ cs.length) (Nat.le_of_lt_succ hc)
    omega

theorem eq_of_digitsValue_eq {cs ds : List Char} (hcs : ∀ c ∈ cs, isDigit c = true)
    (hds : ∀ d ∈ ds, isDigit d = true) (hl : cs.length = ds.length)
    (hv : digitsValue cs = digitsValue ds) : cs = ds := by
  induction cs generalizing ds with
  | nil => exact (List.length_eq_zero_iff.mp hl.symm).symm
  | cons c cs ih =>
    cases ds with
    | nil => cases hl
    | cons d ds =>
      rw [List.forall_mem_cons] at hcs hds
      have hl' : cs.length = ds.length := Nat.succ.inj hl
      have hlt := digitsValue_lt hcs.2
      have hlt' := digitsValue_lt hds.2
      rw [digitsValue_cons c, digitsValue_cons d, ← hl'] at hv
      rw [← hl'] at hlt'
      have hdiv := congrArg (· / 10 ^ cs.length) hv
      have hmod := congrArg (· % 10 ^ cs.length) hv
      simp only [Nat.mul_comm _ (10 ^ cs.length), Nat.mul_add_mod, Nat.mod_eq_of_lt hlt,
        Nat.mod_eq_of_lt hlt', Nat.mul_add_div (Nat.pow_pos (show 0 < 10 by decide)),
        Nat.div_eq_of_lt hlt, Nat.div_eq_of_lt hlt', Nat.add_zero] at hdiv hmod
      have hc := (digitsValue_singleton hcs.1).2
      have hd := (digitsValue_singleton hds.1).2
      rw [ih hcs.2 hds.2 hl' hmod, Char.toNat_inj.mp (hc.symm.trans (hdiv ▸ hd))]

theorem padded_digitsValue {cs : List Char} (hne : cs ≠ []) (h : ∀ c ∈ cs, isDigit c = true) :
    padded cs.length (digitsValue cs) = cs :=
  eq_of_digitsValue_eq (fun _ => isDigit_of_mem_padded) h
    (length_padded (List.length_pos_of_ne_nil hne) (digitsValue_lt h)) (digitsValue_padded _ _)

theorem trimEnd_append_replicate (c : Char) (cs : List Char) :
    ∃ k, trimEnd c cs ++ List.replicate k c = cs := by
  let tail := cs.rtakeWhile fun d => decide (d = c)
  have htail : tail = List.replicate tail.length c :=
    List.eq_replicate_of_mem fun d hd =>
      of_decide_eq_true (List.mem_rtakeWhile_imp (p := fun d => decide (d = c)) hd)
  exact ⟨tail.length, htail ▸ List.rdropWhile_append_rtakeWhile⟩

end Text

open Text

namespace Rate

theorem pow_decimals : 10 ^ decimals = scale := rfl

theorem ofParts?_of_scaled {r : Rate} {numerator places missing : Nat}
    (hp : places + missing = decimals) (hv : numerator * 10 ^ missing = r.scaled) :
    ofParts? numerator places = some r := by
  obtain rfl : missing = decimals - places := by omega
  have hfit : numerator * Nat.pow 10 (decimals - places) < bound := lt_of_eq_of_lt hv r.fits
  rw [ofParts?, if_neg (by omega), ofScaled?, dif_pos hfit]
  cases r
  cases hv
  rfl

theorem ofDigits_of_scaled {r : Rate} {whole fraction : List Char} {missing : Nat}
    (hp : fraction.length + missing = decimals)
    (hv : digitsValue (whole ++ fraction) * 10 ^ missing = r.scaled) :
    ofDigits whole fraction = .ok r := by
  rw [ofDigits, if_neg (by omega), ofParts?_of_scaled hp hv]

theorem parse_whole {whole : List Char} (hne : whole ≠ [])
    (hd : ∀ c ∈ whole, isDigit c = true) :
    parse (String.ofList whole) = ofDigits whole [] := by
  have hpoint : splitFirst '.' whole = none :=
    splitFirst_eq_none_iff.mpr fun h => absurd (hd _ h) (by decide)
  simp only [parse, String.toList_ofList, hpoint]
  rw [if_neg (by simpa [hne] using hd)]
  simp

theorem parse_point {whole fraction : List Char} (hne : whole ≠ []) (hne' : fraction ≠ [])
    (hd : ∀ c ∈ whole, isDigit c = true) (hd' : ∀ c ∈ fraction, isDigit c = true) :
    parse (String.ofList (whole ++ '.' :: fraction)) = ofDigits whole fraction := by
  have hpoint : splitFirst '.' (whole ++ '.' :: fraction) = some (whole, fraction) :=
    splitFirst_append _ fun h => absurd (hd _ h) (by decide)
  simp only [parse, String.toList_ofList, hpoint, Option.getD_some]
  rw [if_neg (by simpa [hne] using hd), if_neg (by simp [hne']), if_neg (by simpa using hd')]

theorem fraction_digits {fraction : Nat} (h₀ : fraction ≠ 0) (h : fraction < scale) :
    ∃ missing, trimEnd '0' (padded decimals fraction) ≠ [] ∧
      (trimEnd '0' (padded decimals fraction)).length + missing = decimals ∧
      digitsValue (trimEnd '0' (padded decimals fraction)) * 10 ^ missing = fraction := by
  obtain ⟨missing, hk⟩ := trimEnd_append_replicate '0' (padded decimals fraction)
  have hl := congrArg List.length hk
  have hv := congrArg digitsValue hk
  rw [List.length_append, List.length_replicate, length_padded (by decide) h] at hl
  rw [digitsValue_append_zeros, digitsValue_padded] at hv
  refine ⟨missing, fun hnil => h₀ ?_, hl, hv⟩
  rw [← hv, hnil]
  exact Nat.zero_mul _

/-- A printed rate is read as the rate it is. -/
theorem parse_toText (r : Rate) : parse r.toText = .ok r := by
  have hscaled : r.scaled / scale * scale + r.scaled % scale = r.scaled :=
    Nat.div_add_mod' r.scaled scale
  have hlt : r.scaled % scale < scale := Nat.mod_lt _ (by decide)
  have hdigits : ∀ c ∈ padded 0 (r.scaled / scale), isDigit c = true :=
    fun _ => isDigit_of_mem_padded
  simp only [toText, printed, ← padded_zero]
  split
  · rename_i hzero
    rw [parse_whole (padded_ne_nil _ _) hdigits]
    refine ofDigits_of_scaled (Nat.zero_add decimals) ?_
    rwa [List.append_nil, digitsValue_padded, pow_decimals, ← Nat.add_zero (_ * _), ← hzero]
  · rename_i hfraction
    obtain ⟨missing, hne, hl, hv⟩ := fraction_digits hfraction hlt
    have htrim : ∀ c ∈ trimEnd '0' (padded decimals (r.scaled % scale)), isDigit c = true :=
      fun _ hc => isDigit_of_mem_padded ((List.rdropWhile_prefix _ _).subset hc)
    rw [parse_point (padded_ne_nil _ _) hne hdigits htrim]
    refine ofDigits_of_scaled hl ?_
    rw [digitsValue_append, digitsValue_padded, Nat.add_mul, hv, Nat.mul_assoc, ← Nat.pow_add, hl,
      pow_decimals, hscaled]

end Rate

end TrustPermit
