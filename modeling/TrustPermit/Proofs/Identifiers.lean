import TrustPermit.Identity
import TrustPermit.Proofs.Decimals

/-! # The grammars of identifiers

Addresses, decentralised identifiers and digests are each given by a form: parts with a condition on
every part, and the text that they make up. A reader takes the texts of its form and no others,
whatever other separators and characters a text may hold, and the parts can be told from the text.
-/

namespace TrustPermit

open Text

theorem Text.trimEnd_append_of_not_mem {c : Char} {cs : List Char} (h : c ∉ cs) (k : Nat) :
    trimEnd c (cs ++ List.replicate k c) = cs := by
  have hrev : cs.reverse.dropWhile (· = c) = cs.reverse := by
    refine List.dropWhile_eq_self_iff.mpr fun hl => ?_
    simp only [decide_eq_true_eq]
    rintro rfl
    exact h (List.mem_reverse.mp (List.getElem_mem hl))
  simp [trimEnd, hrev]

theorem ite_some_eq_none_iff {α : Type} {P : Prop} [Decidable P] {a : α} {o : Option α} :
    (if P then some a else o) = none ↔ ¬ P ∧ o = none := by
  by_cases h : P <;> simp [h]

/-- A reader that takes the texts of a kind of form and no others. It keeps the text, from which
the form is known, and shows the leading part of the form as the label. -/
structure ReadsForms {α Form : Type} (read? : String → Option α) (text label : α → String)
    (formText formLabel : Form → String) : Prop where
  accepts : ∀ s, (∃ a, read? s = some a) ↔ ∃ f, formText f = s
  unique : ∀ f g, formText f = formText g → f = g
  labelled : ∀ a f, text a = formText f → label a = formLabel f
  kept : ∀ s a, read? s = some a → text a = s
  again : ∀ a, read? (text a) = some a

namespace Address

structure Form where
  human : List Char
  data : List Char
  human_ne_nil : human ≠ []
  human_lower : ∀ c ∈ human, isLower c = true
  data_alphabet : ∀ c ∈ data, c ∈ dataAlphabet
  le_length_data : 6 ≤ data.length
  length_le : (human ++ '1' :: data).length ≤ 90

def Form.text (f : Form) : String := String.ofList (f.human ++ '1' :: f.data)

theorem utf8Size_of_isLower {c : Char} (h : isLower c = true) : c.utf8Size = 1 := by
  simp only [isLower, Bool.and_eq_true, decide_eq_true_eq, Char.le_def] at h
  exact Char.utf8Size_eq_one_iff.mpr (UInt32.le_trans h.2 (by decide))

theorem utf8Size_of_mem_dataAlphabet {c : Char} (h : c ∈ dataAlphabet) : c.utf8Size = 1 := by
  have hall : dataAlphabet.all (·.utf8Size = 1) = true := by decide
  exact of_decide_eq_true (List.all_eq_true.mp hall c h)

theorem separator_not_mem_dataAlphabet : '1' ∉ dataAlphabet := by decide

theorem byteLength_eq_length {cs : List Char} (h : ∀ c ∈ cs, c.utf8Size = 1) :
    byteLength cs = cs.length := by
  induction cs with
  | nil => rfl
  | cons c cs ih =>
    obtain ⟨hc, hcs⟩ := List.forall_mem_cons.mp h
    rw [List.length_cons, ← ih hcs, Nat.add_comm, ← hc]
    rfl

/-- Letters and data take one byte each, so the limits on bytes are limits on characters. -/
theorem byteLength_parts {human data : List Char} (hh : ∀ c ∈ human, isLower c = true)
    (hd : ∀ c ∈ data, c ∈ dataAlphabet) :
    byteLength data = data.length ∧
      byteLength (human ++ '1' :: data) = (human ++ '1' :: data).length := by
  have hdata : ∀ c ∈ data, c.utf8Size = 1 := fun c hc =>
    utf8Size_of_mem_dataAlphabet (hd c hc)
  refine ⟨byteLength_eq_length hdata, byteLength_eq_length fun c hc => ?_⟩
  rcases List.mem_append.mp hc with hc | hc
  · exact utf8Size_of_isLower (hh c hc)
  · rcases List.mem_cons.mp hc with rfl | hc
    · decide
    · exact hdata c hc

theorem fault?_eq_none_iff_parts {s : String} :
    fault? s = none ↔
      (8 ≤ byteLength s.toList ∧ byteLength s.toList ≤ 90) ∧
        ∃ human data, splitLast '1' s.toList = some (human, data) ∧ human ≠ [] ∧
          (∀ c ∈ human, isLower c = true) ∧ 6 ≤ byteLength data ∧
          ∀ c ∈ data, c ∈ dataAlphabet := by
  simp only [fault?]
  by_cases hl : 8 ≤ byteLength s.toList ∧ byteLength s.toList ≤ 90
  · rw [if_neg (by omega)]
    cases splitLast '1' s.toList with
    | none => simp
    | some parts =>
      obtain ⟨human, data⟩ := parts
      simp [ite_some_eq_none_iff, hl, and_assoc]
  · rw [if_pos (by omega)]
    simp [hl]

namespace Form

variable (f : Form)

theorem splitLast_text : splitLast '1' f.text.toList = some (f.human, f.data) := by
  rw [text, String.toList_ofList]
  exact splitLast_append f.human fun h =>
    separator_not_mem_dataAlphabet (f.data_alphabet _ h)

theorem text_injective {f g : Form} (h : f.text = g.text) : f = g := by
  have hs := f.splitLast_text
  rw [h, g.splitLast_text] at hs
  cases f
  cases g
  cases hs
  rfl

end Form

theorem fault?_eq_none_iff {s : String} : fault? s = none ↔ ∃ f : Form, f.text = s := by
  rw [fault?_eq_none_iff_parts]
  constructor
  · rintro ⟨⟨-, hle⟩, human, data, hsplit, hne, hlower, hlong, halphabet⟩
    obtain ⟨hdata, hall⟩ := byteLength_parts hlower halphabet
    obtain ⟨hs, -⟩ := splitLast_eq_some_iff.mp hsplit
    exact ⟨⟨human, data, hne, hlower, halphabet, hdata ▸ hlong, hall ▸ hs ▸ hle⟩,
      by rw [Form.text, ← hs, String.ofList_toList]⟩
  · rintro ⟨f, rfl⟩
    obtain ⟨hdata, hall⟩ := byteLength_parts f.human_lower f.data_alphabet
    refine ⟨?_, f.human, f.data, f.splitLast_text, f.human_ne_nil, f.human_lower,
      hdata ▸ f.le_length_data, f.data_alphabet⟩
    have hhuman := List.length_pos_of_ne_nil f.human_ne_nil
    have hdata := f.le_length_data
    rw [Form.text, String.toList_ofList, hall]
    refine ⟨?_, f.length_le⟩
    simp only [List.length_append, List.length_cons]
    omega

theorem exists_parse_iff {s : String} : (∃ a, parse s = .ok a) ↔ fault? s = none := by
  simp only [parse_eq_ok_iff]
  exact ⟨by rintro ⟨a, rfl⟩; exact a.wellFormed, fun h => ⟨⟨s, h⟩, rfl⟩⟩

end Address

namespace Did

structure Form where
  method : List Char
  id : List Char
  method_ne_nil : method ≠ []
  method_alphanumeric : ∀ c ∈ method, isAlphanumeric c = true
  id_ne_nil : id ≠ []
  id_characters : ∀ c ∈ id, isAlphanumeric c = true ∨ c = '.' ∨ c = '_' ∨ c = '-'

def Form.text (f : Form) : String :=
  String.ofList ('d' :: 'i' :: 'd' :: ':' :: (f.method ++ ':' :: f.id))

theorem colon_not_alphanumeric : isAlphanumeric ':' = false := by decide

theorem isIdCharacter_iff {c : Char} :
    isIdCharacter c = true ↔ isAlphanumeric c = true ∨ c = '.' ∨ c = '_' ∨ c = '-' := by
  simp [isIdCharacter, or_assoc]

theorem Form.parts?_text (f : Form) : parts? f.text = some (f.method, f.id) := by
  have hcolon : ':' ∉ f.method := fun h => by
    simpa [colon_not_alphanumeric] using f.method_alphanumeric _ h
  simp only [parts?, text, String.toList_ofList]
  exact splitFirst_append f.id hcolon

theorem Form.text_injective {f g : Form} (h : f.text = g.text) : f = g := by
  have hp := f.parts?_text
  rw [h, g.parts?_text] at hp
  cases f
  cases g
  cases hp
  rfl

theorem text_of_parts? {s : String} {method id : List Char} (h : parts? s = some (method, id)) :
    s = String.ofList ('d' :: 'i' :: 'd' :: ':' :: (method ++ ':' :: id)) := by
  simp only [parts?] at h
  split at h
  · rename_i rest hs
    rw [← (splitFirst_eq_some_iff.mp h).1, ← hs, String.ofList_toList]
  · cases h

theorem accepts_iff {s : String} : accepts s = true ↔ ∃ f : Form, f.text = s := by
  constructor
  · intro h
    simp only [accepts] at h
    split at h
    · rename_i method id hp
      obtain ⟨⟨⟨hm, hma⟩, hi⟩, hic⟩ : ((method ≠ [] ∧ ∀ c ∈ method, isAlphanumeric c = true) ∧
          id ≠ []) ∧ ∀ c ∈ id, isIdCharacter c = true := by simpa using h
      exact ⟨⟨method, id, hm, hma, hi, fun c hc => isIdCharacter_iff.mp (hic c hc)⟩,
        (text_of_parts? hp).symm⟩
    · cases h
  · rintro ⟨f, rfl⟩
    have hid : ∀ c ∈ f.id, isIdCharacter c = true := fun c hc =>
      isIdCharacter_iff.mpr (f.id_characters c hc)
    simp only [accepts, f.parts?_text, Bool.and_eq_true, List.all_eq_true, Bool.not_eq_true',
      List.isEmpty_eq_false_iff]
    exact ⟨⟨⟨f.method_ne_nil, f.method_alphanumeric⟩, f.id_ne_nil⟩, hid⟩

theorem exists_parse?_iff {s : String} : (∃ d, parse? s = some d) ↔ accepts s = true := by
  simp only [parse?_eq_some_iff]
  exact ⟨by rintro ⟨d, rfl⟩; exact d.accepted, fun h => ⟨⟨s, h⟩, rfl⟩⟩

end Did

namespace Digest

structure Form where
  algorithm : String
  body : List Char
  padding : Nat
  algorithm_mem : algorithm ∈ ["sha256", "sha384", "sha512"]
  body_ne_nil : body ≠ []
  body_characters : ∀ c ∈ body, isAlphanumeric c = true ∨ c = '+' ∨ c = '/'
  padding_le : padding ≤ 2

def Form.text (f : Form) : String :=
  String.ofList (f.algorithm.toList ++ '-' :: (f.body ++ List.replicate f.padding '='))

theorem dash_not_mem_algorithm : ∀ a ∈ algorithms, '-' ∉ a.toList := by decide

theorem isBodyCharacter_iff {c : Char} :
    isBodyCharacter c = true ↔ isAlphanumeric c = true ∨ c = '+' ∨ c = '/' := by
  simp [isBodyCharacter, or_assoc]

theorem padding_not_bodyCharacter : isBodyCharacter '=' = false := by decide

namespace Form

variable (f : Form)

theorem parts?_text : parts? f.text =
    some (f.algorithm.toList, f.body ++ List.replicate f.padding '=') := by
  simp only [parts?, text, String.toList_ofList]
  exact splitFirst_append _ (dash_not_mem_algorithm _ f.algorithm_mem)

theorem trimEnd_encoded : trimEnd '=' (f.body ++ List.replicate f.padding '=') = f.body :=
  trimEnd_append_of_not_mem (fun h => by
    have := isBodyCharacter_iff.mpr (f.body_characters _ h)
    simp [padding_not_bodyCharacter] at this) _

theorem text_injective {f g : Form} (h : f.text = g.text) : f = g := by
  have hp := f.parts?_text
  rw [h, g.parts?_text, Option.some.injEq, Prod.mk.injEq, String.toList_inj] at hp
  have hbody : g.body = f.body := by rw [← f.trimEnd_encoded, ← hp.2, g.trimEnd_encoded]
  have hpadding : g.padding = f.padding := by
    have := congrArg List.length hp.2
    simpa [hbody] using this
  cases f
  cases g
  cases hp.1
  cases hbody
  cases hpadding
  rfl

end Form

theorem accepts_iff {s : String} : accepts s = true ↔ ∃ f : Form, f.text = s := by
  constructor
  · intro h
    simp only [accepts] at h
    split at h
    · rename_i algorithm encoded hp
      obtain ⟨⟨⟨ha, hb⟩, hbc⟩, hle⟩ : ((String.ofList algorithm ∈ algorithms ∧
          trimEnd '=' encoded ≠ []) ∧ ∀ c ∈ trimEnd '=' encoded, isBodyCharacter c = true) ∧
          encoded.length - (trimEnd '=' encoded).length ≤ 2 := by
        simpa only [Bool.and_eq_true, List.all_eq_true, Bool.not_eq_true',
          List.isEmpty_eq_false_iff, decide_eq_true_eq, List.contains_iff_mem] using h
      obtain ⟨k, hk⟩ := trimEnd_append_replicate '=' encoded
      have hpadding : k ≤ 2 := by
        have := congrArg List.length hk
        simp only [List.length_append, List.length_replicate] at this
        omega
      refine ⟨⟨_, _, k, ha, hb, fun c hc => isBodyCharacter_iff.mp (hbc c hc), hpadding⟩, ?_⟩
      rw [Form.text, hk, String.toList_ofList, ← (splitFirst_eq_some_iff.mp hp).1,
        String.ofList_toList]
    · cases h
  · rintro ⟨f, rfl⟩
    have hbody : ∀ c ∈ f.body, isBodyCharacter c = true := fun c hc =>
      isBodyCharacter_iff.mpr (f.body_characters c hc)
    have halgorithm : algorithms.contains f.algorithm = true :=
      List.contains_iff_mem.mpr f.algorithm_mem
    simp only [accepts, f.parts?_text, f.trimEnd_encoded, String.ofList_toList,
      List.length_append, List.length_replicate, Nat.add_sub_cancel_left, Bool.and_eq_true,
      List.all_eq_true, Bool.not_eq_true', List.isEmpty_eq_false_iff, decide_eq_true_eq]
    exact ⟨⟨⟨halgorithm, f.body_ne_nil⟩, hbody⟩, f.padding_le⟩

theorem exists_parse?_iff {s : String} : (∃ d, parse? s = some d) ↔ accepts s = true := by
  simp only [parse?_eq_some_iff]
  exact ⟨by rintro ⟨d, rfl⟩; exact d.accepted, fun h => ⟨⟨s, h⟩, rfl⟩⟩

end Digest

theorem Address.reads_forms :
    ReadsForms (fun s => (parse s).toOption) Address.text humanPart Form.text
      (String.ofList ·.human) where
  accepts s := by
    rw [← fault?_eq_none_iff, ← exists_parse_iff]
    cases parse s <;> simp [Except.toOption]
  unique _ _ := Form.text_injective
  labelled a f h := by simp only [humanPart, h, f.splitLast_text]
  kept s a h := by
    cases hp : parse s with
    | error => simp [hp, Except.toOption] at h
    | ok b =>
      obtain rfl : b = a := by simpa [hp, Except.toOption] using h
      exact parse_eq_ok_iff.mp hp
  again a := by simp [parse_eq_ok_iff.mpr (rfl : a.text = a.text), Except.toOption]

theorem Did.reads_forms :
    ReadsForms parse? Did.text method Form.text (String.ofList ·.method) where
  accepts s := by rw [← accepts_iff, ← exists_parse?_iff]
  unique _ _ := Form.text_injective
  labelled d f h := by simp only [method, h, f.parts?_text]
  kept _ _ := parse?_eq_some_iff.mp
  again _ := parse?_eq_some_iff.mpr rfl

theorem Digest.reads_forms :
    ReadsForms parse? Digest.text algorithm Form.text (·.algorithm) where
  accepts s := by rw [← accepts_iff, ← exists_parse?_iff]
  unique _ _ := Form.text_injective
  labelled d f h := by simp only [algorithm, h, f.parts?_text, String.ofList_toList]
  kept _ _ := parse?_eq_some_iff.mp
  again _ := parse?_eq_some_iff.mpr rfl

/-- The readers of identifiers take the texts of their grammars and nothing else. The label is the
human-readable part of an address, the method of an identifier, the algorithm of a digest. -/
theorem identifiers_read_their_forms :
    ReadsForms (fun s => (Address.parse s).toOption) Address.text Address.humanPart
        Address.Form.text (String.ofList ·.human) ∧
      ReadsForms Did.parse? Did.text Did.method Did.Form.text (String.ofList ·.method) ∧
      ReadsForms Digest.parse? Digest.text Digest.algorithm Digest.Form.text (·.algorithm) :=
  ⟨Address.reads_forms, Did.reads_forms, Digest.reads_forms⟩

end TrustPermit
