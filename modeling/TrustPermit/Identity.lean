import TrustPermit.Text

/-! # Identities

Account addresses, country codes, decentralised identifiers and integrity digests, each held as the
text that its reader accepts. Checksums belong to the ledger that keeps the accounts, and digests
point at evidence kept elsewhere.
-/

namespace TrustPermit

open Text

/-- The first rule that a text breaks as an address. -/
inductive AddressFault where
  | length
  | separator
  | humanPart
  | shortData
  | dataCharacter
  deriving DecidableEq

def AddressFault.reason : AddressFault → String
  | length => "length must be between 8 and 90"
  | separator => "missing '1' separator"
  | humanPart => "human-readable part must be lowercase letters"
  | shortData => "data part too short"
  | dataCharacter => "data part contains non-bech32 characters"

namespace Address

/-- The 32 characters of the data part. -/
def dataAlphabet : List Char :=
  ['q', 'p', 'z', 'r', 'y', '9', 'x', '8', 'g', 'f', '2', 't', 'v', 'd', 'w', '0',
   's', '3', 'j', 'n', '5', '4', 'k', 'h', 'c', 'e', '6', 'm', 'u', 'a', '7', 'l']

/-- Length in UTF-8 bytes, which is what the length limits count. -/
def byteLength (cs : List Char) : Nat := cs.foldr (fun c n => c.utf8Size + n) 0

/-- The first broken rule; the separator is the last `1`. -/
def fault? (text : String) : Option AddressFault :=
  let cs := text.toList
  if byteLength cs < 8 ∨ 90 < byteLength cs then some .length
  else
    match splitLast '1' cs with
    | none => some .separator
    | some (human, data) =>
      if human.isEmpty || !human.all isLower then some .humanPart
      else if byteLength data < 6 then some .shortData
      else if !data.all (dataAlphabet.contains ·) then some .dataCharacter
      else none

end Address

structure Address where
  text : String
  wellFormed : Address.fault? text = none
  deriving DecidableEq

namespace Address

def parse (text : String) : Except AddressFault Address :=
  match h : fault? text with
  | none => .ok ⟨text, h⟩
  | some fault => .error fault

def humanPart (a : Address) : String :=
  match splitLast '1' a.text.toList with
  | some (human, _) => String.ofList human
  | none => ""

instance : Ord Address := ⟨fun a b => compare a.text b.text⟩

@[ext] theorem ext {a b : Address} (h : a.text = b.text) : a = b := by
  cases a; cases b; cases h; rfl

theorem parse_eq_ok_iff {text : String} {a : Address} : parse text = .ok a ↔ a.text = text := by
  unfold parse
  split
  · constructor
    · rintro ⟨⟩; rfl
    · rintro rfl; rfl
  · rename_i fault h
    constructor
    · rintro ⟨⟩
    · rintro rfl
      simp [a.wellFormed] at h

theorem compare_eq (a b : Address) : compare a b = compare a.text b.text := rfl

instance : Std.TransOrd Address where
  eq_swap := by simp only [compare_eq]; exact Std.OrientedOrd.eq_swap
  isLE_trans := by simp only [compare_eq]; exact Std.TransCmp.isLE_trans

instance : Std.LawfulEqOrd Address where
  compare_self := by simp only [compare_eq]; exact Std.ReflCmp.compare_self
  eq_of_compare h := ext (Std.LawfulEqOrd.eq_of_compare h)

end Address

namespace Country

def accepts (text : String) : Bool :=
  match text.toList with
  | [a, b] => isUpper a && isUpper b
  | _ => false

end Country

/-- A country to which a permission is restricted. -/
structure Country where
  text : String
  accepted : Country.accepts text = true
  deriving DecidableEq

namespace Country

def parse? (text : String) : Option Country :=
  if h : accepts text = true then some ⟨text, h⟩ else none

theorem parse?_eq_some_iff {text : String} {c : Country} :
    parse? text = some c ↔ c.text = text := by
  unfold parse?
  split
  · exact ⟨by rintro ⟨⟩; rfl, by rintro rfl; rfl⟩
  · rename_i h
    exact ⟨nofun, by rintro rfl; exact absurd c.accepted h⟩

end Country

namespace Did

def isIdCharacter (c : Char) : Bool := isAlphanumeric c || c == '.' || c == '_' || c == '-'

/-- The method and the id, cut at the first colon after `did:`. -/
def parts? (text : String) : Option (List Char × List Char) :=
  match text.toList with
  | 'd' :: 'i' :: 'd' :: ':' :: rest => splitFirst ':' rest
  | _ => none

def accepts (text : String) : Bool :=
  match parts? text with
  | some (method, id) =>
    !method.isEmpty && method.all isAlphanumeric && !id.isEmpty && id.all isIdCharacter
  | none => false

end Did

/-- The subject of a permission. -/
structure Did where
  text : String
  accepted : Did.accepts text = true
  deriving DecidableEq

namespace Did

def parse? (text : String) : Option Did :=
  if h : accepts text = true then some ⟨text, h⟩ else none

def method (d : Did) : String :=
  match parts? d.text with
  | some (method, _) => String.ofList method
  | none => ""

theorem parse?_eq_some_iff {text : String} {d : Did} : parse? text = some d ↔ d.text = text := by
  unfold parse?
  split
  · exact ⟨by rintro ⟨⟩; rfl, by rintro rfl; rfl⟩
  · rename_i h
    exact ⟨nofun, by rintro rfl; exact absurd d.accepted h⟩

end Did

namespace Digest

def algorithms : List String := ["sha256", "sha384", "sha512"]

def isBodyCharacter (c : Char) : Bool := isAlphanumeric c || c == '+' || c == '/'

/-- The algorithm and the encoded hash, cut at the first dash. -/
def parts? (text : String) : Option (List Char × List Char) := splitFirst '-' text.toList

def accepts (text : String) : Bool :=
  match parts? text with
  | some (algorithm, encoded) =>
    let body := trimEnd '=' encoded
    algorithms.contains (String.ofList algorithm) && !body.isEmpty && body.all isBodyCharacter &&
      encoded.length - body.length ≤ 2
  | none => false

end Digest

/-- Evidence for a validation, by its digest. -/
structure Digest where
  text : String
  accepted : Digest.accepts text = true
  deriving DecidableEq

namespace Digest

def parse? (text : String) : Option Digest :=
  if h : accepts text = true then some ⟨text, h⟩ else none

def algorithm (d : Digest) : String :=
  match parts? d.text with
  | some (algorithm, _) => String.ofList algorithm
  | none => ""

theorem parse?_eq_some_iff {text : String} {d : Digest} :
    parse? text = some d ↔ d.text = text := by
  unfold parse?
  split
  · exact ⟨by rintro ⟨⟩; rfl, by rintro rfl; rfl⟩
  · rename_i h
    exact ⟨nofun, by rintro rfl; exact absurd d.accepted h⟩

end Digest

end TrustPermit
