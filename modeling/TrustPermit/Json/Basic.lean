import TrustPermit.Instant.Relaxed
import TrustPermit.Permission.Basic

/-! # JSON values

The values that records are written to and read from. A record is an object; it is also read from
the array of its fields in order. An absent field counts as null. Identities, rates, instants and
kinds are texts that their readers accept.
-/

namespace TrustPermit

inductive Json where
  | null
  | bool (value : Bool)
  | int (value : Int)
  /-- A number that is not whole. No record holds one, so its value is not kept. -/
  | fraction
  | text (value : String)
  | array (items : List Json)
  | object (fields : List (String × Json))
  deriving Inhabited

/-- The fields of a record that is being read. -/
abbrev Fields := List (String × Json)

namespace Json

def below? (bound : Nat) : Json → Option Nat
  | .int n => if 0 ≤ n ∧ n < bound then some n.toNat else none
  | _ => none

/-- A whole number from `-bound` to `bound - 1`. -/
def signed? (bound : Nat) : Json → Option Int
  | .int n => if -(bound : Int) ≤ n ∧ n < bound then some n else none
  | _ => none

def amount? (j : Json) : Option Nat := j.below? amountBound

def count? (j : Json) : Option Nat := j.below? countBound

def text? : Json → Option String
  | .text s => some s
  | _ => none

def items? : Json → Option (List Json)
  | .array items => some items
  | _ => none

/-- A value, or nothing for null. -/
def optional? {α : Type} (read : Json → Option α) : Json → Option (Option α)
  | .null => some none
  | j => (read j).map some

def list? {α : Type} (read : Json → Option α) (j : Json) : Option (List α) := do
  (← j.items?).mapM read

/-- The name of a choice without content: a text, or an object with the name over null. -/
def choice? : Json → Option String
  | .text s => some s
  | .object [(s, .null)] => some s
  | _ => none

/-- A choice inside a tagged record, where the name may also stand over an empty object. -/
def taggedChoice? : Json → Option String
  | .object [(s, .object [])] => some s
  | j => j.choice?

/-- The fields of a record with the given names. -/
def record? (names : List String) : Json → Option Fields
  | .object fields => some fields
  | .array items => if items.length = names.length then some (names.zip items) else none
  | _ => none

def ofNat (n : Nat) : Json := .int n

def ofOption {α : Type} (write : α → Json) : Option α → Json
  | some a => write a
  | none => .null

end Json

namespace Fields

def get (r : Fields) (name : String) : Json := (r.lookup name).getD .null

def read? {α : Type} (r : Fields) (name : String) (read : Json → Option α) : Option α :=
  read (r.get name)

def optional? {α : Type} (r : Fields) (name : String) (read : Json → Option α) :
    Option (Option α) :=
  (r.get name).optional? read

end Fields

namespace Address

def ofJson? (j : Json) : Option Address := do (parse (← j.text?)).toOption

def toJson (a : Address) : Json := .text a.text

end Address

namespace Did

def ofJson? (j : Json) : Option Did := do parse? (← j.text?)

def toJson (d : Did) : Json := .text d.text

end Did

namespace Country

def ofJson? (j : Json) : Option Country := do parse? (← j.text?)

def toJson (c : Country) : Json := .text c.text

end Country

namespace Digest

def ofJson? (j : Json) : Option Digest := do parse? (← j.text?)

def toJson (d : Digest) : Json := .text d.text

end Digest

namespace Rate

def ofJson? (j : Json) : Option Rate := do (parse (← j.text?)).toOption

def toJson (r : Rate) : Json := .text r.toText

end Rate

namespace Instant

def ofJson? (j : Json) : Option Instant := do parseRelaxed? (← j.text?)

def toJson (t : Instant) : Json := .text t.toFullText

end Instant

namespace PermissionKind

def ofJson? (j : Json) : Option PermissionKind := do ofName? (← j.choice?)

def toJson (k : PermissionKind) : Json := .text k.name

end PermissionKind

namespace ValidationStage

def ofJson? (j : Json) : Option ValidationStage := do ofName? (← j.choice?)

def toJson (s : ValidationStage) : Json := .text s.name

end ValidationStage

namespace ManagementMode

def ofJson? (j : Json) : Option ManagementMode := do ofName? (← j.choice?)

def toJson (m : ManagementMode) : Json := .text m.name

end ManagementMode

namespace FeeKind

def ofJson? (j : Json) : Option FeeKind := do ofName? (← j.choice?)

def toJson (k : FeeKind) : Json := .text k.name

end FeeKind

end TrustPermit
