import TrustPermit.Json.Basic
import TrustPermit.Message

/-! # Responses and events in JSON -/

namespace TrustPermit

namespace Response

def sessionNames : List String := ["id", "authz_count"]

def toJson : Response → Json
  | permissionCreated id => .object [("PermissionCreated", .ofNat id)]
  | sessionUpdated id authorizations =>
    .object [("SessionUpdated", .object (sessionNames.zip [.text id, .ofNat authorizations]))]
  | empty => .text "Empty"

def ofJson? : Json → Option Response
  | .text "Empty" => some empty
  | .object [("Empty", .null)] => some empty
  | .object [("PermissionCreated", j)] => j.amount?.map permissionCreated
  | .object [("SessionUpdated", .object r)] => do
    return sessionUpdated (← Fields.read? r "id" Json.text?)
      (← Fields.read? r "authz_count" Json.amount?)
  | _ => none

end Response

namespace Event

def fieldNames : List String := ["kind", "attributes"]

def pairToJson (a : String × String) : Json := .array [.text a.1, .text a.2]

def pairOfJson? : Json → Option (String × String)
  | .array [.text key, .text value] => some (key, value)
  | _ => none

def toJson (e : Event) : Json :=
  .object (fieldNames.zip [.text e.kind, .array (e.attributes.map pairToJson)])

def ofJson? (j : Json) : Option Event := do
  let r ← j.record? fieldNames
  return {
    kind := ← r.read? "kind" Json.text?
    attributes := ← r.read? "attributes" (Json.list? pairOfJson?) }

end Event

end TrustPermit
