import TrustPermit.Engine.Queries
import TrustPermit.Json.Permission

/-! # Queries and receipts in JSON -/

namespace TrustPermit

namespace Page

def fieldNames : List String := ["modified_after", "response_max_size"]

def ofJson? (j : Json) : Option Page := do
  let r ← j.record? fieldNames
  return {
    modifiedAfter := ← r.optional? "modified_after" Instant.ofJson?
    size := ← r.optional? "response_max_size" Json.count? }

end Page

namespace SubjectFilter

def fieldNames : List String := ["did", "type", "schema_id", "country", "when"]

def ofJson? (j : Json) : Option SubjectFilter := do
  let r ← j.record? fieldNames
  return {
    did := ← r.read? "did" Did.ofJson?
    kind := ← r.read? "type" PermissionKind.ofJson?
    schemaId := ← r.read? "schema_id" Json.amount?
    country := ← r.optional? "country" Country.ofJson?
    at? := ← r.optional? "when" Instant.ofJson? }

end SubjectFilter

namespace FeeShares

def fieldNames : List String := ["fees_in_denom", "trust_deposit", "direct"]

def toJson (s : FeeShares) : Json :=
  .object (fieldNames.zip [.ofNat s.fee, .ofNat s.share, .ofNat s.direct])

end FeeShares

namespace Payout

def fieldNames : List String := ["beneficiary", "grantee", "split", "anchor"]

def toJson (l : Payout) : Json :=
  .object <| fieldNames.zip
    [.ofNat l.beneficiary, l.grantee.toJson, l.split.toJson, .ofOption .text l.anchor]

end Payout

namespace Receipt

def fieldNames : List String := ["kind", "executor", "lines"]

def toJson (r : Receipt) : Json :=
  .object <| fieldNames.zip
    [r.kind.toJson, .ofOption .ofNat r.executor, .array (r.lines.map Payout.toJson)]

end Receipt

end TrustPermit
