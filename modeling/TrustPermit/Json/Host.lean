import TrustPermit.Host
import TrustPermit.Json.Basic

/-! # The host's records in JSON -/

namespace TrustPermit

namespace Coin

def fieldNames : List String := ["denom", "amount"]

def toJson (c : Coin) : Json := .object (fieldNames.zip [.text c.denom, .ofNat c.amount])

def ofJson? (j : Json) : Option Coin := do
  let r ← j.record? fieldNames
  return { denom := ← r.read? "denom" Json.text?, amount := ← r.read? "amount" Json.amount? }

end Coin

namespace CredentialSchema

def fieldNames : List String :=
  ["id", "tr_id", "issuer_perm_management_mode", "verifier_perm_management_mode",
   "issuer_grantor_validation_validity_period", "verifier_grantor_validation_validity_period",
   "issuer_validation_validity_period", "verifier_validation_validity_period",
   "holder_validation_validity_period"]

def toJson (s : CredentialSchema) : Json :=
  .object <| fieldNames.zip
    [.ofNat s.id, .ofNat s.registryId, s.issuerMode.toJson, s.verifierMode.toJson,
     .ofNat s.periods.issuerGrantor, .ofNat s.periods.verifierGrantor, .ofNat s.periods.issuer,
     .ofNat s.periods.verifier, .ofNat s.periods.holder]

def ofJson? (j : Json) : Option CredentialSchema := do
  let r ← j.record? fieldNames
  return {
    id := ← r.read? "id" Json.amount?
    registryId := ← r.read? "tr_id" Json.amount?
    issuerMode := ← r.read? "issuer_perm_management_mode" ManagementMode.ofJson?
    verifierMode := ← r.read? "verifier_perm_management_mode" ManagementMode.ofJson?
    periods := {
      issuerGrantor := ← r.read? "issuer_grantor_validation_validity_period" Json.count?
      verifierGrantor := ← r.read? "verifier_grantor_validation_validity_period" Json.count?
      issuer := ← r.read? "issuer_validation_validity_period" Json.count?
      verifier := ← r.read? "verifier_validation_validity_period" Json.count?
      holder := ← r.read? "holder_validation_validity_period" Json.count? } }

end CredentialSchema

namespace TrustRegistry

def fieldNames : List String := ["id", "controller"]

def toJson (t : TrustRegistry) : Json :=
  .object (fieldNames.zip [.ofNat t.id, t.controller.toJson])

def ofJson? (j : Json) : Option TrustRegistry := do
  let r ← j.record? fieldNames
  return {
    id := ← r.read? "id" Json.amount?
    controller := ← r.read? "controller" Address.ofJson? }

end TrustRegistry

end TrustPermit
