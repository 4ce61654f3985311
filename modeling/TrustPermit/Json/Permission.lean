import TrustPermit.Json.Basic
import TrustPermit.Records

/-! # Permissions and sessions in JSON

Records are written with all their fields, null where there is no value.
-/

namespace TrustPermit

namespace Permission

def fieldNames : List String :=
  ["id", "schema_id", "type", "did", "grantee", "country", "validator_perm_id", "created",
   "created_by", "modified", "effective_from", "effective_until", "validation_fees",
   "issuance_fees", "verification_fees", "issuance_fee_discount", "verification_fee_discount",
   "deposit", "slashed_deposit", "repaid_deposit", "revoked", "revoked_by", "terminated",
   "terminated_by", "extended", "extended_by", "slashed", "slashed_by", "repaid", "repaid_by",
   "vp_state", "vp_last_state_change", "vp_exp", "vp_term_requested", "vp_current_fees",
   "vp_current_deposit", "vp_summary_digest_sri", "vp_validator_deposit"]

/-- The values of the fields, in the order of their names. -/
def fieldValues (p : Permission) : List Json :=
  [.ofNat p.id, .ofNat p.schemaId, p.kind.toJson, p.did.toJson, p.grantee.toJson,
   .ofOption Country.toJson p.country, .ofOption .ofNat p.validator, p.created.toJson,
   p.createdBy.toJson, p.modified.toJson, .ofOption Instant.toJson p.effectiveFrom,
   .ofOption Instant.toJson p.effectiveUntil, .ofNat p.fees.validation, .ofNat p.fees.issuance,
   .ofNat p.fees.verification, p.issuanceDiscount.toJson, p.verificationDiscount.toJson,
   .ofNat p.deposit, .ofNat p.slashedDeposit, .ofNat p.repaidDeposit,
   .ofOption Instant.toJson p.revoked, .ofOption Address.toJson p.revokedBy,
   .ofOption Instant.toJson p.terminated, .ofOption Address.toJson p.terminatedBy,
   .ofOption Instant.toJson p.extended, .ofOption Address.toJson p.extendedBy,
   .ofOption Instant.toJson p.slashed, .ofOption Address.toJson p.slashedBy,
   .ofOption Instant.toJson p.repaid, .ofOption Address.toJson p.repaidBy, p.state.toJson,
   p.lastStateChange.toJson, .ofOption Instant.toJson p.windowEnd,
   .ofOption Instant.toJson p.terminationRequested, .ofNat p.escrowedFees,
   .ofNat p.escrowedDeposit, .ofOption Digest.toJson p.summaryDigest, .ofNat p.validatorShare]

def toJson (p : Permission) : Json := .object (fieldNames.zip p.fieldValues)

def ofFields? (r : Fields) : Option Permission := do
  return {
    id := ← r.read? "id" Json.amount?
    schemaId := ← r.read? "schema_id" Json.amount?
    kind := ← r.read? "type" PermissionKind.ofJson?
    did := ← r.read? "did" Did.ofJson?
    grantee := ← r.read? "grantee" Address.ofJson?
    country := ← r.optional? "country" Country.ofJson?
    validator := ← r.optional? "validator_perm_id" Json.amount?
    created := ← r.read? "created" Instant.ofJson?
    createdBy := ← r.read? "created_by" Address.ofJson?
    modified := ← r.read? "modified" Instant.ofJson?
    effectiveFrom := ← r.optional? "effective_from" Instant.ofJson?
    effectiveUntil := ← r.optional? "effective_until" Instant.ofJson?
    fees := {
      validation := ← r.read? "validation_fees" Json.amount?
      issuance := ← r.read? "issuance_fees" Json.amount?
      verification := ← r.read? "verification_fees" Json.amount? }
    issuanceDiscount := ← r.read? "issuance_fee_discount" Rate.ofJson?
    verificationDiscount := ← r.read? "verification_fee_discount" Rate.ofJson?
    deposit := ← r.read? "deposit" Json.amount?
    slashedDeposit := ← r.read? "slashed_deposit" Json.amount?
    repaidDeposit := ← r.read? "repaid_deposit" Json.amount?
    revoked := ← r.optional? "revoked" Instant.ofJson?
    revokedBy := ← r.optional? "revoked_by" Address.ofJson?
    terminated := ← r.optional? "terminated" Instant.ofJson?
    terminatedBy := ← r.optional? "terminated_by" Address.ofJson?
    extended := ← r.optional? "extended" Instant.ofJson?
    extendedBy := ← r.optional? "extended_by" Address.ofJson?
    slashed := ← r.optional? "slashed" Instant.ofJson?
    slashedBy := ← r.optional? "slashed_by" Address.ofJson?
    repaid := ← r.optional? "repaid" Instant.ofJson?
    repaidBy := ← r.optional? "repaid_by" Address.ofJson?
    state := ← r.read? "vp_state" ValidationStage.ofJson?
    lastStateChange := ← r.read? "vp_last_state_change" Instant.ofJson?
    windowEnd := ← r.optional? "vp_exp" Instant.ofJson?
    terminationRequested := ← r.optional? "vp_term_requested" Instant.ofJson?
    escrowedFees := ← r.read? "vp_current_fees" Json.amount?
    escrowedDeposit := ← r.read? "vp_current_deposit" Json.amount?
    summaryDigest := ← r.optional? "vp_summary_digest_sri" Digest.ofJson?
    validatorShare := ← r.read? "vp_validator_deposit" Json.amount? }

def ofJson? (j : Json) : Option Permission := do ofFields? (← j.record? fieldNames)

end Permission

namespace Authorization

def fieldNames : List String :=
  ["executor_perm_id", "beneficiary_perm_id", "wallet_agent_perm_id"]

def toJson (a : Authorization) : Json :=
  .object <| fieldNames.zip
    [.ofOption .ofNat a.executor, .ofOption .ofNat a.beneficiary, .ofOption .ofNat a.walletAgent]

def ofJson? (j : Json) : Option Authorization := do
  let r ← j.record? fieldNames
  return {
    executor := ← r.optional? "executor_perm_id" Json.amount?
    beneficiary := ← r.optional? "beneficiary_perm_id" Json.amount?
    walletAgent := ← r.optional? "wallet_agent_perm_id" Json.amount? }

end Authorization

namespace Session

def fieldNames : List String :=
  ["id", "controller", "agent_perm_id", "created", "modified", "authz"]

def toJson (s : Session) : Json :=
  .object <| fieldNames.zip
    [.text s.id, s.controller.toJson, .ofNat s.agent, s.created.toJson, s.modified.toJson,
     .array (s.authorizations.map Authorization.toJson)]

def ofJson? (j : Json) : Option Session := do
  let r ← j.record? fieldNames
  return {
    id := ← r.read? "id" Json.text?
    controller := ← r.read? "controller" Address.ofJson?
    agent := ← r.read? "agent_perm_id" Json.amount?
    created := ← r.read? "created" Instant.ofJson?
    modified := ← r.read? "modified" Instant.ofJson?
    authorizations := ← r.read? "authz" (Json.list? Authorization.ofJson?) }

end Session

end TrustPermit
