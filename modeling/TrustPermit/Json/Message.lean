import TrustPermit.Json.Basic
import TrustPermit.Message

/-! # Messages in JSON

A message is an object whose tag names the action, with the action's fields beside it. Of the
parameters any may be missing, but none null.
-/

namespace TrustPermit

namespace Params

def fieldNames : List String :=
  ["trust_deposit_rate", "bond_denom", "module_account", "max_validator_chain_depth",
   "default_response_max_size", "max_response_max_size"]

def toJson (p : Params) : Json :=
  .object <| fieldNames.zip
    [p.depositRate.toJson, .text p.bondDenom, .text p.moduleAccount, .ofNat p.maxChainDepth,
     .ofNat p.defaultPageSize, .ofNat p.maxPageSize]

/-- The fields given; an array may leave out the last ones. -/
def fields? : Json → Option Fields
  | .object fields => some fields
  | .array items =>
    if items.length ≤ fieldNames.length then some (fieldNames.zip items) else none
  | _ => none

/-- A field that may be missing but not null. -/
def given? {α : Type} (r : Fields) (name : String) (read : Json → Option α) (standard : α) :
    Option α :=
  match r.lookup name with
  | some j => read j
  | none => some standard

def ofJson? (j : Json) : Option Params := do
  let r ← fields? j
  return {
    depositRate := ← given? r "trust_deposit_rate" Rate.ofJson? standard.depositRate
    bondDenom := ← given? r "bond_denom" Json.text? standard.bondDenom
    moduleAccount := ← given? r "module_account" Json.text? standard.moduleAccount
    maxChainDepth := ← given? r "max_validator_chain_depth" Json.count? standard.maxChainDepth
    defaultPageSize := ←
      given? r "default_response_max_size" Json.count? standard.defaultPageSize
    maxPageSize := ← given? r "max_response_max_size" Json.count? standard.maxPageSize }

end Params

namespace Action

def applicationNames : List String := ["type", "validator_perm_id", "did", "country"]

def termsNames : List String :=
  ["id", "effective_until", "validation_fees", "issuance_fees", "verification_fees", "country",
   "issuance_fee_discount", "verification_fee_discount", "vp_summary_digest_sri"]

def rootGrantNames : List String :=
  ["schema_id", "did", "country", "effective_from", "effective_until", "validation_fees",
   "issuance_fees", "verification_fees"]

def selfGrantNames : List String :=
  ["schema_id", "type", "did", "country", "effective_from", "effective_until",
   "verification_fees"]

def exchangeNames : List String :=
  ["id", "issuer_perm_id", "verifier_perm_id", "agent_perm_id", "wallet_agent_perm_id"]

/-- The action's fields, without the signer. -/
def toFields : Action → Fields
  | start a => applicationNames.zip
      [a.kind.toJson, .ofNat a.validator, a.did.toJson, .ofOption Country.toJson a.country]
  | validate id t => termsNames.zip
      [.ofNat id, .ofOption Instant.toJson t.effectiveUntil, .ofNat t.fees.validation,
       .ofNat t.fees.issuance, .ofNat t.fees.verification, .ofOption Country.toJson t.country,
       t.issuanceDiscount.toJson, t.verificationDiscount.toJson,
       .ofOption Digest.toJson t.summaryDigest]
  | extend id finish => [("id", .ofNat id), ("effective_until", finish.toJson)]
  | createRoot g => rootGrantNames.zip
      [.ofNat g.schemaId, g.did.toJson, .ofOption Country.toJson g.country,
       .ofOption Instant.toJson g.effectiveFrom, .ofOption Instant.toJson g.effectiveUntil,
       .ofNat g.fees.validation, .ofNat g.fees.issuance, .ofNat g.fees.verification]
  | create g => selfGrantNames.zip
      [.ofNat g.schemaId, g.kind.toJson, g.did.toJson, .ofOption Country.toJson g.country,
       .ofOption Instant.toJson g.effectiveFrom, .ofOption Instant.toJson g.effectiveUntil,
       .ofNat g.verificationFee]
  | exchange x => exchangeNames.zip
      [.text x.sessionId, .ofNat x.issuer, .ofNat x.verifier, .ofNat x.agent,
       .ofNat x.walletAgent]
  | slash id amount => [("id", .ofNat id), ("amount", .ofNat amount)]
  | setParams params => [("params", params.toJson)]
  | renew id | revoke id | cancel id | requestTermination id | confirmTermination id
  | repay id => [("id", .ofNat id)]

/-- The field that holds the signer. -/
def signerField : Action → String
  | setParams _ => "authority"
  | _ => "creator"

def readId? (r : Fields) : Option Nat := r.read? "id" Json.amount?

def readKind? (r : Fields) : Option PermissionKind := do
  PermissionKind.ofName? (← r.read? "type" Json.taggedChoice?)

def readFees? (r : Fields) : Option Fees := do
  return {
    validation := ← r.read? "validation_fees" Json.amount?
    issuance := ← r.read? "issuance_fees" Json.amount?
    verification := ← r.read? "verification_fees" Json.amount? }

def readApplication? (r : Fields) : Option Application := do
  return {
    kind := ← readKind? r
    validator := ← r.read? "validator_perm_id" Json.amount?
    did := ← r.read? "did" Did.ofJson?
    country := ← r.optional? "country" Country.ofJson? }

def readTerms? (r : Fields) : Option Terms := do
  return {
    effectiveUntil := ← r.optional? "effective_until" Instant.ofJson?
    fees := ← readFees? r
    country := ← r.optional? "country" Country.ofJson?
    issuanceDiscount := ← r.read? "issuance_fee_discount" Rate.ofJson?
    verificationDiscount := ← r.read? "verification_fee_discount" Rate.ofJson?
    summaryDigest := ← r.optional? "vp_summary_digest_sri" Digest.ofJson? }

def readRootGrant? (r : Fields) : Option RootGrant := do
  return {
    schemaId := ← r.read? "schema_id" Json.amount?
    did := ← r.read? "did" Did.ofJson?
    country := ← r.optional? "country" Country.ofJson?
    effectiveFrom := ← r.optional? "effective_from" Instant.ofJson?
    effectiveUntil := ← r.optional? "effective_until" Instant.ofJson?
    fees := ← readFees? r }

def readSelfGrant? (r : Fields) : Option SelfGrant := do
  return {
    schemaId := ← r.read? "schema_id" Json.amount?
    kind := ← readKind? r
    did := ← r.read? "did" Did.ofJson?
    country := ← r.optional? "country" Country.ofJson?
    effectiveFrom := ← r.optional? "effective_from" Instant.ofJson?
    effectiveUntil := ← r.optional? "effective_until" Instant.ofJson?
    verificationFee := ← r.read? "verification_fees" Json.amount? }

def readExchange? (r : Fields) : Option Exchange := do
  return {
    sessionId := ← r.read? "id" Json.text?
    issuer := ← r.read? "issuer_perm_id" Json.amount?
    verifier := ← r.read? "verifier_perm_id" Json.amount?
    agent := ← r.read? "agent_perm_id" Json.amount?
    walletAgent := ← r.read? "wallet_agent_perm_id" Json.amount? }

/-- A form of message: the names of its fields, the signer's first, and the reader of the rest. -/
structure Form where
  fieldNames : List String
  read? : Fields → Option Action

def idForm (action : Nat → Action) : Form := ⟨["creator", "id"], fun r => (readId? r).map action⟩

/-- The form of messages under a tag. -/
def form? (tag : String) : Option Form :=
  match tag with
  | "start_permission_vp" =>
    some ⟨"creator" :: applicationNames, fun r => (readApplication? r).map start⟩
  | "renew_permission_vp" => some (idForm renew)
  | "set_permission_vp_to_validated" =>
    some ⟨"creator" :: termsNames, fun r => do return validate (← readId? r) (← readTerms? r)⟩
  | "extend_permission" =>
    some ⟨["creator", "id", "effective_until"], fun r => do
      return extend (← readId? r) (← r.read? "effective_until" Instant.ofJson?)⟩
  | "revoke_permission" => some (idForm revoke)
  | "cancel_permission_vp_last_request" => some (idForm cancel)
  | "request_permission_vp_termination" => some (idForm requestTermination)
  | "confirm_permission_vp_termination" => some (idForm confirmTermination)
  | "create_root_permission" =>
    some ⟨"creator" :: rootGrantNames, fun r => (readRootGrant? r).map createRoot⟩
  | "create_permission" =>
    some ⟨"creator" :: selfGrantNames, fun r => (readSelfGrant? r).map create⟩
  | "create_or_update_permission_session" =>
    some ⟨"creator" :: exchangeNames, fun r => (readExchange? r).map exchange⟩
  | "slash_permission_trust_deposit" =>
    some ⟨["creator", "id", "amount"], fun r => do
      return slash (← readId? r) (← r.read? "amount" Json.amount?)⟩
  | "repay_permission_slashed_trust_deposit" => some (idForm repay)
  | "update_params" =>
    some ⟨["authority", "params"], fun r => (r.read? "params" Params.ofJson?).map setParams⟩
  | _ => none

end Action

namespace Message

/-- The field that names the action. -/
def tagField : String := "@type"

def toJson (m : Message) : Json :=
  .object <| (tagField, .text m.action.name) :: (m.action.signerField, m.signer.toJson) ::
    m.action.toFields

/-- The tag and the content; in an array the tag is the first item. -/
def tagged? : Json → Option (String × Json)
  | .object fields => do return (← (fields.lookup tagField).bind Json.text?, .object fields)
  | .array (tag :: items) => do return (← tag.text?, .array items)
  | _ => none

def ofJson? (j : Json) : Option Message := do
  let (tag, content) ← tagged? j
  let form ← Action.form? tag
  let r ← content.record? form.fieldNames
  let action ← form.read? r
  return { signer := ← r.read? action.signerField Address.ofJson?, action := action }

end Message

end TrustPermit
