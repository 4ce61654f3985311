import TrustPermit.Fault

/-! # Messages and events

A message is signed by one account and asks for one action. Ids in a message are plain numbers,
0 where none is given. Before any state is read, a message is checked by itself. Events report to
indexers and clients what a message did.
-/

namespace TrustPermit

structure Event where
  kind : String
  attributes : List (String × String) := []
  deriving DecidableEq

namespace Event

def attr (e : Event) (key value : String) : Event :=
  { e with attributes := e.attributes ++ [(key, value)] }

/-- The first value under a key. -/
def attribute? (e : Event) (key : String) : Option String := e.attributes.lookup key

end Event

/-- Asks a validator for a permission. -/
structure Application where
  kind : PermissionKind
  validator : Nat
  did : Did
  country : Option Country
  deriving DecidableEq

/-- What a validator grants to a pending request. -/
structure Terms where
  effectiveUntil : Option Instant
  fees : Fees
  country : Option Country
  issuanceDiscount : Rate
  verificationDiscount : Rate
  summaryDigest : Option Digest
  deriving DecidableEq

structure RootGrant where
  schemaId : Nat
  did : Did
  country : Option Country
  effectiveFrom : Option Instant
  effectiveUntil : Option Instant
  fees : Fees
  deriving DecidableEq

/-- A permission that an account gives itself under a schema without validation. -/
structure SelfGrant where
  schemaId : Nat
  kind : PermissionKind
  did : Did
  country : Option Country
  effectiveFrom : Option Instant
  effectiveUntil : Option Instant
  verificationFee : Nat
  deriving DecidableEq

/-- An exchange of credentials to record in a session. -/
structure Exchange where
  sessionId : String
  issuer : Nat
  verifier : Nat
  agent : Nat
  walletAgent : Nat
  deriving DecidableEq

inductive Action where
  | start (application : Application)
  | renew (id : Nat)
  | validate (id : Nat) (terms : Terms)
  | extend (id : Nat) (effectiveUntil : Instant)
  | revoke (id : Nat)
  | cancel (id : Nat)
  | requestTermination (id : Nat)
  | confirmTermination (id : Nat)
  | createRoot (grant : RootGrant)
  | create (grant : SelfGrant)
  | exchange (exchange : Exchange)
  | slash (id amount : Nat)
  | repay (id : Nat)
  | setParams (params : Params)
  deriving DecidableEq

/-- The name under which an action travels and is reported. -/
def Action.name : Action → String
  | start _ => "start_permission_vp"
  | renew _ => "renew_permission_vp"
  | validate .. => "set_permission_vp_to_validated"
  | extend .. => "extend_permission"
  | revoke _ => "revoke_permission"
  | cancel _ => "cancel_permission_vp_last_request"
  | requestTermination _ => "request_permission_vp_termination"
  | confirmTermination _ => "confirm_permission_vp_termination"
  | createRoot _ => "create_root_permission"
  | create _ => "create_permission"
  | exchange _ => "create_or_update_permission_session"
  | slash .. => "slash_permission_trust_deposit"
  | repay _ => "repay_permission_slashed_trust_deposit"
  | setParams _ => "update_params"

structure Message where
  signer : Address
  action : Action
  deriving DecidableEq

/-- What a successful message answers. -/
inductive Response where
  | permissionCreated (id : PermissionId)
  | sessionUpdated (id : String) (authorizations : Nat)
  | empty
  deriving DecidableEq

namespace Message

def requireGiven (field : String) (value : Nat) : Except Fault Unit :=
  demand (value ≠ 0) (.field (.missing field))

def requireFraction (kind : FeeKind) (rate : Rate) : Except Fault Unit :=
  demand (rate.isAtMostOne = true) (.inconsistent (.discountAboveOne kind rate))

def checkValidityOrder : Option Instant → Option Instant → Except Fault Unit
  | some start, some finish => demand (start < finish) (.inconsistent (.windowOrder start finish))
  | _, _ => .ok ()

def isBlankText (text : String) : Bool := text.toList.all Text.isBlank

def checkExchange (x : Exchange) : Except Fault Unit := do
  demand (isBlankText x.sessionId = false) (.field (.missing "id"))
  demand (x.issuer ≠ 0 ∨ x.verifier ≠ 0) (.inconsistent .noParticipant)
  requireGiven "agent_perm_id" x.agent

def check (m : Message) : Except Fault Unit :=
  match m.action with
  | .start application =>
    demand (application.kind ≠ .ecosystem) (.inconsistent .rootByValidation)
  | .validate id terms => do
    requireGiven "id" id
    requireFraction .issuance terms.issuanceDiscount
    requireFraction .verification terms.verificationDiscount
  | .createRoot grant => do
    requireGiven "schema_id" grant.schemaId
    checkValidityOrder grant.effectiveFrom grant.effectiveUntil
  | .create grant => do
    requireGiven "schema_id" grant.schemaId
    demand (grant.kind = .issuer ∨ grant.kind = .verifier)
      (.inconsistent (.notSelfCreatable grant.kind))
    checkValidityOrder grant.effectiveFrom grant.effectiveUntil
  | .exchange x => checkExchange x
  | .slash id amount => do
    requireGiven "id" id
    requireGiven "amount" amount
  | .setParams params => params.check.mapError .params
  | .renew id | .extend id _ | .revoke id | .cancel id | .requestTermination id
  | .confirmTermination id | .repay id => requireGiven "id" id

end Message

end TrustPermit
