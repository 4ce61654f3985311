import TrustPermit.Host
import TrustPermit.Instant.Strict
import TrustPermit.Params.Basic

/-! # Faults

Why the engine refuses a request or a query. A fault names its cause; the wording is in one
place, and so is the advice to the client: mend the request, read the state again, or fund the
account. A field that does not read carries the rejected text, so that a request can be diagnosed
from its message alone.
-/

namespace TrustPermit

open Text

inductive FieldError where
  | address (text : String) (fault : AddressFault)
  | did (text : String)
  | country (text : String)
  | digest (text : String)
  | rate (text : String) (fault : RateFault)
  | instant (fault : InstantFault)
  | missing (field : String)
  deriving DecidableEq

namespace FieldError

def message : FieldError → String
  | address text fault => "invalid account address " ++ quoted text ++ ": " ++ fault.reason
  | did text => "invalid DID " ++ quoted text
  | country text => "invalid country code " ++ quoted text ++ ": expected two uppercase letters"
  | digest text => "invalid digest SRI " ++ quoted text
  | rate text fault => "invalid rate " ++ quoted text ++ ": " ++ fault.reason
  | instant fault => "invalid timestamp: " ++ fault.reason
  | missing field => s!"missing mandatory field `{field}`"

end FieldError

namespace Field

def address (text : String) : Except FieldError Address :=
  (Address.parse text).mapError (.address text)

def did (text : String) : Except FieldError Did :=
  (Did.parse? text).elim (.error (.did text)) .ok

def country (text : String) : Except FieldError Country :=
  (Country.parse? text).elim (.error (.country text)) .ok

def digest (text : String) : Except FieldError Digest :=
  (Digest.parse? text).elim (.error (.digest text)) .ok

def rate (text : String) : Except FieldError Rate :=
  (Rate.parse text).mapError (.rate text)

def instant (text : String) : Except FieldError Instant :=
  (Instant.parse text).mapError .instant

def instantOfSeconds (seconds : Int) : Except FieldError Instant :=
  (Instant.ofSeconds seconds).mapError .instant

end Field

/-- Requests whose fields are sound but do not fit together. -/
inductive Inconsistency where
  | rootByValidation
  | discountAboveOne (kind : FeeKind) (rate : Rate)
  | notSelfCreatable (kind : PermissionKind)
  | windowOrder (start finish : Instant)
  | noParticipant
  | differentSchemas (issuer issuerSchema verifier verifierSchema : Nat)
  | windowOverflow (base : Instant)
  | holderDigest
  | startNotAhead (start : Instant)
  | finishNotAfterStart (finish : Instant)
  | pageSize (most size : Nat)
  | stated (reason : String)
  deriving DecidableEq

namespace Inconsistency

def reason : Inconsistency → String
  | rootByValidation => "ECOSYSTEM permissions are created with CreateRootPermission"
  | discountAboveOne kind rate =>
    kind.name ++ "_fee_discount must be between 0 and 1, got " ++ rate.toText
  | notSelfCreatable kind =>
    "self-created permissions must be ISSUER or VERIFIER, got " ++ kind.name
  | windowOrder start finish =>
    "effective_until " ++ finish.toText ++ " must be after effective_from " ++ start.toText
  | noParticipant => "at least one of issuer_perm_id or verifier_perm_id must be provided"
  | differentSchemas issuer issuerSchema verifier verifierSchema =>
    s!"issuer permission {issuer} (schema {issuerSchema}) and verifier permission {verifier} " ++
      s!"(schema {verifierSchema}) belong to different schemas"
  | windowOverflow base => "validity window from " ++ base.toText ++ " overflows"
  | holderDigest => "vp_summary_digest_sri must be empty for HOLDER permissions"
  | startNotAhead start => "effective_from " ++ start.toText ++ " must be in the future"
  | finishNotAfterStart finish =>
    "effective_until " ++ finish.toText ++ " must be after effective_from"
  | pageSize most size => s!"response_max_size must be between 1 and {most}, got {size}"
  | stated reason => reason

end Inconsistency

inductive Ineligibility where
  | inactive (reason : Inactivity)
  | restricted (country : Option Country)
  deriving DecidableEq

def Ineligibility.reason : Ineligibility → String
  | inactive reason => reason.reason
  | restricted country =>
    "validator is restricted to " ++ (country.map Country.text).getD ""

inductive KindConflict where
  | mustBe (expected : PermissionKind)
  | notRequestable
  deriving DecidableEq

def KindConflict.reason : KindConflict → String
  | mustBe expected => "validator must be " ++ expected.name
  | notRequestable => "this type cannot be requested through a validation process"

/-- Why a schema's mode of management rules a request out. -/
inductive ModeConflict where
  | noGrantors
  | selfCreated
  | needsValidation (kind : PermissionKind)
  deriving DecidableEq

def ModeConflict.reason : ModeConflict → String
  | noGrantors => "grantors exist only under GRANTOR_VALIDATION"
  | selfCreated => "self-create the permission with CreatePermission"
  | needsValidation kind => kind.name ++ " permissions must go through a validation process"

/-- The bound that an end of validity violates. -/
inductive FinishConflict where
  | notAfter (floor : Instant)
  | beyondWindow (windowEnd : Instant)
  deriving DecidableEq

def FinishConflict.reason : FinishConflict → String
  | notAfter floor => "must be after " ++ floor.toText
  | beyondWindow windowEnd => "must not exceed vp_exp " ++ windowEnd.toText

/-- What a caller may be refused for lack of authority. -/
inductive Deed where
  | renew
  | validate
  | cancel
  | extend
  | revoke
  | requestTermination
  | confirmTermination
  | createRoot
  | slash
  | updateSession
  | setParams
  deriving DecidableEq

def Deed.phrase : Deed → String
  | renew => "renew this permission"
  | validate => "validate this permission"
  | cancel => "cancel this request"
  | extend => "extend this permission"
  | revoke => "revoke this permission"
  | requestTermination => "request termination of this permission"
  | confirmTermination => "confirm termination of this permission"
  | createRoot => "create a root permission for this schema"
  | slash => "slash this permission"
  | updateSession => "update this permission session"
  | setParams => "update permission params"

inductive Quantity where
  | feesInDenom
  | depositShare
  | required
  | permissionDeposit
  | escrow
  | validatorShare
  | repaid
  | idCounter
  deriving DecidableEq

def Quantity.label : Quantity → String
  | feesInDenom => "fees_in_denom"
  | depositShare => "trust_deposit_amount"
  | required => "required_amount"
  | permissionDeposit => "permission deposit"
  | escrow => "validation escrow"
  | validatorShare => "vp_validator_deposit"
  | repaid => "repaid_deposit"
  | idCounter => "id counter"

inductive Fault where
  | field (error : FieldError)
  | inconsistent (cause : Inconsistency)
  | params (fault : ParamsFault)
  | permissionNotFound (id : PermissionId)
  | sessionNotFound (id : String)
  | validatorNotFound (id : PermissionId)
  | validatorNotEligible (id : PermissionId) (cause : Ineligibility)
  | wrongValidator (id : PermissionId) (kind requested : PermissionKind) (cause : KindConflict)
  | schemaNotFound (id : Nat)
  | registryNotFound (id : Nat)
  | modeMismatch (schemaId : Nat) (mode : ManagementMode) (cause : ModeConflict)
  | rootNotFound (schemaId : Nat)
  | wrongKind (id : PermissionId) (found expected : PermissionKind)
  | notActive (id : PermissionId) (cause : Inactivity)
  | invalidTransition (id : PermissionId) (source target : ValidationStage)
  | notValidated (id : PermissionId) (state : ValidationStage)
  | renewalFee (id : PermissionId) (kind : FeeKind) (current requested : Nat)
  | renewalCountry (id : PermissionId)
  | invalidFinish (id : PermissionId) (requested : Instant) (cause : FinishConflict)
  | extensionNotAfter (id : PermissionId) (current : Option Instant) (requested : Instant)
  | extensionBeyondWindow (id : PermissionId) (windowEnd requested : Instant)
  | alreadyRevoked (id : PermissionId)
  | endlessChain (start : PermissionId) (maxDepth : Nat)
  | unauthorized (caller : Address) (deed : Deed)
  | duplicateAuthorization (sessionId : String)
  | nothingToRepay (id : PermissionId)
  | insufficientFunds (account : Address) (required available : Nat)
  | slashExceedsDeposit (id : PermissionId) (amount available : Nat)
  | overflow (quantity : Quantity)
  | host (error : HostFault)
  deriving DecidableEq

/-- What a client should do: mend the request, read the state again, or fund the account. -/
inductive FaultCategory where
  | validation
  | state
  | economic
  deriving DecidableEq

def FaultCategory.name : FaultCategory → String
  | validation => "Validation"
  | state => "State"
  | economic => "Economic"

namespace Fault

def category : Fault → FaultCategory
  | field _ | inconsistent _ | params _ => .validation
  | insufficientFunds .. | slashExceedsDeposit .. | overflow _ | host _ => .economic
  | _ => .state

/-- An instant as messages show a value that may be missing. -/
def shown : Option Instant → String
  | some t => "Some(Timestamp(" ++ t.toFullText ++ "))"
  | none => "None"

def message : Fault → String
  | field error => error.message
  | inconsistent cause => "invalid request: " ++ cause.reason
  | params fault => fault.message
  | permissionNotFound id => s!"permission {id} not found"
  | sessionNotFound id => "permission session " ++ quoted id ++ " not found"
  | validatorNotFound id => s!"validator permission {id} not found"
  | validatorNotEligible id cause =>
    s!"validator permission {id} is not eligible: " ++ cause.reason
  | wrongValidator id kind requested cause =>
    kind.name ++ s!" permission {id} cannot validate a " ++ requested.name ++ " permission: " ++
      cause.reason
  | schemaNotFound id => s!"credential schema {id} not found"
  | registryNotFound id => s!"trust registry {id} not found"
  | modeMismatch schemaId mode cause =>
    s!"schema {schemaId} is in " ++ mode.name ++ " mode: " ++ cause.reason
  | rootNotFound schemaId => s!"no active ECOSYSTEM permission for schema {schemaId}"
  | wrongKind id found expected =>
    s!"permission {id} is " ++ found.name ++ ", expected " ++ expected.name
  | notActive id cause => s!"permission {id} is not active: " ++ cause.reason
  | invalidTransition id source target =>
    s!"permission {id}: invalid transition " ++ source.name ++ " -> " ++ target.name
  | notValidated id state => s!"permission {id} is " ++ state.name ++ ", expected VALIDATED"
  | renewalFee id kind current requested =>
    s!"permission {id}: " ++ kind.name ++
      s!"_fees cannot change on renewal ({current} -> {requested})"
  | renewalCountry id => s!"permission {id}: country cannot change on renewal"
  | invalidFinish id requested cause =>
    s!"permission {id}: invalid effective_until " ++ requested.toText ++ ": " ++ cause.reason
  | extensionNotAfter id current requested =>
    s!"permission {id}: extension to " ++ requested.toText ++
      " is not after current effective_until " ++ shown current
  | extensionBeyondWindow id windowEnd requested =>
    s!"permission {id}: extension to " ++ requested.toText ++
      " exceeds validation window ending " ++ windowEnd.toText
  | alreadyRevoked id => s!"permission {id} is already revoked"
  | endlessChain start maxDepth =>
    s!"validator chain from permission {start} exceeds {maxDepth} hops or loops back on itself"
  | unauthorized caller deed => caller.text ++ " is not authorized to " ++ deed.phrase
  | duplicateAuthorization sessionId =>
    "session " ++ quoted sessionId ++ " already holds this authorization"
  | nothingToRepay id => s!"permission {id} has no slashed deposit to repay"
  | insufficientFunds account required available =>
    "insufficient funds on " ++ account.text ++ s!": required {required}, available {available}"
  | slashExceedsDeposit id amount available =>
    s!"permission {id}: slash of {amount} exceeds unslashed deposit {available}"
  | overflow quantity => "amount overflow while computing " ++ quantity.label
  | host error => "host collaborator error: " ++ error.message

end Fault

end TrustPermit
