import TrustPermit.Settlement
import TrustPermit.ValidatorChain

/-! # The engine

The world that messages change, the parameters in force, the account that may change them, and
the events reported so far. Handlers are transactions; one that fails keeps what it did, and
delivery undoes it. Who may act on a permission, and which validators can take an applicant, is
asked before anything changes.
-/

namespace TrustPermit

structure Engine extends World where
  params : Params
  /-- The account of governance. -/
  authority : Address
  events : List Event
  deriving DecidableEq

namespace Engine

/-- An engine without records; the parameters must be sound. -/
def new (host : Host) (params : Params) (authority : Address) : Except Fault Engine := do
  params.check.mapError .params
  return ⟨⟨.empty, host⟩, params, authority, []⟩

def withWorld (e : Engine) (w : World) : Engine := { e with toWorld := w }

def withRecords (e : Engine) (r : Records) : Engine := e.withWorld (e.toWorld.withRecords r)

def put (e : Engine) (p : Permission) : Engine := e.withRecords (e.records.insert p)

def report (e : Engine) (events : List Event) : Engine := { e with events := e.events ++ events }

def withParams (e : Engine) (params : Params) : Engine := { e with params := params }

/-- An amount of the bond denomination. -/
def bond (e : Engine) (amount : Nat) : Coin := ⟨e.params.bondDenom, amount⟩

def checkFunds (e : Engine) (account : Address) (required : Nat) : Except Fault Unit :=
  let available := e.host.spendable account e.params.bondDenom
  demand (required ≤ available) (.insufficientFunds account required available)

def terms (e : Engine) (kind : FeeKind) (payer : Payer) (executor : Option PermissionId) :
    SettlementTerms where
  kind := kind
  payer := payer
  executor := executor
  unitPrice := e.host.unitPrice
  depositRate := e.params.depositRate
  denom := e.params.bondDenom
  moduleAccount := e.params.moduleAccount

end Engine

abbrev Transaction (α : Type) := Effect Fault Engine α

namespace Transaction

def transfer {α : Type} (action : Transfer α) : Transaction α :=
  Effect.within Engine.toWorld Engine.withWorld id action

def onHost {α : Type} (action : HostAction α) : Transaction α := transfer (Transfer.onHost action)

def store (p : Permission) : Transaction Unit := .update (·.put p)

def emit (event : Event) : Transaction Unit := .update (·.report [event])

def allocate : Transaction PermissionId := do
  let id ← .ask (·.records.nextId Records.permissionCounter)
  .update fun e => e.withRecords (e.records.allocate Records.permissionCounter)
  return id

def collect (payer : Address) (amount : Nat) : Transaction Unit :=
  .unlessZero amount do
    let e ← get
    onHost (Host.sendToModule payer e.params.moduleAccount (e.bond amount))

def refund (payee : Address) (amount : Nat) : Transaction Unit :=
  .unlessZero amount do
    let e ← get
    onHost (Host.sendFromModule e.params.moduleAccount payee (e.bond amount))

def commit (account : Address) (amount : Nat) : Transaction Unit :=
  .unlessZero amount (onHost (Host.commit account amount))

def release (account : Address) (amount : Nat) : Transaction Unit :=
  .unlessZero amount (onHost (Host.release account amount))

end Transaction

/-- The start of every handler's event: its kind, then attributes in order. -/
def Action.event (a : Action) : Event := { kind := a.name }

namespace CredentialSchema

/-- Grantors exist only where a schema asks for them; the root validates them. -/
def grantorValidator (s : CredentialSchema) (mode : ManagementMode) :
    Except Fault PermissionKind := do
  demand (mode = .grantorValidation) (.modeMismatch s.id mode .noGrantors)
  return .ecosystem

/-- Issuers and verifiers are validated by their grantors or by the root. -/
def memberValidator (s : CredentialSchema) (mode : ManagementMode) (grantor : PermissionKind) :
    Except Fault PermissionKind :=
  match mode with
  | .selfCreation => .error (.modeMismatch s.id mode .selfCreated)
  | .grantorValidation => .ok grantor
  | .rootValidation => .ok .ecosystem

/-- The kind that validates an applicant of the given kind under a schema, if there is one. -/
def validatorKind (s : CredentialSchema) (validator : Permission) (requested : PermissionKind) :
    Except Fault PermissionKind :=
  match requested with
  | .issuerGrantor => s.grantorValidator s.issuerMode
  | .verifierGrantor => s.grantorValidator s.verifierMode
  | .issuer => s.memberValidator s.issuerMode .issuerGrantor
  | .verifier => s.memberValidator s.verifierMode .verifierGrantor
  | .holder => .ok .issuer
  | .ecosystem | .trustRegistry =>
    .error (.wrongValidator validator.id validator.kind requested .notRequestable)

def checkValidator (s : CredentialSchema) (validator : Permission) (requested : PermissionKind) :
    Except Fault Unit := do
  let expected ← s.validatorKind validator requested
  demand (validator.kind = expected)
    (.wrongValidator validator.id validator.kind requested (.mustBe expected))

end CredentialSchema

/-- The end of a window of some days; no days mean no end. -/
def validityWindow (base : Instant) (days : Nat) : Except Fault (Option Instant) :=
  if days = 0 then .ok none
  else (expect (base.addDays? days) (.inconsistent (.windowOverflow base))).map some

namespace Host

def schema (h : Host) (id : Nat) : Except Fault CredentialSchema :=
  expect (h.schemas.get? id) (.schemaNotFound id)

def controller (h : Host) (schemaId : Nat) : Except Fault Address := do
  let schema ← h.schema schemaId
  let registry ← expect (h.registries.get? schema.registryId)
    (.registryNotFound schema.registryId)
  return registry.controller

end Host

/-- Checks that a permission can validate an applicant of the given country now. -/
def Permission.checkEligible (p : Permission) (id : PermissionId) (country : Option Country)
    (now : Instant) : Except Fault Unit :=
  match p.inactivity? now with
  | some cause => .error (.validatorNotEligible id (.inactive cause))
  | none => demand (p.serves country) (.validatorNotEligible id (.restricted p.country))

def Records.validatorFor (r : Records) (id : PermissionId) (country : Option Country)
    (now : Instant) : Except Fault Permission := do
  let validator ← expect (r.get? id) (.validatorNotFound id)
  validator.checkEligible id country now
  return validator

def authorize (caller expected : Address) (deed : Deed) : Except Fault Unit :=
  demand (caller = expected) (.unauthorized caller deed)

namespace Permission

def checkValidated (p : Permission) : Except Fault Unit :=
  demand (p.state = .validated) (.notValidated p.id p.state)

def checkTransition (p : Permission) (source target : ValidationStage) : Except Fault Unit :=
  demand (p.state = source) (.invalidTransition p.id p.state target)

def checkUnrevoked (p : Permission) : Except Fault Unit :=
  demand (p.revoked = none) (.alreadyRevoked p.id)

end Permission

namespace World

/-- The account that acts as the validator of a permission: the grantee of its validator, or the
controller of the registry for a root. -/
def authorityOver (w : World) (p : Permission) : Except Fault Address :=
  match p.validator with
  | some id => (expect (w.records.get? id) (.validatorNotFound id)).map (·.grantee)
  | none => w.host.controller p.schemaId

/-- A permission loaded for a deed of its validator's authority. -/
def loadAsValidator (w : World) (id : PermissionId) (caller : Address) (deed : Deed) :
    Except Fault Permission := do
  let p ← w.records.require id
  let authority ← w.authorityOver p
  authorize caller authority deed
  return p

def loadAsGrantee (w : World) (id : PermissionId) (caller : Address) (deed : Deed) :
    Except Fault Permission := do
  let p ← w.records.require id
  authorize caller p.grantee deed
  return p

end World

end TrustPermit
