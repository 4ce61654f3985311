import TrustPermit.Engine.Basic

/-! # Lifecycle

Creation outside of the validation process, extension, revocation, termination and slashing. A
terminated permission gives its deposits back, its own and the one its validator earned by it. A
controller, or an active permission above, burns part of a permission's deposit; anyone may repay
it.
-/

namespace TrustPermit

/-- The start of an event about a permission, caused by an account. -/
def Action.permissionEvent (a : Action) (id : PermissionId) (actor : Address) : Event :=
  a.event
    |>.attr "permission_id" (toString id)
    |>.attr "creator" actor.text

namespace Permission

/-- An extension moves the end of validity forward. -/
def checkForward (p : Permission) (finish : Instant) : Except Fault Unit :=
  demand (p.effectiveUntil.any (· < finish) = true)
    (.extensionNotAfter p.id p.effectiveUntil finish)

def checkCeiling (p : Permission) (finish : Instant) : Except Fault Unit :=
  match p.windowEnd with
  | some windowEnd =>
    demand (finish ≤ windowEnd) (.extensionBeyondWindow p.id windowEnd finish)
  | none => .ok ()

end Permission

def World.admitExtension (w : World) (signer : Address) (id : PermissionId) (finish : Instant) :
    Except Fault Permission := do
  let p ← w.loadAsValidator id signer .extend
  p.checkValidated
  p.checkUnrevoked
  p.checkForward finish
  p.checkCeiling finish
  return p

def Transaction.extend (signer : Address) (id : PermissionId) (finish : Instant)
    (now : Instant) : Transaction Response := do
  let p ← .ask (·.admitExtension signer id finish)
  store (p.extendedTo finish signer now)
  emit <| (Action.extend id finish).permissionEvent id signer
    |>.attr "effective_until" finish.toText
  return .empty

def World.admitRevocation (w : World) (signer : Address) (id : PermissionId) :
    Except Fault Permission := do
  let p ← w.loadAsValidator id signer .revoke
  p.checkValidated
  p.checkUnrevoked
  return p

def Transaction.revoke (signer : Address) (id : PermissionId) (now : Instant) :
    Transaction Response := do
  let p ← .ask (·.admitRevocation signer id)
  store (p.withdrawn signer now)
  emit <| (Action.revoke id).permissionEvent id signer
    |>.attr "timestamp" now.toText
  return .empty

def World.admitDeparture (w : World) (signer : Address) (id : PermissionId) :
    Except Fault Permission := do
  let p ← w.loadAsGrantee id signer .requestTermination
  p.checkValidated
  return p

def Transaction.requestTermination (signer : Address) (id : PermissionId) (now : Instant) :
    Transaction Response := do
  let p ← .ask (·.admitDeparture signer id)
  store (p.leaving now)
  emit <| (Action.requestTermination id).permissionEvent id signer
    |>.attr "timestamp" now.toText
  return .empty

def World.admitTermination (w : World) (signer : Address) (id : PermissionId) :
    Except Fault Permission := do
  let p ← w.loadAsValidator id signer .confirmTermination
  p.checkTransition .terminationRequested .terminated
  return p

namespace Transaction

/-- Releases what a validator earned by a permission, out of the validator's deposit. The
authority is the validator's grantee. -/
def releaseShare (p : Permission) (authority : Address) : Transaction Unit :=
  match p.validator with
  | some validatorId =>
    .unlessZero p.validatorShare do
      onHost (Host.release authority p.validatorShare)
      .update fun e =>
        e.withRecords (e.records.modify validatorId (·.lowerDeposit p.validatorShare))
  | none => pure ()

/-- Ends a permission. Its deposit goes back to its grantee, so the permissions that it validated
no longer hold a share of it, and its validator's share goes back to the validator. -/
def confirmTermination (signer : Address) (id : PermissionId) (now : Instant) :
    Transaction Response := do
  let p ← .ask (·.admitTermination signer id)
  release p.grantee p.unslashed
  .update fun e => e.withRecords (e.records.clearShares p.id)
  releaseShare p signer
  store (p.closed signer now)
  emit <| (Action.confirmTermination id).permissionEvent id signer
    |>.attr "deposit" (toString p.unslashed)
  return .empty

end Transaction

def checkStartAhead (now : Instant) : Option Instant → Except Fault Unit
  | some start => demand (now < start) (.inconsistent (.startNotAhead start))
  | none => .ok ()

def checkFinishAfter (start : Instant) : Option Instant → Except Fault Unit
  | some finish => demand (start < finish) (.inconsistent (.finishNotAfterStart finish))
  | none => .ok ()

/-- A start given must lie ahead; an end given must lie after the start, or after now. -/
def checkUpcoming (start finish : Option Instant) (now : Instant) : Except Fault Unit := do
  checkStartAhead now start
  checkFinishAfter (start.getD now) finish

def World.admitRoot (w : World) (signer : Address) (g : RootGrant) (now : Instant) :
    Except Fault Unit := do
  let controller ← w.host.controller g.schemaId
  authorize signer controller .createRoot
  checkUpcoming g.effectiveFrom g.effectiveUntil now

def Transaction.createRoot (signer : Address) (g : RootGrant) (now : Instant) :
    Transaction Response := do
  .ask (·.admitRoot signer g now)
  let id ← allocate
  store (.root id signer g now)
  emit <| (Action.createRoot g).event
    |>.attr "permission_id" (toString id)
    |>.attr "schema_id" (toString g.schemaId)
    |>.attr "creator" signer.text
  return .permissionCreated id

def CredentialSchema.modeOf (s : CredentialSchema) (kind : PermissionKind) : ManagementMode :=
  if kind = .issuer then s.issuerMode else s.verifierMode

/-- The root under which an account may give itself a permission. -/
def World.admitSelfGrant (w : World) (g : SelfGrant) (now : Instant) :
    Except Fault Permission := do
  let schema ← w.host.schema g.schemaId
  demand (schema.modeOf g.kind = .selfCreation)
    (.modeMismatch schema.id (schema.modeOf g.kind) (.needsValidation g.kind))
  checkUpcoming g.effectiveFrom g.effectiveUntil now
  expect (w.records.root? g.schemaId) (.rootNotFound g.schemaId)

def Transaction.create (signer : Address) (g : SelfGrant) (now : Instant) :
    Transaction Response := do
  let root ← .ask (·.admitSelfGrant g now)
  let id ← allocate
  store (.selfGranted id signer g root.id now)
  emit <| (Action.create g).event
    |>.attr "permission_id" (toString id)
    |>.attr "schema_id" (toString g.schemaId)
    |>.attr "type" g.kind.name
    |>.attr "creator" signer.text
  return .permissionCreated id

namespace Engine

def above (e : Engine) (p : Permission) : Except Fault (List Permission) :=
  e.records.chainOption p.validator e.params.maxChainDepth

/-- Checks that an account controls the registry of the permission's schema, or holds an active
permission above it. -/
def checkSlasher (e : Engine) (caller : Address) (p : Permission) (now : Instant) :
    Except Fault Unit := do
  let controller ← e.host.controller p.schemaId
  if controller = caller then .ok ()
  else
    let above ← e.above p
    demand (∃ a ∈ above, a.grantee = caller ∧ a.canActAt now = true)
      (.unauthorized caller .slash)

/-- A permission of whose deposit the signer may burn an amount. -/
def admitSlash (e : Engine) (signer : Address) (id : PermissionId) (amount : Nat)
    (now : Instant) : Except Fault Permission := do
  let p ← e.records.require id
  e.checkSlasher signer p now
  demand (amount ≤ p.unslashed) (.slashExceedsDeposit p.id amount p.unslashed)
  return p

/-- A slashed permission that the signer has the means to repay. -/
def admitRepayment (e : Engine) (signer : Address) (id : PermissionId) :
    Except Fault Permission := do
  let p ← e.records.require id
  demand (p.slashedDeposit ≠ 0) (.nothingToRepay p.id)
  e.checkFunds signer p.slashedDeposit
  return p

end Engine

def depositEvent (a : Action) (id : PermissionId) (amount : Nat) (actor : Address)
    (now : Instant) : Event :=
  a.event
    |>.attr "permission_id" (toString id)
    |>.attr "amount" (toString amount)
    |>.attr "creator" actor.text
    |>.attr "timestamp" now.toText

namespace Transaction

def slash (signer : Address) (id : PermissionId) (amount : Nat) (now : Instant) :
    Transaction Response := do
  let p ← .ask (·.admitSlash signer id amount now)
  onHost (Host.burnDeposit p.grantee amount)
  store (p.slashedFor amount signer now)
  emit (depositEvent (.slash id amount) id amount signer now)
  return .empty

def repay (signer : Address) (id : PermissionId) (now : Instant) : Transaction Response := do
  let p ← .ask (·.admitRepayment signer id)
  let e ← get
  onHost (Host.sendToModule signer Host.depositModule (e.bond p.slashedDeposit))
  onHost (Host.commit p.grantee p.slashedDeposit)
  .ask fun _ => demand (p.repaidDeposit + p.slashedDeposit < amountBound) (.overflow .repaid)
  store (p.repaidInFull signer now)
  emit (depositEvent (.repay id) id p.slashedDeposit signer now)
  return .empty

end Transaction

end TrustPermit
