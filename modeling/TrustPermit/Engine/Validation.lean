import TrustPermit.Engine.Basic

/-! # The validation process

An applicant escrows the validator's fee and commits a trust deposit with a request. The
validator's answer pays the fee out; a cancelled request gives both back. Each handler first
admits its message without an effect.
-/

namespace TrustPermit

/-- What a request costs: the validator's fee and the trust deposit that goes with it. -/
structure Escrow where
  fee : Nat
  deposit : Nat
  deriving DecidableEq

namespace Escrow

def total (c : Escrow) : Nat := c.fee + c.deposit

end Escrow

/-- A text for an attribute that may have no value. -/
def optionText {α : Type} (toText : α → String) (a : Option α) : String := (a.map toText).getD ""

namespace Engine

def quote (e : Engine) (validator : Permission) : Except Fault Escrow := do
  let fee ← feeInDenom validator.fees.validation e.host.unitPrice
  let split ← FeeShares.of fee e.params.depositRate
  demand (fee + split.share < amountBound) (.overflow .escrow)
  return ⟨fee, split.share⟩

end Engine

namespace Transaction

/-- Charges an applicant: the whole cost goes into the module account, and the deposit is
credited to the applicant's trust deposit. -/
def escrow (applicant : Address) (validator : Permission) : Transaction Escrow := do
  let cost ← .ask (·.quote validator)
  .ask (·.checkFunds applicant cost.total)
  collect applicant cost.total
  commit applicant cost.deposit
  return cost

end Transaction

def World.admitApplication (w : World) (a : Application) (now : Instant) :
    Except Fault (Permission × CredentialSchema) := do
  let id ← expect (PermissionId.given? a.validator) (.validatorNotFound 0)
  let validator ← w.records.validatorFor id a.country now
  let schema ← w.host.schema validator.schemaId
  schema.checkValidator validator a.kind
  return (validator, schema)

def Application.event (a : Application) (id : PermissionId) (applicant : Address)
    (cost : Escrow) : Event :=
  (Action.start a).event
    |>.attr "permission_id" (toString id)
    |>.attr "creator" applicant.text
    |>.attr "validator_perm_id" (toString a.validator)
    |>.attr "type" a.kind.name
    |>.attr "country" (optionText Country.text a.country)
    |>.attr "fees" (toString cost.fee)
    |>.attr "deposit" (toString cost.deposit)

def Transaction.start (signer : Address) (a : Application) (now : Instant) :
    Transaction Response := do
  let (validator, schema) ← .ask (·.admitApplication a now)
  let cost ← escrow signer validator
  let id ← allocate
  let windowEnd ← .ask fun _ => validityWindow now (schema.periodOf a.kind)
  store (.applied id signer a validator.schemaId cost.fee cost.deposit windowEnd now)
  emit (a.event id signer cost)
  return .permissionCreated id

def World.admitRenewal (w : World) (signer : Address) (id : PermissionId) (now : Instant) :
    Except Fault (Permission × Permission) := do
  let p ← w.loadAsGrantee id signer .renew
  p.checkValidated
  let validatorId ← expect p.validator (.validatorNotFound 0)
  let validator ← w.records.validatorFor validatorId p.country now
  return (p, validator)

def renewalEvent (id : PermissionId) (signer : Address) (cost : Escrow) : Event :=
  (Action.renew id).event
    |>.attr "permission_id" (toString id)
    |>.attr "creator" signer.text
    |>.attr "fees" (toString cost.fee)
    |>.attr "deposit" (toString cost.deposit)

def Transaction.renew (signer : Address) (id : PermissionId) (now : Instant) :
    Transaction Response := do
  let (p, validator) ← .ask (·.admitRenewal signer id now)
  let cost ← escrow signer validator
  .ask fun _ => demand (p.deposit + cost.deposit < amountBound) (.overflow .permissionDeposit)
  store (p.renewing cost.fee cost.deposit now)
  emit (renewalEvent id signer cost)
  return .empty

namespace Permission

def checkKeptFee (p : Permission) (terms : Terms) (kind : FeeKind) : Except Fault Unit :=
  demand (p.fees.of kind = terms.fees.of kind)
    (.renewalFee p.id kind (p.fees.of kind) (terms.fees.of kind))

/-- A renewal keeps the fees and the country of the permission. -/
def checkKept (p : Permission) (terms : Terms) : Except Fault Unit :=
  if p.everValidated then do
    p.checkKeptFee terms .validation
    p.checkKeptFee terms .issuance
    p.checkKeptFee terms .verification
    demand (terms.country = p.country) (.renewalCountry p.id)
  else .ok ()

/-- A window grows from its end with a renewal, and from now with a first validation. -/
def windowBase (p : Permission) (now : Instant) : Instant :=
  if p.everValidated then p.windowEnd.getD now else now

/-- A requested end of validity lies after this. -/
def finishFloor (p : Permission) (now : Instant) : Option Instant :=
  if p.everValidated then p.effectiveUntil else some now

def checkAfter (id : PermissionId) (requested : Instant) : Option Instant → Except Fault Unit
  | some floor => demand (floor < requested) (.invalidFinish id requested (.notAfter floor))
  | none => .ok ()

def checkInWindow (id : PermissionId) (requested : Instant) : Option Instant → Except Fault Unit
  | some windowEnd =>
    demand (requested ≤ windowEnd) (.invalidFinish id requested (.beyondWindow windowEnd))
  | none => .ok ()

/-- A requested end of validity lies after the floor and not beyond the window. -/
def checkFinish (p : Permission) (requested windowEnd : Option Instant) (now : Instant) :
    Except Fault Unit :=
  match requested with
  | some finish => do
    checkAfter p.id finish (p.finishFloor now)
    checkInWindow p.id finish windowEnd
  | none => .ok ()

end Permission

/-- A pending permission that may be granted on these terms, and the end of its window. -/
def World.admitConsent (w : World) (signer : Address) (id : PermissionId) (terms : Terms)
    (now : Instant) : Except Fault (Permission × Option Instant) := do
  let p ← w.loadAsValidator id signer .validate
  p.checkTransition .pending .validated
  p.checkKept terms
  demand (p.kind = .holder → terms.summaryDigest = none) (.inconsistent .holderDigest)
  let schema ← w.host.schema p.schemaId
  let windowEnd ← validityWindow (p.windowBase now) (schema.periodOf p.kind)
  p.checkFinish terms.effectiveUntil windowEnd now
  return (p, windowEnd)

def consentEvent (p : Permission) (signer : Address) (terms : Terms) : Event :=
  (Action.validate p.id terms).event
    |>.attr "permission_id" (toString p.id)
    |>.attr "creator" signer.text
    |>.attr "effective_until" (optionText Instant.toText p.effectiveUntil)
    |>.attr "vp_state" p.state.name

namespace Transaction

/-- Pays the escrowed fee to the validator. Answers the validator's share. -/
def payValidator (p : Permission) : Transaction Nat :=
  if p.escrowedFees = 0 then return 0
  else do
    let validatorId ← .ask fun _ => expect p.validator (.validatorNotFound 0)
    let validator ← .ask (·.records.require validatorId)
    let e ← get
    let line ← transfer <|
      Transfer.payOut (e.terms .validation .escrow none) validator p.escrowedFees
    emit (line.event .validation (some p.id))
    return line.split.share

def validate (signer : Address) (id : PermissionId) (terms : Terms) (now : Instant) :
    Transaction Response := do
  let (p, windowEnd) ← .ask (·.admitConsent signer id terms now)
  let share ← payValidator p
  .ask fun _ => demand (p.validatorShare + share < amountBound) (.overflow .validatorShare)
  store (p.granted terms windowEnd share now)
  emit (consentEvent (p.granted terms windowEnd share now) signer terms)
  return .empty

end Transaction

/-- A pending permission whose grantee may take the request back. -/
def World.admitCancellation (w : World) (signer : Address) (id : PermissionId) :
    Except Fault Permission := do
  let p ← w.loadAsGrantee id signer .cancel
  p.checkTransition .pending p.cancelState
  return p

def cancellationEvent (p : Permission) (signer : Address) : Event :=
  (Action.cancel p.id).event
    |>.attr "permission_id" (toString p.id)
    |>.attr "creator" signer.text
    |>.attr "vp_state" p.cancelState.name

def Transaction.cancel (signer : Address) (id : PermissionId) (now : Instant) :
    Transaction Response := do
  let p ← .ask (·.admitCancellation signer id)
  refund p.grantee p.escrowedFees
  release p.grantee p.escrowedDeposit
  store (p.cancelled signer now)
  emit (cancellationEvent p signer)
  return .empty

end TrustPermit
