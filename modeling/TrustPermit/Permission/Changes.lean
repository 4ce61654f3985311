import TrustPermit.Message

/-! # Changes of a permission

What each step of its life writes into a permission. Whether a step is allowed is decided
elsewhere.
-/

namespace TrustPermit

namespace Permission

/-- A first request, with its escrow. -/
def applied (id : PermissionId) (applicant : Address) (a : Application) (schemaId : Nat)
    (fee deposit : Nat) (windowEnd : Option Instant) (now : Instant) : Permission :=
  { fresh id schemaId a.kind a.did applicant now with
    country := a.country
    validator := some a.validator
    escrowedFees := fee
    escrowedDeposit := deposit
    deposit := deposit
    windowEnd := windowEnd }

def renewing (p : Permission) (fee deposit : Nat) (now : Instant) : Permission :=
  { p with
    escrowedFees := fee
    escrowedDeposit := deposit
    deposit := p.deposit + deposit }.enter .pending now

/-- The validator's consent. The first one starts the validity and sets the country. -/
def granted (p : Permission) (t : Terms) (windowEnd : Option Instant) (share : Nat)
    (now : Instant) : Permission :=
  { p with
    effectiveFrom := if p.everValidated then p.effectiveFrom else some now
    country := if p.everValidated then p.country else t.country
    effectiveUntil := t.effectiveUntil.or windowEnd
    fees := t.fees
    issuanceDiscount := t.issuanceDiscount
    verificationDiscount := t.verificationDiscount
    summaryDigest := t.summaryDigest
    windowEnd := windowEnd
    validatorShare := p.validatorShare + share
    escrowedFees := 0
    escrowedDeposit := 0 }.enter .validated now

def archived (p : Permission) (actor : Address) (now : Instant) : Permission :=
  { p with terminated := some now, terminatedBy := some actor }.enter .terminated now

/-- The escrow and the deposit of the pending request are gone. -/
def withoutRequest (p : Permission) : Permission :=
  { p with deposit := p.deposit - p.escrowedDeposit, escrowedFees := 0, escrowedDeposit := 0 }

/-- The state to which a cancelled request leads. -/
def cancelState (p : Permission) : ValidationStage :=
  if p.everValidated then .validated else .terminated

/-- A cancelled renewal leaves the permission validated, a cancelled first request archives it. -/
def cancelled (p : Permission) (actor : Address) (now : Instant) : Permission :=
  if p.everValidated then p.withoutRequest.enter .validated now
  else p.withoutRequest.archived actor now

def extendedTo (p : Permission) (finish : Instant) (actor : Address) (now : Instant) :
    Permission :=
  { p with
    effectiveUntil := some finish
    extended := some now
    extendedBy := some actor
    modified := now }

def withdrawn (p : Permission) (actor : Address) (now : Instant) : Permission :=
  { p with revoked := some now, revokedBy := some actor, modified := now }

def leaving (p : Permission) (now : Instant) : Permission :=
  { p with terminationRequested := some now }.enter .terminationRequested now

/-- A confirmed termination takes the deposits out. -/
def closed (p : Permission) (actor : Address) (now : Instant) : Permission :=
  { p with deposit := 0, validatorShare := 0 }.archived actor now

/-- What is left of the deposit after slashes. -/
def unslashed (p : Permission) : Nat := p.deposit - p.slashedDeposit

def slashedFor (p : Permission) (amount : Nat) (actor : Address) (now : Instant) : Permission :=
  { p with
    slashedDeposit := p.slashedDeposit + amount
    slashed := some now
    slashedBy := some actor
    modified := now }

def repaidInFull (p : Permission) (actor : Address) (now : Instant) : Permission :=
  { p with
    slashedDeposit := 0
    repaidDeposit := p.repaidDeposit + p.slashedDeposit
    repaid := some now
    repaidBy := some actor
    modified := now }

def raiseDeposit (p : Permission) (amount : Nat) : Permission :=
  { p with deposit := p.deposit + amount }

def lowerDeposit (p : Permission) (amount : Nat) : Permission :=
  { p with deposit := p.deposit - amount }

def withoutShare (p : Permission) : Permission := { p with validatorShare := 0 }

/-- The root of a schema, valid from the start. -/
def root (id : PermissionId) (controller : Address) (g : RootGrant) (now : Instant) :
    Permission :=
  { fresh id g.schemaId .ecosystem g.did controller now with
    country := g.country
    effectiveFrom := some (g.effectiveFrom.getD now)
    effectiveUntil := g.effectiveUntil
    fees := g.fees }.enter .validated now

/-- A permission that its grantee created under a root, valid from the start. -/
def selfGranted (id : PermissionId) (grantee : Address) (g : SelfGrant) (root : PermissionId)
    (now : Instant) : Permission :=
  { fresh id g.schemaId g.kind g.did grantee now with
    country := g.country
    validator := some root
    effectiveFrom := some (g.effectiveFrom.getD now)
    effectiveUntil := g.effectiveUntil
    fees := { verification := g.verificationFee } }.enter .validated now

end Permission

end TrustPermit
