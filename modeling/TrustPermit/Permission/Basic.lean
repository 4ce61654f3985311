import TrustPermit.Identity
import TrustPermit.Instant.Basic
import TrustPermit.Rate

/-! # Permissions

A permission grants a role under a credential schema to an account. Its fees are in trust units;
its deposits and escrowed amounts are in the bond denomination. Whether it can act is a matter of
its marks and its validity.
-/

namespace TrustPermit

inductive PermissionKind where
  | ecosystem
  | trustRegistry
  | issuerGrantor
  | issuer
  | verifierGrantor
  | verifier
  | holder
  deriving DecidableEq

namespace PermissionKind

def all : List PermissionKind :=
  [ecosystem, trustRegistry, issuerGrantor, issuer, verifierGrantor, verifier, holder]

def name : PermissionKind → String
  | ecosystem => "ECOSYSTEM"
  | trustRegistry => "TRUST_REGISTRY"
  | issuerGrantor => "ISSUER_GRANTOR"
  | issuer => "ISSUER"
  | verifierGrantor => "VERIFIER_GRANTOR"
  | verifier => "VERIFIER"
  | holder => "HOLDER"

def ofName? (name : String) : Option PermissionKind := all.find? (·.name = name)

end PermissionKind

/-- Where a permission stands in its validation process. -/
inductive ValidationStage where
  | pending
  | validated
  | terminationRequested
  | terminated
  deriving DecidableEq

namespace ValidationStage

def all : List ValidationStage := [pending, validated, terminationRequested, terminated]

def name : ValidationStage → String
  | pending => "PENDING"
  | validated => "VALIDATED"
  | terminationRequested => "TERMINATION_REQUESTED"
  | terminated => "TERMINATED"

def ofName? (name : String) : Option ValidationStage := all.find? (·.name = name)

/-- A terminated permission is archived for good. -/
def isFinal (s : ValidationStage) : Bool := s = terminated

end ValidationStage

/-- How a schema admits issuers or verifiers: anyone, through a grantor, or through the root. -/
inductive ManagementMode where
  | selfCreation
  | grantorValidation
  | rootValidation
  deriving DecidableEq

namespace ManagementMode

def all : List ManagementMode := [selfCreation, grantorValidation, rootValidation]

def name : ManagementMode → String
  | selfCreation => "OPEN"
  | grantorValidation => "GRANTOR_VALIDATION"
  | rootValidation => "TRUST_REGISTRY_VALIDATION"

def ofName? (name : String) : Option ManagementMode := all.find? (·.name = name)

end ManagementMode

inductive FeeKind where
  | validation
  | issuance
  | verification
  deriving DecidableEq

namespace FeeKind

def all : List FeeKind := [validation, issuance, verification]

def name : FeeKind → String
  | validation => "validation"
  | issuance => "issuance"
  | verification => "verification"

def ofName? (name : String) : Option FeeKind := all.find? (·.name = name)

end FeeKind

structure Fees where
  validation : Nat := 0
  issuance : Nat := 0
  verification : Nat := 0
  deriving DecidableEq

def Fees.of (fees : Fees) : FeeKind → Nat
  | .validation => fees.validation
  | .issuance => fees.issuance
  | .verification => fees.verification

/-- Ids start at 1; requests write 0 for no permission. -/
abbrev PermissionId := Nat

namespace PermissionId

def given? (id : Nat) : Option PermissionId := if id = 0 then none else some id

end PermissionId

structure Permission where
  id : PermissionId
  schemaId : Nat
  kind : PermissionKind
  did : Did
  grantee : Address
  country : Option Country
  /-- The permission that validates this one; none for a root. -/
  validator : Option PermissionId
  created : Instant
  createdBy : Address
  modified : Instant
  /-- Start of validity, set by the first validation. -/
  effectiveFrom : Option Instant
  /-- End of validity; none means that it never ends. -/
  effectiveUntil : Option Instant
  fees : Fees
  issuanceDiscount : Rate
  verificationDiscount : Rate
  /-- Trust deposit attributed to this permission. -/
  deposit : Nat
  /-- Slashed and not yet repaid. -/
  slashedDeposit : Nat
  repaidDeposit : Nat
  revoked : Option Instant
  revokedBy : Option Address
  terminated : Option Instant
  terminatedBy : Option Address
  extended : Option Instant
  extendedBy : Option Address
  slashed : Option Instant
  slashedBy : Option Address
  repaid : Option Instant
  repaidBy : Option Address
  state : ValidationStage
  lastStateChange : Instant
  /-- Ceiling for the end of validity. -/
  windowEnd : Option Instant
  terminationRequested : Option Instant
  /-- Validation fees held in the module account while a request is pending. -/
  escrowedFees : Nat
  /-- Trust deposit that the applicant committed with the pending request. -/
  escrowedDeposit : Nat
  summaryDigest : Option Digest
  /-- Trust deposit that the validator earned by validating this permission. -/
  validatorShare : Nat
  deriving DecidableEq

namespace Permission

/-- A fresh pending permission without markers or amounts. -/
def fresh (id : PermissionId) (schemaId : Nat) (kind : PermissionKind) (did : Did)
    (grantee : Address) (now : Instant) : Permission where
  id := id
  schemaId := schemaId
  kind := kind
  did := did
  grantee := grantee
  country := none
  validator := none
  created := now
  createdBy := grantee
  modified := now
  effectiveFrom := none
  effectiveUntil := none
  fees := {}
  issuanceDiscount := Rate.zero
  verificationDiscount := Rate.zero
  deposit := 0
  slashedDeposit := 0
  repaidDeposit := 0
  revoked := none
  revokedBy := none
  terminated := none
  terminatedBy := none
  extended := none
  extendedBy := none
  slashed := none
  slashedBy := none
  repaid := none
  repaidBy := none
  state := .pending
  lastStateChange := now
  windowEnd := none
  terminationRequested := none
  escrowedFees := 0
  escrowedDeposit := 0
  summaryDigest := none
  validatorShare := 0

/-- Moves to a state and stamps the change. -/
def enter (p : Permission) (state : ValidationStage) (now : Instant) : Permission :=
  { p with state := state, lastStateChange := now, modified := now }

end Permission

/-- The first reason why a permission cannot act. -/
inductive Inactivity where
  | revoked
  | terminated
  | slashed
  | notYetEffective
  | expired
  deriving DecidableEq

def Inactivity.reason : Inactivity → String
  | revoked => "revoked"
  | terminated => "terminated"
  | slashed => "slashed"
  | notYetEffective => "not yet effective"
  | expired => "expired"

namespace Permission

/-- Revoked, terminated or slashed without repayment; such a permission receives no fees. -/
def isBarred (p : Permission) : Bool :=
  p.revoked.isSome || p.terminated.isSome || p.slashedDeposit != 0

/-- A pending permission that was validated before awaits a renewal. -/
def everValidated (p : Permission) : Bool := p.effectiveFrom.isSome

def hasStarted (p : Permission) (t : Instant) : Bool := p.effectiveFrom.any (· ≤ t)

def hasExpired (p : Permission) (t : Instant) : Bool := p.effectiveUntil.any (· ≤ t)

/-- Not excluded, and inside the window from the start, included, to the end, excluded. -/
def canActAt (p : Permission) (t : Instant) : Bool :=
  !p.isBarred && p.hasStarted t && p.effectiveUntil.all (t < ·)

def inactivity? (p : Permission) (t : Instant) : Option Inactivity :=
  if p.revoked.isSome then some .revoked
  else if p.terminated.isSome then some .terminated
  else if p.slashedDeposit ≠ 0 then some .slashed
  else if !p.hasStarted t then some .notYetEffective
  else if p.hasExpired t then some .expired
  else none

/-- A restricted permission serves its own country; a request without a country is served by
all. -/
def serves (p : Permission) (country : Option Country) : Bool :=
  match p.country, country with
  | some own, some other => own = other
  | _, _ => true

end Permission

end TrustPermit
