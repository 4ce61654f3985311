import TrustPermit.Engine.Validation

/-! # Exchanges

Recording an exchange of credentials in a session. The caller pays the verification fees of the
beneficiaries if a verifier takes part, else the issuance fees.
-/

namespace TrustPermit

namespace Exchange

def issuer? (x : Exchange) : Option PermissionId := PermissionId.given? x.issuer

def verifier? (x : Exchange) : Option PermissionId := PermissionId.given? x.verifier

def walletAgent? (x : Exchange) : Option PermissionId := PermissionId.given? x.walletAgent

def authorization (x : Exchange) : Authorization := ⟨x.issuer?, x.verifier?, x.walletAgent?⟩

def feeKind (x : Exchange) : FeeKind :=
  if x.verifier?.isSome then .verification else .issuance

/-- The permission that is credited beside each beneficiary. -/
def executor? (x : Exchange) : Option PermissionId := x.verifier?.or x.issuer?

def event (x : Exchange) (actor : Address) : Event :=
  (Action.exchange x).event
    |>.attr "session_id" x.sessionId
    |>.attr "creator" actor.text
    |>.attr "executor_perm_id" (optionText toString x.issuer?)
    |>.attr "beneficiary_perm_id" (optionText toString x.verifier?)

end Exchange

def Permission.checkActive (p : Permission) (id : PermissionId) (now : Instant) :
    Except Fault Unit :=
  match p.inactivity? now with
  | some cause => .error (.notActive id cause)
  | none => .ok ()

namespace Records

def checkParticipant (r : Records) (expected : PermissionKind) (now : Instant) :
    Option PermissionId → Except Fault Unit
  | none => .ok ()
  | some id => do
    let p ← r.require id
    demand (p.kind = expected) (.wrongKind id p.kind expected)
    p.checkActive id now

/-- The session of an id, for its controller to append to; a new one if there is none. -/
def openSession (r : Records) (signer : Address) (id : String) (agent : PermissionId)
    (a : Authorization) (now : Instant) : Except Fault Session :=
  match r.session? id with
  | some s => do
    authorize signer s.controller .updateSession
    demand (s.holds a = false) (.duplicateAuthorization id)
    return s
  | none => .ok (.fresh id signer agent now)

def admitExchange (r : Records) (signer : Address) (x : Exchange) (now : Instant) :
    Except Fault Session := do
  let agent ← expect (PermissionId.given? x.agent) (.field (.missing "agent_perm_id"))
  r.checkParticipant .issuer now x.issuer?
  r.checkParticipant .verifier now x.verifier?
  r.checkParticipant .issuer now (some agent)
  r.checkParticipant .issuer now x.walletAgent?
  r.openSession signer x.sessionId agent x.authorization now

end Records

/-- The beneficiaries of an exchange, if the payer can pay them all. -/
def Engine.admitPayment (e : Engine) (payer : Address) (x : Exchange) :
    Except Fault (List Permission) := do
  let beneficiaries ←
    e.records.beneficiaries e.host.schemas x.issuer? x.verifier? e.params.maxChainDepth
  let required ← amountDue x.feeKind e.host.unitPrice beneficiaries
  e.checkFunds payer required
  return beneficiaries

namespace Transaction

def payBeneficiaries (payer : Address) (x : Exchange) : Transaction Unit := do
  let beneficiaries ← .ask (·.admitPayment payer x)
  let e ← get
  let receipt ← transfer <|
    Transfer.settle (e.terms x.feeKind (.account payer) x.executor?) beneficiaries
  .update (·.report (receipt.lines.map (·.event x.feeKind x.executor?)))

def exchange (signer : Address) (x : Exchange) (now : Instant) : Transaction Response := do
  let s ← .ask (·.records.admitExchange signer x now)
  payBeneficiaries signer x
  let s := s.append x.authorization now
  .update fun e => e.withRecords (e.records.insertSession s)
  emit (x.event signer)
  return .sessionUpdated x.sessionId s.authorizations.length

end Transaction

end TrustPermit
