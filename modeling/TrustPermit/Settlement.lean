import TrustPermit.Records

/-! # Settlements

What is owed when a permission validates an applicant or a credential is issued or verified. A
share of every fee, rounded down, goes into trust deposits, to the beneficiary and to the executor;
the rest is paid out. A transfer that fails keeps what it did until then.
-/

namespace TrustPermit

/-- How a fee divides. -/
structure FeeShares where
  fee : Nat
  share : Nat
  direct : Nat
  deriving DecidableEq

/-- Who pays: an account, or the escrow in the module account. -/
inductive Payer where
  | account (account : Address)
  | escrow
  deriving DecidableEq

/-- The fixed terms of a settlement. -/
structure SettlementTerms where
  kind : FeeKind
  payer : Payer
  /-- The permission that acts; it is credited beside each beneficiary. -/
  executor : Option PermissionId
  unitPrice : Nat
  depositRate : Rate
  denom : String
  moduleAccount : String
  deriving DecidableEq

structure Payout where
  beneficiary : PermissionId
  grantee : Address
  split : FeeShares
  /-- The anchor behind which the grantee's deposit lies. -/
  anchor : Option String
  deriving DecidableEq

structure Receipt where
  kind : FeeKind
  executor : Option PermissionId
  lines : List Payout
  deriving DecidableEq

namespace Receipt

def total (r : Receipt) (part : FeeShares → Nat) : Nat :=
  r.lines.foldr (fun line n => part line.split + n) 0

def charged (r : Receipt) : Nat := r.total (·.fee)

def direct (r : Receipt) : Nat := r.total (·.direct)

/-- The shares, counted once per line. -/
def shared (r : Receipt) : Nat := r.total (·.share)

end Receipt

/-- A fee in trust units as an amount of the bond denomination. -/
def feeInDenom (fee unitPrice : Nat) : Except Fault Nat := do
  demand (fee * unitPrice < amountBound) (.overflow .feesInDenom)
  return fee * unitPrice

def FeeShares.of (fee : Nat) (rate : Rate) : Except Fault FeeShares := do
  let share ← expect (rate.portion? fee) (.overflow .depositShare)
  demand (share ≤ fee) (.overflow .depositShare)
  return ⟨fee, share, fee - share⟩

/-- The total with one more beneficiary's fee. -/
def addDue (kind : FeeKind) (unitPrice total : Nat) (b : Permission) : Except Fault Nat := do
  let owed ← feeInDenom (b.fees.of kind) unitPrice
  demand (total + owed < amountBound) (.overflow .required)
  return total + owed

/-- What the payer must hold for the beneficiaries' fees of a kind. -/
def amountDue (kind : FeeKind) (unitPrice : Nat) (beneficiaries : List Permission) :
    Except Fault Nat :=
  beneficiaries.foldlM (addDue kind unitPrice) 0

def Payout.event (line : Payout) (kind : FeeKind)
    (executor : Option PermissionId) : Event :=
  let e := (({ kind := "settle_fee" } : Event).attr "fee_kind" kind.name
    |>.attr "beneficiary_perm_id" (toString line.beneficiary)
    |>.attr "direct_amount" (toString line.split.direct)
    |>.attr "trust_deposit_amount" (toString line.split.share))
  match executor with
  | some id => e.attr "executor_perm_id" (toString id)
  | none => e

structure World where
  records : Records
  host : Host
  deriving DecidableEq

namespace World

def withRecords (w : World) (r : Records) : World := { w with records := r }

def withHost (w : World) (h : Host) : World := { w with host := h }

end World

abbrev Transfer (α : Type) := Effect Fault World α

namespace Transfer

def onHost {α : Type} (action : HostAction α) : Transfer α :=
  Effect.within World.host World.withHost .host action

end Transfer

namespace Transfer

def payDirect (t : SettlementTerms) (grantee : Address) (amount : Nat) : Transfer Unit :=
  .unlessZero amount <|
    match t.payer with
    | .account payer => onHost (Host.send payer grantee ⟨t.denom, amount⟩)
    | .escrow => onHost (Host.sendFromModule t.moduleAccount grantee ⟨t.denom, amount⟩)

/-- Puts a share into the module account; escrow is there already. -/
def collectShare (t : SettlementTerms) (share : Nat) : Transfer Unit :=
  match t.payer with
  | .account payer => onHost (Host.sendToModule payer t.moduleAccount ⟨t.denom, share⟩)
  | .escrow => pure ()

/-- Credits a share to a permission and to its grantee's trust deposit. -/
def creditShare (id : PermissionId) (grantee : Address) (share : Nat) : Transfer Unit := do
  onHost (Host.commit grantee share)
  .change fun w => (w.records.raiseDeposit id share).map w.withRecords

def creditExecutor (executor : Option PermissionId) (share : Nat) : Transfer Unit :=
  match executor with
  | some id => do
    let p ← .ask (·.records.require id)
    creditShare id p.grantee share
  | none => pure ()

def payShare (t : SettlementTerms) (beneficiary : Permission) (share : Nat) : Transfer Unit :=
  .unlessZero share do
    collectShare t share
    creditShare beneficiary.id beneficiary.grantee share
    creditExecutor t.executor share

def payOut (t : SettlementTerms) (beneficiary : Permission) (amount : Nat) :
    Transfer Payout := do
  let split ← .ask fun _ => FeeShares.of amount t.depositRate
  payDirect t beneficiary.grantee split.direct
  payShare t beneficiary split.share
  .ask fun w => .ok
    ⟨beneficiary.id, beneficiary.grantee, split, w.host.anchorOf beneficiary.grantee⟩

/-- The lines of the beneficiaries in order; one without a fee gets no line. -/
def payOutAll (t : SettlementTerms) : List Permission → Transfer (List Payout)
  | [] => return []
  | b :: rest =>
    if b.fees.of t.kind = 0 then payOutAll t rest
    else do
      let amount ← .ask fun _ => feeInDenom (b.fees.of t.kind) t.unitPrice
      let line ← payOut t b amount
      let lines ← payOutAll t rest
      return line :: lines

def settle (t : SettlementTerms) (beneficiaries : List Permission) : Transfer Receipt := do
  let lines ← payOutAll t beneficiaries
  return ⟨t.kind, t.executor, lines⟩

end Transfer

end TrustPermit
