import TrustPermit.Effect
import TrustPermit.Guard
import TrustPermit.Permission.Basic
import TrustPermit.Table

/-! # The host

The surroundings of the engine: the ledger of balances and trust deposits in one denomination, the
price of a trust unit, the directory of schemas and registries, and the anchors of operators. Its
actions are effects, so one that fails keeps what it did before.
-/

namespace TrustPermit

/-- Days for which a validation holds, by the applicant's kind; 0 means without end. -/
structure ValidityPeriods where
  issuerGrantor : Nat
  verifierGrantor : Nat
  issuer : Nat
  verifier : Nat
  holder : Nat
  deriving DecidableEq

structure CredentialSchema where
  id : Nat
  registryId : Nat
  issuerMode : ManagementMode
  verifierMode : ManagementMode
  periods : ValidityPeriods
  deriving DecidableEq

/-- Kinds that take no validation process have no period. -/
def CredentialSchema.periodOf (s : CredentialSchema) : PermissionKind → Nat
  | .issuerGrantor => s.periods.issuerGrantor
  | .verifierGrantor => s.periods.verifierGrantor
  | .issuer => s.periods.issuer
  | .verifier => s.periods.verifier
  | .holder => s.periods.holder
  | .ecosystem => 0
  | .trustRegistry => 0

structure TrustRegistry where
  id : Nat
  controller : Address
  deriving DecidableEq

structure Coin where
  denom : String
  amount : Nat
  deriving DecidableEq

def Coin.toText (c : Coin) : String := toString c.amount ++ c.denom

/-- A number of the ledger that a call adds to. The count of what was burned is added up unchecked:
past its bound the host stops there and gives no answer. -/
inductive Holding where
  | entry (account : String)
  | burned
  deriving DecidableEq

inductive HostFault where
  | insufficientBalance (account : String) (required available : Nat)
  | depositUnderflow (account : String) (balance : Nat) (delta : Int)
  | deltaOutOfRange (amount : Nat)
  | unknownDenom (denom : String)
  | frozen (account : Address)
  | balanceOverflow (holding : Holding)
  deriving DecidableEq

namespace HostFault

def message : HostFault → String
  | insufficientBalance account required available =>
    s!"insufficient balance on {account}: required {required}, available {available}"
  | depositUnderflow account balance delta =>
    s!"trust deposit of {account} would go negative: balance {balance}, delta {delta}"
  | deltaOutOfRange amount => s!"amount {amount} does not fit a signed trust-deposit delta"
  | unknownDenom denom => s!"collaborator rejected the call: unknown denomination {denom}"
  | frozen account =>
    "collaborator rejected the call: trust deposit frozen for " ++ account.text
  | balanceOverflow (.entry account) =>
    s!"collaborator rejected the call: balance overflow on {account}"
  | balanceOverflow .burned => "attempt to add with overflow"

end HostFault

structure Ledger where
  balances : Table Address Nat
  modules : Table String Nat
  deposits : Table Address Nat
  /-- Released from trust deposits and not yet claimed. -/
  claimable : Table Address Nat
  burned : Nat
  deriving DecidableEq

namespace Ledger

def empty : Ledger := ⟨∅, ∅, ∅, ∅, 0⟩

def balance (l : Ledger) (account : Address) : Nat := (l.balances.get? account).getD 0

def moduleFunds (l : Ledger) (account : String) : Nat := (l.modules.get? account).getD 0

def deposit (l : Ledger) (account : Address) : Nat := (l.deposits.get? account).getD 0

def claim (l : Ledger) (account : Address) : Nat := (l.claimable.get? account).getD 0

section Entry

variable {κ : Type} [Ord κ] [Std.TransOrd κ] [Std.LawfulEqOrd κ]

/-- Takes an amount from an entry. An entry appears even if the amount is zero. -/
def debit (name : κ → String) (t : Table κ Nat) (key : κ) (amount : Nat) :
    Except HostFault (Table κ Nat) :=
  let available := (t.get? key).getD 0
  if available < amount then .error (.insufficientBalance (name key) amount available)
  else .ok (t.insert key (available - amount))

def credit (name : κ → String) (t : Table κ Nat) (key : κ) (amount : Nat) :
    Except HostFault (Table κ Nat) :=
  let total := (t.get? key).getD 0 + amount
  if total < amountBound then .ok (t.insert key total)
  else .error (.balanceOverflow (.entry (name key)))

end Entry

def debitAccount (l : Ledger) (account : Address) (amount : Nat) : Except HostFault Ledger :=
  (debit Address.text l.balances account amount).map fun t => { l with balances := t }

def creditAccount (l : Ledger) (account : Address) (amount : Nat) : Except HostFault Ledger :=
  (credit Address.text l.balances account amount).map fun t => { l with balances := t }

def debitModule (l : Ledger) (account : String) (amount : Nat) : Except HostFault Ledger :=
  (debit id l.modules account amount).map fun t => { l with modules := t }

def creditModule (l : Ledger) (account : String) (amount : Nat) : Except HostFault Ledger :=
  (credit id l.modules account amount).map fun t => { l with modules := t }

def debitDeposit (l : Ledger) (account : Address) (amount : Nat) : Except HostFault Ledger :=
  (debit Address.text l.deposits account amount).map fun t => { l with deposits := t }

def creditDeposit (l : Ledger) (account : Address) (amount : Nat) : Except HostFault Ledger :=
  (credit Address.text l.deposits account amount).map fun t => { l with deposits := t }

def creditClaim (l : Ledger) (account : Address) (amount : Nat) : Except HostFault Ledger :=
  (credit Address.text l.claimable account amount).map fun t => { l with claimable := t }

def burn (l : Ledger) (amount : Nat) : Except HostFault Ledger :=
  let total := l.burned + amount
  if total < amountBound then .ok { l with burned := total } else .error (.balanceOverflow .burned)

def mint (l : Ledger) (account : Address) (amount : Nat) : Ledger :=
  { l with balances := l.balances.insert account (l.balance account + amount) }

end Ledger

structure Host where
  ledger : Ledger
  denom : String
  unitPrice : Nat
  schemas : Table Nat CredentialSchema
  registries : Table Nat TrustRegistry
  /-- The anchor behind which an operator's deposit lies. -/
  anchors : Table Address String
  /-- Accounts whose trust deposit cannot move. -/
  frozen : List Address
  deriving DecidableEq

abbrev HostAction (α : Type) := Effect HostFault Host α

def toDelta (amount : Nat) : Except HostFault Int := do
  demand (amount < deltaBound) (.deltaOutOfRange amount)
  return amount

namespace Host

def empty (denom : String) (unitPrice : Nat) : Host where
  ledger := .empty
  denom := denom
  unitPrice := unitPrice
  schemas := ∅
  registries := ∅
  anchors := ∅
  frozen := []

/-- Module account that receives repayments of slashed deposits. -/
def depositModule : String := "trustdeposit"

def withLedger (h : Host) (l : Ledger) : Host := { h with ledger := l }

def fund (h : Host) (account : Address) (amount : Nat) : Host :=
  h.withLedger (h.ledger.mint account amount)

def spendable (h : Host) (account : Address) (denom : String) : Nat :=
  if denom = h.denom then h.ledger.balance account else 0

def anchorOf (h : Host) (operator : Address) : Option String := h.anchors.get? operator

def isAnchorAccount (h : Host) (account : Address) : Bool := h.anchors.values.contains account.text

def guardDenom (coin : Coin) : HostAction Unit :=
  .ask fun h => demand (coin.denom = h.denom) (.unknownDenom coin.denom)

def guardFrozen (account : Address) : HostAction Unit :=
  .ask fun h => demand (account ∉ h.frozen) (.frozen account)

def book (f : Ledger → Except HostFault Ledger) : HostAction Unit :=
  .change fun h => (f h.ledger).map h.withLedger

def send (source target : Address) (coin : Coin) : HostAction Unit := do
  guardDenom coin
  book (·.debitAccount source coin.amount)
  book (·.creditAccount target coin.amount)

def sendToModule (source : Address) (target : String) (coin : Coin) : HostAction Unit := do
  guardDenom coin
  book (·.debitAccount source coin.amount)
  book (·.creditModule target coin.amount)

def sendFromModule (source : String) (target : Address) (coin : Coin) : HostAction Unit := do
  guardDenom coin
  book (·.debitModule source coin.amount)
  book (·.creditAccount target coin.amount)

/-- A delta of zero or more goes into the account's trust deposit; a negative one comes out of it
and becomes claimable. -/
def adjustDeposit (account : Address) (delta : Int) : HostAction Unit := do
  guardFrozen account
  if 0 ≤ delta then book (·.creditDeposit account delta.natAbs)
  else do
    .ask fun h => demand (delta.natAbs ≤ h.ledger.deposit account)
      (.depositUnderflow account.text (h.ledger.deposit account) delta)
    book (·.debitDeposit account delta.natAbs)
    book (·.creditClaim account delta.natAbs)

def commit (account : Address) (amount : Nat) : HostAction Unit := do
  let delta ← .ask fun _ => toDelta amount
  adjustDeposit account delta

def release (account : Address) (amount : Nat) : HostAction Unit := do
  let delta ← .ask fun _ => toDelta amount
  adjustDeposit account (-delta)

/-- Takes a slashed amount out of the account's trust deposit for good. -/
def burnDeposit (account : Address) (amount : Nat) : HostAction Unit := do
  guardFrozen account
  book (·.debitDeposit account amount)
  book (·.burn amount)

end Host

end TrustPermit
