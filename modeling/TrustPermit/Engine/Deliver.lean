import TrustPermit.Engine.Exchange
import TrustPermit.Engine.Lifecycle

/-! # Delivery

A message is applied whole or not at all. It is first checked by itself; then its handler runs,
and if that fails the records, the events and the ledger are put back.
-/

namespace TrustPermit

namespace Transaction

def setParams (signer : Address) (params : Params) (now : Instant) :
    Transaction Response := do
  .ask fun e => authorize signer e.authority .setParams
  .ask fun _ => params.check.mapError .params
  .update (·.withParams params)
  emit <| (Action.setParams params).event
    |>.attr "creator" signer.text
    |>.attr "timestamp" now.toText
  return .empty

def perform (m : Message) (now : Instant) : Transaction Response :=
  match m.action with
  | .start application => start m.signer application now
  | .renew id => renew m.signer id now
  | .validate id terms => validate m.signer id terms now
  | .extend id finish => extend m.signer id finish now
  | .revoke id => revoke m.signer id now
  | .cancel id => cancel m.signer id now
  | .requestTermination id => requestTermination m.signer id now
  | .confirmTermination id => confirmTermination m.signer id now
  | .createRoot grant => createRoot m.signer grant now
  | .create grant => create m.signer grant now
  | .exchange x => exchange m.signer x now
  | .slash id amount => slash m.signer id amount now
  | .repay id => repay m.signer id now
  | .setParams params => setParams m.signer params now

end Transaction

namespace Engine

/-- Undoes a failed transaction: the records and the ledger return, and later events go. -/
def rollback (before failed : Engine) : Engine :=
  { failed with
    records := before.records
    host := failed.host.withLedger before.host.ledger
    events := failed.events.take before.events.length }

/-- Applies one message at the time of its block. -/
def deliver (e : Engine) (now : Instant) (m : Message) : Except Fault Response × Engine :=
  match m.check with
  | .error f => (.error f, e)
  | .ok () =>
    match Transaction.perform m now e with
    | .ok response next => (.ok response, next)
    | .error f failed => (.error f, e.rollback failed)

end Engine

end TrustPermit
