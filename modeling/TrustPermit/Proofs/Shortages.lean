import TrustPermit.Proofs.Admission
import TrustPermit.Proofs.Refusals
import TrustPermit.Proofs.Settlement

/-! # Calls that lack no coins

A payout whose payer holds the amount is not refused for want of coins. So consents and
cancellations whose fees are in the module account stop for many reasons, but not for that one.
-/

namespace TrustPermit

def HostFault.isShortage : HostFault → Bool
  | insufficientBalance .. => true
  | _ => false

/-- The ledger refused a debit for want of coins. -/
def Fault.isShortage : Fault → Bool
  | host fault => fault.isShortage
  | _ => false

theorem Fault.isShortage_eq_false {f : Fault} (h : f.isPayment = false) : f.isShortage = false := by
  cases f <;> first | rfl | cases h

namespace Ledger

variable {κ : Type} [Ord κ] [Std.TransOrd κ] [Std.LawfulEqOrd κ] {bad : HostFault → Bool}

theorem credit_rulesOut (hb : ∀ a, bad (.balanceOverflow a) = false) (name : κ → String)
    (t : Table κ Nat) (key : κ) (n : Nat) : Guard.RulesOut bad (credit name t key n) := by
  simp only [credit]
  split
  · exact .ok _
  · exact .error (hb _)

theorem debit_rulesOut (name : κ → String) {t : Table κ Nat} {key : κ} {n : Nat}
    (h : n ≤ t.amount key) : Guard.RulesOut bad (debit name t key n) := by
  have hn : ¬ (t.get? key).getD 0 < n := Nat.not_lt.mpr h
  simp only [debit, hn, if_false]
  exact .ok _

end Ledger

namespace Host

open Effect

variable {h : Host} {bad : HostFault → Bool}

theorem book_rulesOut {f : Ledger → Except HostFault Ledger}
    (hf : Guard.RulesOut bad (f h.ledger)) : RulesOut bad (book f) h :=
  .change (hf.map _)

theorem sendFromModule_rulesOut {m : String} {a : Address} {c : Coin}
    (hc : c.amount ≤ h.ledger.moduleFunds m) :
    RulesOut HostFault.isShortage (sendFromModule m a c) h := by
  refine .ask_bind (.demand rfl) fun _ _ =>
    .bind (book_rulesOut ?_) fun _ _ _ => book_rulesOut ?_
  · exact (Ledger.debit_rulesOut id hc).map _
  · exact (Ledger.credit_rulesOut (fun _ => rfl) ..).map _

theorem send_rulesOut {a b : Address} {c : Coin} (hc : c.amount ≤ h.ledger.balance a) :
    RulesOut HostFault.isShortage (send a b c) h := by
  refine .ask_bind (.demand rfl) fun _ _ =>
    .bind (book_rulesOut ?_) fun _ _ _ => book_rulesOut ?_
  · exact (Ledger.debit_rulesOut _ hc).map _
  · exact (Ledger.credit_rulesOut (fun _ => rfl) ..).map _

theorem sendToModule_rulesOut {a : Address} {m : String} {c : Coin}
    (hc : c.amount ≤ h.ledger.balance a) :
    RulesOut HostFault.isShortage (sendToModule a m c) h := by
  refine .ask_bind (.demand rfl) fun _ _ =>
    .bind (book_rulesOut ?_) fun _ _ _ => book_rulesOut ?_
  · exact (Ledger.debit_rulesOut _ hc).map _
  · exact (Ledger.credit_rulesOut (fun _ => rfl) ..).map _

/-- A trust deposit is debited only after it was found to suffice, and the size of the change is not
looked at. -/
theorem adjustDeposit_rulesOut (hf : ∀ a, bad (.frozen a) = false)
    (hu : ∀ a n d, bad (.depositUnderflow a n d) = false)
    (hb : ∀ a, bad (.balanceOverflow a) = false) (a : Address) (delta : Int) :
    RulesOut bad (adjustDeposit a delta) h := by
  refine .bind (.ask (.demand (hf a))) fun _ _ _ => ?_
  split
  · exact book_rulesOut ((Ledger.credit_rulesOut hb ..).map _)
  · refine .ask_bind (.demand (hu ..)) fun _ hd =>
      .bind (book_rulesOut ?_) fun _ _ _ => book_rulesOut ?_
    · exact (Ledger.debit_rulesOut _ (Guard.demand_eq_ok_iff.mp hd)).map _
    · exact (Ledger.credit_rulesOut hb ..).map _

theorem toDelta_rulesOut (n : Nat) : Guard.RulesOut HostFault.isShortage (toDelta n) :=
  .bind (.demand rfl) fun _ => .ok _

theorem commit_rulesOut (a : Address) (n : Nat) :
    RulesOut HostFault.isShortage (commit a n) h :=
  .bind (.ask (toDelta_rulesOut n)) fun _ _ _ =>
    adjustDeposit_rulesOut (fun _ => rfl) (fun _ _ _ => rfl) (fun _ => rfl) a _

theorem release_rulesOut (a : Address) (n : Nat) :
    RulesOut HostFault.isShortage (release a n) h :=
  .bind (.ask (toDelta_rulesOut n)) fun _ _ _ =>
    adjustDeposit_rulesOut (fun _ => rfl) (fun _ _ _ => rfl) (fun _ => rfl) a _

end Host

def SettlementTerms.purse (t : SettlementTerms) (l : Ledger) : Nat :=
  match t.payer with
  | .account payer => l.balance payer
  | .escrow => l.moduleFunds t.moduleAccount

namespace Transfer

open Effect

variable {t : SettlementTerms} {w : World}

theorem creditShare_rulesOut (id : PermissionId) (a : Address) (n : Nat) :
    RulesOut Fault.isShortage (creditShare id a n) w := by
  refine .bind (.within (Host.commit_rulesOut a n)) fun _ _ _ => .change (.map ?_ _)
  exact .bind (.expect rfl) fun _ => .bind (.demand rfl) fun _ => .ok _

theorem creditExecutor_rulesOut (executor : Option PermissionId) (n : Nat) :
    RulesOut Fault.isShortage (creditExecutor executor n) w := by
  cases executor with
  | none => exact .pure ()
  | some id =>
    exact .ask_bind (.expect rfl) fun p _ => creditShare_rulesOut id p.grantee n

/-- A payout lacks no coins if its payer holds the amount. The share is collected after the direct
part is paid, and together they are the amount. -/
theorem payOut_rulesOut (b : Permission) {n : Nat} (hn : n ≤ t.purse w.host.ledger) :
    RulesOut Fault.isShortage (payOut t b n) w := by
  refine .ask_bind (.bind (.expect rfl) fun _ => .bind (.demand rfl) fun _ => .ok _)
    fun split hs => .bind (.unlessZero fun _ => ?_) fun _ w₁ h₁ =>
      .bind (.unlessZero fun _ => .bind ?_ fun _ _ _ =>
        .bind (creditShare_rulesOut b.id b.grantee _) fun _ _ _ =>
          creditExecutor_rulesOut t.executor _) fun _ _ _ => .ask (.ok _)
  · have hle : split.direct ≤ t.purse w.host.ledger := by
      have := (FeeShares.of_ok hs).2.1
      omega
    cases hp : t.payer with
    | account payer =>
      simp only [SettlementTerms.purse, hp] at hle
      exact .within (Host.send_rulesOut hle)
    | escrow =>
      simp only [SettlementTerms.purse, hp] at hle
      exact .within (Host.sendFromModule_rulesOut hle)
  · cases hp : t.payer with
    | account payer =>
      have hle : split.share ≤ w₁.host.ledger.balance payer := by
        have hparts := (FeeShares.of_ok hs).2.1
        obtain ⟨-, rfl⟩ := payDirect_ok h₁
        simp only [SettlementTerms.purse, hp, Ledger.balance_eq] at hn
        simp only [World.host_withLedger, Host.ledger_withLedger, SettlementTerms.direct, hp,
          Ledger.balance_eq, Ledger.sent, Table.amount_raised, Table.amount_lowered, if_true]
        omega
      simp only [collectShare, hp]
      exact .within (Host.sendToModule_rulesOut hle)
    | escrow =>
      simp only [collectShare, hp]
      exact .pure ()

end Transfer

namespace Transaction

open Effect

variable {e : Engine} {signer : Address} {now : Instant} {id : PermissionId} {p : Permission}

theorem payValidator_rulesOut
    (hp : p.escrowedFees ≤ e.host.ledger.moduleFunds e.params.moduleAccount) :
    RulesOut Fault.isShortage (payValidator p) e := by
  unfold payValidator
  split
  · exact .pure 0
  · exact .ask_bind (.expect rfl) fun v _ =>
      .ask_bind (.expect rfl) fun validator _ => .get_bind <|
        .bind (.within (Transfer.payOut_rulesOut validator hp)) fun _ _ _ =>
          .bind (.update _) fun _ _ _ => .pure _

theorem validate_rulesOut (terms : Terms)
    (hp : ∀ p, e.records.get? id = some p →
      p.escrowedFees ≤ e.host.ledger.moduleFunds e.params.moduleAccount) :
    RulesOut Fault.isShortage (validate signer id terms now) e := by
  refine .ask_bind ((World.admitConsent_rulesOut ..).mono fun _ => Fault.isShortage_eq_false)
    fun (p, _) h => ?_
  have hf := hp p (World.admitConsent_ok h).1
  exact .bind (payValidator_rulesOut hf) fun _ _ _ => .ask_bind (.demand rfl) fun _ _ =>
    conclude_rulesOut ..

theorem cancel_rulesOut
    (hp : ∀ p, e.records.get? id = some p →
      p.escrowedFees ≤ e.host.ledger.moduleFunds e.params.moduleAccount) :
    RulesOut Fault.isShortage (cancel signer id now) e := by
  refine .ask_bind ((World.admitCancellation_rulesOut ..).mono fun _ => Fault.isShortage_eq_false)
    fun p h => ?_
  have hf := hp p (World.admitCancellation_ok h).1
  refine .bind (.unlessZero fun _ => .get_bind ?_) fun _ _ _ =>
    .bind (.unlessZero fun _ => .within (.within (Host.release_rulesOut ..))) fun _ _ _ =>
      conclude_rulesOut ..
  exact .within (.within (Host.sendFromModule_rulesOut hf))

end Transaction

end TrustPermit
