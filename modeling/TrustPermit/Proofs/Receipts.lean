import TrustPermit.Proofs.Coins
import TrustPermit.Proofs.Solvency

/-! # What a receipt accounts for

A settlement moves coins and raises deposits line by line, and the payer, the executor and the
beneficiaries may coincide. A payout changes every account and every row by amounts of its line,
so a settlement changes them by sums over the lines of its receipt.
-/

namespace TrustPermit

/-- A line reports a payout that succeeded in a world. -/
structure SettlementTerms.Reports (t : SettlementTerms) (w : World) (b : Permission)
    (line : Payout) : Prop where
  beneficiary : line.beneficiary = b.id
  grantee : line.grantee = b.grantee
  parts : line.split.direct + line.split.share = line.split.fee
  funds : t.Funds w.host.ledger b.grantee line.split
  executor : line.split.share ≠ 0 → t.executor.isSome → (w.executorGrantee t).isSome

theorem Transfer.payOut_reports {t : SettlementTerms} {w w' : World} {b : Permission} {n : Nat}
    {line : Payout} (h : payOut t b n w = .ok line w') : t.Reports w b line := by
  obtain ⟨hs, hb, hg, -, hx, -⟩ := payOut_ok h
  obtain ⟨hfee, hparts, -⟩ := FeeShares.of_ok hs
  exact ⟨hb, hg, hparts.trans hfee.symm, payOut_funds h, hx⟩

namespace World

variable {w : World} {t : SettlementTerms} {payer : Address}

@[simp] theorem executorGrantee_paid (w : World) (t : SettlementTerms) (b : Permission)
    (split : FeeShares) : (w.paid t b split).executorGrantee t = w.executorGrantee t := by
  unfold executorGrantee
  cases t.executor with
  | none => rfl
  | some id =>
    simp only [Option.bind_some, paid, shared, records_withLedger, Records.get?_raisedBy,
      Option.map_map]
    rfl

theorem deposit_paid (b : Permission) (split : FeeShares) (a : Address) :
    (w.paid t b split).host.ledger.deposit a = w.host.ledger.deposit a +
      ((if a = b.grantee then split.share else 0) +
        if w.executorGrantee t = some a then split.share else 0) := by
  have hx : ∀ l, (w.withLedger l).executorGrantee t = w.executorGrantee t := fun _ => rfl
  simp only [paid, shared, host_withLedger, Host.ledger_withLedger, Ledger.deposit_committedTo,
    Ledger.deposit_committed, SettlementTerms.deposit_collect, SettlementTerms.deposit_direct, hx,
    Nat.add_assoc]

theorem balance_paid_payer (hp : t.payer = .account payer) {b : Permission} {split : FeeShares}
    (h : t.Funds w.host.ledger b.grantee split) :
    (w.paid t b split).host.ledger.balance payer + (split.direct + split.share) =
      w.host.ledger.balance payer + if payer = b.grantee then split.direct else 0 := by
  have hd := h.direct hp
  have hs := h.share hp
  simp only [paid, shared, host_withLedger, Host.ledger_withLedger, Ledger.balance_committedTo,
    Ledger.balance_committed, SettlementTerms.collect, SettlementTerms.direct, hp] at hs ⊢
  rw [Ledger.balance_eq] at hd
  simp only [Ledger.balance_eq, Ledger.sent, Ledger.collected, Table.amount_raised,
    Table.amount_lowered, if_true] at hs ⊢
  by_cases hg : payer = b.grantee
  · simp only [if_pos hg] at hs ⊢
    omega
  · simp only [if_neg hg] at hs ⊢
    omega

theorem moduleFunds_paid_account (hp : t.payer = .account payer) (b : Permission)
    (split : FeeShares) (m : String) :
    (w.paid t b split).host.ledger.moduleFunds m = w.host.ledger.moduleFunds m +
      if m = t.moduleAccount then split.share else 0 := by
  simp only [paid, shared, host_withLedger, Host.ledger_withLedger, SettlementTerms.collect,
    SettlementTerms.direct, hp, Ledger.moduleFunds_committedTo, Ledger.moduleFunds_committed,
    Ledger.moduleFunds_collected, Ledger.moduleFunds_sent]

theorem moduleFunds_paid_escrow (hp : t.payer = .escrow) {b : Permission} {split : FeeShares}
    (h : t.Funds w.host.ledger b.grantee split) (m : String) :
    ((w.paid t b split).host.ledger.moduleFunds m +
      if m = t.moduleAccount then split.direct else 0) = w.host.ledger.moduleFunds m := by
  have hc := h.escrow hp
  simp only [paid, shared, host_withLedger, Host.ledger_withLedger, SettlementTerms.collect,
    SettlementTerms.direct, hp, Ledger.moduleFunds_committedTo, Ledger.moduleFunds_committed,
    Ledger.moduleFunds_refunded]
  split
  · rename_i hm
    subst hm
    exact Nat.sub_add_cancel hc
  · rfl

end World

namespace Receipt

def totalOf (r : Receipt) (which : Payout → Prop) [DecidablePred which]
    (part : FeeShares → Nat) : Nat :=
  (r.lines.map fun line => if which line then part line.split else 0).sum

end Receipt

namespace Transfer

variable {t : SettlementTerms} {bs : List Permission} {w w' : World} {r : Receipt}

/-- What each payout adds to a quantity and takes from it, the settlement does line by line. -/
theorem settle_sum (q : World → Nat) (gain loss : Payout → Nat)
    (hq : ∀ w₁ b line, w₁.executorGrantee t = w.executorGrantee t → t.Reports w₁ b line →
      q (w₁.paid t b line.split) + loss line = q w₁ + gain line)
    (h : settle t bs w = .ok r w') :
    q w' + (r.lines.map loss).sum = q w + (r.lines.map gain).sum := by
  simp only [settle, Effect.bind_eq_ok_iff, Effect.pure_eq_ok_iff] at h
  obtain ⟨lines, _, h, rfl, rfl⟩ := h
  simp only
  induction bs generalizing w lines with
  | nil =>
    obtain ⟨rfl, rfl⟩ := Effect.pure_eq_ok_iff.mp h
    rfl
  | cons b rest ih =>
    rcases payOutAll_cons_ok h with ⟨-, h⟩ | ⟨-, line, w₁, tail, h₁, h₂, rfl⟩
    · exact ih hq lines h
    · have hline := hq w b line rfl (payOut_reports h₁)
      obtain ⟨-, -, -, -, -, rfl⟩ := payOut_ok h₁
      have hrest := ih (fun w₁ b line hx => hq w₁ b line (hx.trans (w.executorGrantee_paid ..)))
        tail h₂
      simp only [List.map_cons, List.sum_cons]
      omega

theorem settle_gain (q : World → Nat) (gain : Payout → Nat)
    (hq : ∀ w₁ b line, w₁.executorGrantee t = w.executorGrantee t → t.Reports w₁ b line →
      q (w₁.paid t b line.split) = q w₁ + gain line)
    (h : settle t bs w = .ok r w') : q w' = q w + (r.lines.map gain).sum := by
  have hsum := settle_sum q gain (fun _ => 0) hq h
  simpa using hsum

theorem settle_balance_payer (h : settle t bs w = .ok r w') {payer : Address}
    (hp : t.payer = .account payer) :
    w'.host.ledger.balance payer + r.charged =
      w.host.ledger.balance payer + r.totalOf (·.grantee = payer) (·.direct) := by
  rw [Receipt.charged, Receipt.total_eq]
  refine settle_sum (·.host.ledger.balance payer) _ (·.split.fee) ?_ h
  intro w₁ b line _ hr
  simp only [← hr.parts, World.balance_paid_payer hp hr.funds, hr.grantee, eq_comm]

theorem settle_moduleFunds (h : settle t bs w = .ok r w') {payer : Address}
    (hp : t.payer = .account payer) (m : String) :
    w'.host.ledger.moduleFunds m =
      w.host.ledger.moduleFunds m + if m = t.moduleAccount then r.shared else 0 := by
  rw [settle_gain (·.host.ledger.moduleFunds m)
    (fun line => if m = t.moduleAccount then line.split.share else 0) ?_ h]
  · rw [Receipt.shared_eq]
    split <;> simp
  · intro w₁ b line _ hr
    exact World.moduleFunds_paid_account hp b line.split m

end Transfer

namespace Settles

variable {t : SettlementTerms} {bs : List Permission} {w w' : World} {lines : List Payout}

theorem records (h : Settles t bs w lines w') : w'.records = w.records.raisedBy fun id =>
    (lines.map fun line => if line.beneficiary = id then line.split.share else 0).sum +
      if t.executor = some id then (lines.map (·.split.share)).sum else 0 := by
  induction h with
  | nil => simp
  | skip _ _ ih => exact ih
  | pay _ hb _ _ _ _ ih =>
    refine ih.trans ((Records.raisedBy_raisedBy ..).trans ?_)
    congr 1
    funext id
    simp only [SettlementTerms.credits, hb, eq_comm (a := id), List.map_cons, List.sum_cons]
    by_cases hx : t.executor = some id
    · simp only [if_pos hx]
      omega
    · simp only [if_neg hx, Nat.add_zero]

end Settles

/-- A line pays a beneficiary its fee, of which the part at the rate, rounded down, is the
share. -/
structure SettlementTerms.Pays (t : SettlementTerms) (b : Permission) (line : Payout) : Prop where
  beneficiary : line.beneficiary = b.id
  grantee : line.grantee = b.grantee
  fee : line.split.fee = b.fees.of t.kind * t.unitPrice
  parts : line.split.fee = line.split.direct + line.split.share
  share : line.split.share = line.split.fee * t.depositRate.scaled / Rate.scale

namespace Transfer

variable {t : SettlementTerms} {bs : List Permission} {w w' : World}

theorem payOut_pays {b : Permission} {line : Payout}
    (h : payOut t b (b.fees.of t.kind * t.unitPrice) w = .ok line w') : t.Pays b line := by
  obtain ⟨hs, hb, hg, -⟩ := payOut_ok h
  obtain ⟨hfee, hparts, hp⟩ := FeeShares.of_ok hs
  refine ⟨hb, hg, hfee, hfee.trans hparts.symm, ?_⟩
  rw [hfee]
  exact (Rate.portion?_eq_some_iff.mp hp).2.2

theorem settle_pays {r : Receipt} (h : settle t bs w = .ok r w') :
    List.Forall₂ t.Pays (bs.filter (·.fees.of t.kind ≠ 0)) r.lines := by
  simp only [settle, Effect.bind_eq_ok_iff, Effect.pure_eq_ok_iff] at h
  obtain ⟨lines, _, h, rfl, rfl⟩ := h
  simp only
  induction bs generalizing w lines with
  | nil =>
    obtain ⟨rfl, -⟩ := Effect.pure_eq_ok_iff.mp h
    exact .nil
  | cons b rest ih =>
    rcases payOutAll_cons_ok h with ⟨hf, h⟩ | ⟨hf, line, w₁, tail, h₁, h₂, rfl⟩
    · simpa [hf] using ih lines h
    · rw [List.filter_cons_of_pos (by simpa using hf)]
      exact .cons (payOut_pays h₁) (ih tail h₂)

end Transfer

def Sample.ownTerms : SettlementTerms :=
  (engine.run founding).terms .issuance (.account grantor) (some 2)

end TrustPermit
