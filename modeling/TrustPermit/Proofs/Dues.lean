import TrustPermit.Proofs.Receipts

/-! # The amount due

An exchange is checked against one sum before anything is paid, and then pays in two transfers a
line. The sum is what the payer loses if it is paid nothing, in any order of the beneficiaries,
and at every point of the settlement it still holds what remains to be paid.
-/

namespace TrustPermit

def feesDue (kind : FeeKind) (unitPrice : Nat) (bs : List Permission) : Nat :=
  (bs.map fun b => b.fees.of kind * unitPrice).sum

section Sum

variable {kind : FeeKind} {unitPrice total n : Nat} {b : Permission} {bs order : List Permission}

theorem addDue_eq_ok_iff : addDue kind unitPrice total b = .ok n ↔
    total + b.fees.of kind * unitPrice = n ∧ n < amountBound := by
  simp only [addDue, feeInDenom, Guard.bind_eq_ok_iff, Guard.demand_eq_ok_iff,
    Guard.pure_eq_ok_iff]
  constructor
  · rintro ⟨_, ⟨_, -, rfl⟩, _, hn, rfl⟩
    exact ⟨rfl, hn⟩
  · rintro ⟨rfl, hn⟩
    exact ⟨_, ⟨(), by omega, rfl⟩, (), hn, rfl⟩

theorem amountDue_eq_ok_iff :
    amountDue kind unitPrice bs = .ok n ↔ feesDue kind unitPrice bs = n ∧ n < amountBound := by
  suffices h : ∀ total, total < amountBound → (bs.foldlM (addDue kind unitPrice) total = .ok n ↔
      total + feesDue kind unitPrice bs = n ∧ n < amountBound) by
    simpa [amountDue] using h 0 (by decide)
  intro total ht
  induction bs generalizing total with
  | nil =>
    simp only [List.foldlM_nil, Guard.pure_eq_ok_iff, feesDue, List.map_nil, List.sum_nil,
      Nat.add_zero]
    exact ⟨fun h => ⟨h, h ▸ ht⟩, And.left⟩
  | cons b rest ih =>
    simp only [List.foldlM_cons, Guard.bind_eq_ok_iff, addDue_eq_ok_iff, feesDue, List.map_cons,
      List.sum_cons] at ih ⊢
    constructor
    · rintro ⟨_, ⟨rfl, hb⟩, h⟩
      obtain ⟨hn, hlt⟩ := (ih _ hb).mp h
      exact ⟨by omega, hlt⟩
    · rintro ⟨hn, hlt⟩
      have hb : total + b.fees.of kind * unitPrice < amountBound := by omega
      exact ⟨_, ⟨rfl, hb⟩, (ih _ hb).mpr ⟨by omega, hlt⟩⟩

theorem feesDue_perm (h : order.Perm bs) :
    feesDue kind unitPrice order = feesDue kind unitPrice bs :=
  (h.map _).sum_eq

theorem feesDue_filter :
    feesDue kind unitPrice (bs.filter (·.fees.of kind ≠ 0)) = feesDue kind unitPrice bs := by
  induction bs with
  | nil => rfl
  | cons b rest ih =>
    by_cases hz : b.fees.of kind = 0 <;> simp_all [feesDue]

end Sum

theorem SettlementTerms.Reports.purse_le {t : SettlementTerms} {w : World} {b : Permission}
    {line : Payout} (h : t.Reports w b line) : t.purse w.host.ledger ≤
      t.purse (w.paid t b line.split).host.ledger + line.split.fee := by
  rw [← h.parts]
  cases hp : t.payer with
  | account payer =>
    have hpaid := World.balance_paid_payer hp h.funds
    simp only [purse, hp]
    omega
  | escrow =>
    have hpaid := World.moduleFunds_paid_escrow hp h.funds t.moduleAccount
    rw [if_pos rfl] at hpaid
    simp only [purse, hp]
    omega

namespace Transfer

open Effect

variable {t : SettlementTerms} {bs : List Permission} {w w' : World} {r : Receipt}

/-- What each line shares with its beneficiary, the lines share with those who have a fee. -/
theorem settle_map {α : Type} (h : settle t bs w = .ok r w') (f : Payout → α)
    (g : Permission → α) (hfg : ∀ b line, t.Pays b line → f line = g b) :
    r.lines.map f = (bs.filter (·.fees.of t.kind ≠ 0)).map g := by
  have hp := settle_pays h
  generalize r.lines = lines, bs.filter (·.fees.of t.kind ≠ 0) = payees at hp ⊢
  induction hp with
  | nil => rfl
  | cons hb _ ih => rw [List.map_cons, List.map_cons, hfg _ _ hb, ih]

theorem settle_charged (h : settle t bs w = .ok r w') :
    r.charged = feesDue t.kind t.unitPrice bs := by
  rw [Receipt.charged, Receipt.total_eq, settle_map h _ _ fun _ _ hp => hp.fee]
  exact feesDue_filter

theorem settle_parts (h : settle t bs w = .ok r w') :
    r.direct + r.shared = feesDue t.kind t.unitPrice bs := by
  have hsum := settle_map h (fun line => line.split.direct + line.split.share) _
    fun _ _ hp => hp.parts.symm.trans hp.fee
  rw [Receipt.direct, Receipt.shared, Receipt.total_eq, Receipt.total_eq, ← List.sum_map_add, hsum]
  exact feesDue_filter

theorem settle_totalOf_eq_zero (h : settle t bs w = .ok r w') {a : Address}
    (ha : ∀ b ∈ bs, b.grantee ≠ a) (part : FeeShares → Nat) :
    r.totalOf (·.grantee = a) part = 0 := by
  refine List.sum_eq_zero ?_
  intro n hn
  obtain ⟨line, hl, rfl⟩ := List.mem_map.mp hn
  have hm : line.grantee ∈ r.lines.map (·.grantee) := List.mem_map_of_mem hl
  rw [settle_map h _ _ fun _ _ hp => hp.grantee] at hm
  obtain ⟨b, hb, hg⟩ := List.mem_map.mp hm
  exact if_neg fun heq => ha b (List.mem_of_mem_filter hb) (hg.trans heq)

/-- A payer that holds the fees of all beneficiaries lacks no coins on the way. -/
theorem payOutAll_rulesOut (h : feesDue t.kind t.unitPrice bs ≤ t.purse w.host.ledger) :
    RulesOut Fault.isShortage (payOutAll t bs) w := by
  induction bs generalizing w with
  | nil => exact .pure _
  | cons b rest ih =>
    have hcons : feesDue t.kind t.unitPrice (b :: rest) =
        b.fees.of t.kind * t.unitPrice + feesDue t.kind t.unitPrice rest := rfl
    by_cases hf : b.fees.of t.kind = 0
    · simp only [payOutAll, hf, if_true]
      exact ih (by omega)
    · simp only [payOutAll, hf, if_false]
      refine .ask_bind (.bind (.demand rfl) fun _ => .ok _) fun amount ha => ?_
      simp only [feeInDenom, Guard.bind_eq_ok_iff, Guard.pure_eq_ok_iff] at ha
      obtain ⟨_, -, rfl⟩ := ha
      refine .bind (payOut_rulesOut b (by omega)) fun line w₁ h₁ =>
        .bind (ih ?_) fun _ _ _ => .pure _
      have hpurse := (payOut_reports h₁).purse_le
      obtain ⟨hs, -, -, -, -, rfl⟩ := payOut_ok h₁
      have hfee := (FeeShares.of_ok hs).1
      omega

theorem settle_rulesOut (h : feesDue t.kind t.unitPrice bs ≤ t.purse w.host.ledger) :
    RulesOut Fault.isShortage (settle t bs) w :=
  .bind (payOutAll_rulesOut h) fun _ _ _ => .pure _

end Transfer

/-- A payer that holds the amount due does not run short of coins, in whatever order the
beneficiaries are paid and whoever they are. A settlement charges the amount due, all its parts
included. A payer who holds less and is not among the beneficiaries cannot settle. -/
theorem settlement_needs_amount_due {t : SettlementTerms} {payer : Address}
    (hp : t.payer = .account payer) {bs order : List Permission} (ho : order.Perm bs) {n : Nat}
    (hn : amountDue t.kind t.unitPrice bs = .ok n) (w : World) :
    (n ≤ w.host.ledger.balance payer → ∀ account required available w',
      Transfer.settle t order w ≠
        .error (.host (.insufficientBalance account required available)) w') ∧
    (∀ r w', Transfer.settle t order w = .ok r w' →
      r.charged = n ∧ r.direct + r.shared = n ∧ n < amountBound) ∧
    ((∀ b ∈ bs, b.grantee ≠ payer) → w.host.ledger.balance payer < n →
      ∃ f w', Transfer.settle t order w = .error f w') := by
  obtain ⟨hdue, hbound⟩ := amountDue_eq_ok_iff.mp hn
  rw [← feesDue_perm ho] at hdue
  refine ⟨?_, ?_, ?_⟩
  · intro hle account required available w' h
    have hpurse : feesDue t.kind t.unitPrice order ≤ t.purse w.host.ledger := by
      simpa only [SettlementTerms.purse, hp, hdue] using hle
    cases (Transfer.settle_rulesOut hpurse).of_error h
  · intro r w' h
    exact ⟨(Transfer.settle_charged h).trans hdue, (Transfer.settle_parts h).trans hdue, hbound⟩
  · intro hout hlt
    cases h : Transfer.settle t order w with
    | error f w' => exact ⟨f, w', rfl⟩
    | ok r w' =>
      have hpaid := Transfer.settle_balance_payer h hp
      rw [Transfer.settle_charged h, hdue, Transfer.settle_totalOf_eq_zero h fun b hb =>
        hout b (ho.mem_iff.mp hb)] at hpaid
      omega

/-- Whoever holds 80 coins can pay the three permissions in any order, and the governor, who has
none, cannot. -/
theorem settlement_needs_amount_due_reversed :
    (∀ account required available w', Transfer.settle Sample.ownTerms
        (Sample.engine.run Sample.founding).records.permissions.values.reverse
        (Sample.engine.run Sample.founding).toWorld ≠
      .error (.host (.insufficientBalance account required available)) w') ∧
    ∃ f w', Transfer.settle { Sample.ownTerms with payer := .account Sample.governor }
        (Sample.engine.run Sample.founding).records.permissions.values
        (Sample.engine.run Sample.founding).toWorld = .error f w' := by
  have hdue : amountDue .issuance 1
      (Sample.engine.run Sample.founding).records.permissions.values = .ok 80 := by
    decide +kernel
  constructor
  · have hown := settlement_needs_amount_due (t := Sample.ownTerms) rfl (List.reverse_perm _) hdue
      (Sample.engine.run Sample.founding).toWorld
    exact hown.1 (by decide +kernel)
  · have hpoor := settlement_needs_amount_due
      (t := { Sample.ownTerms with payer := .account Sample.governor }) rfl (.refl _) hdue
      (Sample.engine.run Sample.founding).toWorld
    exact hpoor.2.2 (by decide +kernel) (by decide +kernel)

end TrustPermit
