import TrustPermit.Proofs.Releases
import TrustPermit.Proofs.Solvency

/-! # Refunds

A cancelled request gives back what its row holds in escrow. The row knows the amounts, but the
module account and the denomination are those of the parameters in force. So new parameters can
leave a request without the coins that it is refunded from, and they never change what a refund
gives back.
-/

namespace TrustPermit

/-- The host can give back what was escrowed with a request: under these parameters there are coins
for the fee, and the trust deposit holds the rest. -/
structure World.CanReturn (w : World) (params : Params) (p : Permission) : Prop where
  fee : p.escrowedFees ≠ 0 → params.bondDenom = w.host.denom ∧
    p.escrowedFees ≤ w.host.ledger.moduleFunds params.moduleAccount ∧
    w.host.ledger.balance p.grantee + p.escrowedFees < amountBound
  deposit : p.escrowedDeposit ≠ 0 → p.escrowedDeposit < deltaBound ∧ p.grantee ∉ w.host.frozen ∧
    p.escrowedDeposit ≤ w.host.ledger.deposit p.grantee ∧
    w.host.ledger.claim p.grantee + p.escrowedDeposit < amountBound

theorem World.CanReturn.iff_of_other {w : World} {params other : Params} {p : Permission}
    (h : w.CanReturn params p) : w.CanReturn other p ↔
      (p.escrowedFees ≠ 0 → other.bondDenom = params.bondDenom ∧
        p.escrowedFees ≤ w.host.ledger.moduleFunds other.moduleAccount) := by
  constructor
  · intro ho hz
    obtain ⟨hd, -, -⟩ := h.fee hz
    obtain ⟨hd', hle, -⟩ := ho.fee hz
    exact ⟨hd'.trans hd.symm, hle⟩
  · intro ho
    refine ⟨?_, h.deposit⟩
    intro hz
    obtain ⟨hd, -, hfits⟩ := h.fee hz
    obtain ⟨hd', hle⟩ := ho hz
    exact ⟨hd'.trans hd, hle, hfits⟩

namespace Engine

/-- An account gets back what was escrowed: the fee out of the module account, and the deposit out
of the trust deposit, to be claimed. -/
structure GivesBack (e e' : Engine) (a : Address) (fee stake : Nat) : Prop where
  balance : e'.host.ledger.balance a = e.host.ledger.balance a + fee
  funds : e'.host.ledger.moduleFunds e.params.moduleAccount + fee =
    e.host.ledger.moduleFunds e.params.moduleAccount
  deposit : e'.host.ledger.deposit a + stake = e.host.ledger.deposit a
  claim : e'.host.ledger.claim a = e.host.ledger.claim a + stake

variable {e e' : Engine} {now : Instant} {signer : Address} {id : PermissionId} {p : Permission}
  {r : Response}

/-- The grantee takes a pending request back exactly if the host can return the escrow. -/
theorem accepts_cancel_iff (hc : Message.check ⟨p.grantee, .cancel id⟩ = .ok ())
    (hp : e.records.get? id = some p) : e.Accepts now ⟨p.grantee, .cancel id⟩ ↔
      p.state = .pending ∧ e.CanReturn e.params p := by
  constructor
  · intro ha
    obtain ⟨r, e', hd⟩ := accepts_iff.mp ha
    obtain ⟨p', hadmit, hfee, hdeposit, -, -⟩ :=
      Transaction.cancel_eq_ok_iff.mp (deliver_eq_ok_iff.mp hd).2
    obtain ⟨hp', -, hv⟩ := World.admitCancellation_eq_ok_iff.mp hadmit
    cases hp.symm.trans hp'
    exact ⟨hv, hfee, hdeposit⟩
  · rintro ⟨hv, hfee, hdeposit⟩
    have hadmit := World.admitCancellation_eq_ok_iff.mpr ⟨hp, rfl, hv⟩
    exact accepts_iff.mpr ⟨_, _, deliver_eq_ok_iff.mpr
      ⟨hc, Transaction.cancel_eq_ok_iff.mpr ⟨p, hadmit, hfee, hdeposit, rfl, rfl⟩⟩⟩

theorem deliver_cancel (hp : e.records.get? id = some p)
    (hd : e.deliver now ⟨signer, .cancel id⟩ = (.ok r, e')) :
    signer = p.grantee ∧ p.state = .pending ∧
      e.GivesBack e' p.grantee p.escrowedFees p.escrowedDeposit ∧
      e'.records = e.records.insert (p.cancelled signer now) := by
  cases deliver_ok hd with
  | cancel ha hfee hdeposit =>
    obtain ⟨hp', hs, hv⟩ := World.admitCancellation_eq_ok_iff.mp ha
    cases hp.symm.trans hp'
    refine ⟨hs, hv, ⟨?_, ?_, ?_, ?_⟩, rfl⟩
    · simp
    · simpa using Nat.sub_add_cancel hfee
    · simpa using Nat.sub_add_cancel hdeposit
    · simp

theorem get?_of_cancel (hs : e.records.Sound) (hp : e.records.get? id = some p)
    (hd : e.deliver now ⟨signer, .cancel id⟩ = (.ok r, e')) :
    e'.records.get? id = some (p.cancelled signer now) := by
  obtain ⟨-, -, -, hrecords⟩ := deliver_cancel hp hd
  have hid : id = (p.cancelled signer now).id := by
    rw [(Permission.SameOrigin.cancelled p signer now).id, hs.id_eq hp]
  rw [hrecords, Records.get?_insert, if_pos hid]

theorem deliver_setParams {params : Params}
    (hd : e.deliver now ⟨signer, .setParams params⟩ = (.ok r, e')) :
    e'.toWorld = e.toWorld ∧ e'.params = params := by
  cases deliver_ok hd with
  | setParams => exact ⟨rfl, rfl⟩

end Engine

/-- A request that could be taken back can be taken back under new parameters exactly if it holds no
fee, or if the denomination stays and the module account that is named now holds the fee. It can if
the parameters keep both, whatever else they change. The refund, wherever there is one, gives back
the fee and the deposit that it would have given back before, and leaves the same records. -/
theorem cancellation_survives_update_iff {e : Engine} {id : PermissionId} {p : Permission}
    (hp : e.records.get? id = some p) {now : Instant} {r₁ : Response} {e₁ : Engine}
    (hd : e.deliver now ⟨p.grantee, .cancel id⟩ = (.ok r₁, e₁))
    {later : Instant} {governor : Address} {params : Params} {r : Response} {e' : Engine}
    (hu : e.deliver later ⟨governor, .setParams params⟩ = (.ok r, e')) :
    (e'.Accepts now ⟨p.grantee, .cancel id⟩ ↔
      (p.escrowedFees ≠ 0 → params.bondDenom = e.params.bondDenom ∧
        p.escrowedFees ≤ e.host.ledger.moduleFunds params.moduleAccount)) ∧
    (params.bondDenom = e.params.bondDenom → params.moduleAccount = e.params.moduleAccount →
      e'.Accepts now ⟨p.grantee, .cancel id⟩) ∧
    e.GivesBack e₁ p.grantee p.escrowedFees p.escrowedDeposit ∧
    ∀ r₂ e₂, e'.deliver now ⟨p.grantee, .cancel id⟩ = (.ok r₂, e₂) →
      e'.GivesBack e₂ p.grantee p.escrowedFees p.escrowedDeposit ∧ e₂.records = e₁.records := by
  obtain ⟨hw, rfl⟩ := Engine.deliver_setParams hu
  have hp' : e'.records.get? id = some p := by rw [hw, hp]
  have hcheck := (Engine.deliver_eq_ok_iff.mp hd).1
  obtain ⟨-, hv, hback, hrecords⟩ := Engine.deliver_cancel hp hd
  have hcan : e.CanReturn e.params p :=
    ((Engine.accepts_cancel_iff hcheck hp).mp (Engine.accepts_iff.mpr ⟨r₁, e₁, hd⟩)).2
  have hiff : e'.Accepts now ⟨p.grantee, .cancel id⟩ ↔
      (p.escrowedFees ≠ 0 → e'.params.bondDenom = e.params.bondDenom ∧
        p.escrowedFees ≤ e.host.ledger.moduleFunds e'.params.moduleAccount) := by
    rw [Engine.accepts_cancel_iff hcheck hp', hw, hcan.iff_of_other, and_iff_right hv]
  refine ⟨hiff, ?_, hback, ?_⟩
  · intro hdenom haccount
    refine hiff.mpr fun hz => ⟨hdenom, ?_⟩
    rw [haccount]
    exact (hcan.fee hz).2.1
  · intro r₂ e₂ hd₂
    obtain ⟨-, -, hback₂, hrecords₂⟩ := Engine.deliver_cancel hp' hd₂
    exact ⟨hback₂, by rw [hrecords₂, hrecords, hw]⟩

def Sample.awaiting : Engine :=
  (engine.run founding).step (signed issuer (.start ⟨.issuerGrantor, 1, did, none⟩))

def Sample.newRate : Params := { newParams with moduleAccount := "perm" }

/-- With another rate of the deposits the request is taken back as before. -/
theorem cancellation_survives_update_iff_rate :
    ∃ r₁ e₁ r e' r₂ e₂,
      Sample.awaiting.deliver Sample.noon ⟨Sample.issuer, .cancel 4⟩ = (.ok r₁, e₁) ∧
      Sample.awaiting.deliver Sample.noon ⟨Sample.governor, .setParams Sample.newRate⟩ =
        (.ok r, e') ∧
      e'.deliver Sample.noon ⟨Sample.issuer, .cancel 4⟩ = (.ok r₂, e₂) ∧
      e'.GivesBack e₂ Sample.issuer 100 20 ∧ e₂.records = e₁.records := by
  have hrow : (Sample.awaiting.records.get? 4).map
      (fun p => (p.grantee, p.escrowedFees, p.escrowedDeposit)) =
        some (Sample.issuer, 100, 20) := by decide +kernel
  have hcancel : Sample.awaiting.Accepts Sample.noon ⟨Sample.issuer, .cancel 4⟩ := by
    decide +kernel
  have hupdate : Sample.awaiting.Accepts Sample.noon
      ⟨Sample.governor, .setParams Sample.newRate⟩ := by decide +kernel
  have hdenom : Sample.newRate.bondDenom = Sample.awaiting.params.bondDenom := by decide +kernel
  have haccount : Sample.newRate.moduleAccount = Sample.awaiting.params.moduleAccount := by
    decide +kernel
  obtain ⟨p, hp, hfacts⟩ := Option.map_eq_some_iff.mp hrow
  obtain ⟨r₁, e₁, hd⟩ := Engine.accepts_iff.mp hcancel
  obtain ⟨r, e', hu⟩ := Engine.accepts_iff.mp hupdate
  simp only [Prod.mk.injEq] at hfacts
  obtain ⟨hg, hfee, hdeposit⟩ := hfacts
  obtain ⟨-, hkeeps, -, hback⟩ := cancellation_survives_update_iff hp (by rw [hg, hd]) hu
  obtain ⟨r₂, e₂, hd₂⟩ := Engine.accepts_iff.mp (hkeeps hdenom haccount)
  obtain ⟨hgives, hrecords⟩ := hback r₂ e₂ hd₂
  rw [hg] at hd₂
  rw [hg, hfee, hdeposit] at hgives
  exact ⟨r₁, e₁, r, e', r₂, e₂, hd, hu, hd₂, hgives, hrecords⟩

/-- Once the parameters name a module account without coins, the request that could be taken back
cannot be. -/
theorem update_strands_request :
    Sample.host.ledger.HoldsOnlyBalances ∧
      Engine.new Sample.host .standard Sample.governor = .ok Sample.engine ∧
      (Sample.awaiting.records.get? 4).map (fun p => (p.state, p.grantee, p.escrowedFees)) =
        some (.pending, Sample.issuer, 100) ∧
      Sample.awaiting.Accepts Sample.noon ⟨Sample.issuer, .cancel 4⟩ ∧
      Sample.awaiting.Accepts Sample.noon ⟨Sample.governor, .setParams Sample.newParams⟩ ∧
      ((Sample.awaiting.step (Sample.signed Sample.governor
          (.setParams Sample.newParams))).deliver Sample.noon ⟨Sample.issuer, .cancel 4⟩).1 =
        .error (.host (.insufficientBalance "vault" 100 0)) := by
  refine ⟨Sample.host_holds, Sample.engine_new, ?_⟩
  decide +kernel

end TrustPermit
