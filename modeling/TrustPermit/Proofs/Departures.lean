import TrustPermit.Proofs.Denominations
import TrustPermit.Proofs.Overdrafts
import TrustPermit.Proofs.Solvency

/-! # Ways out

An applicant takes a request back, and a holder leaves with the consent of its validator. Both end
in releases from trust deposits, and nothing else can refuse them: the escrow is there, and every
amount fits. Slashes burn what they release, and can shut the way out.
-/

namespace TrustPermit

namespace Engine

/-- Only the trust deposits can stand in the way of a release: rows and escrow are in order, no
account is frozen, and every amount fits. -/
structure Unobstructed (e : Engine) : Prop where
  sound : e.records.Sound
  covered : e.records.Covered
  rooted : e.Rooted
  escrow : e.CoversEscrow e.params.moduleAccount
  denominated : e.Denominated
  unfrozen : e.host.frozen = []
  small : ∀ id p, e.records.get? id = some p → p.deposit < deltaBound
  fits : e.host.ledger.balances.sum + e.host.ledger.modules.sum + e.host.ledger.deposits.sum +
    e.host.ledger.claimable.sum < amountBound

namespace Unobstructed

variable {e : Engine} {id : PermissionId} {p : Permission} {a : Address}

theorem stake_lt (h : e.Unobstructed) (a : Address) : e.host.ledger.stake a < amountBound := by
  have hd : e.host.ledger.deposit a ≤ e.host.ledger.deposits.sum := Table.amount_le_sum _ a
  have hc : e.host.ledger.claim a ≤ e.host.ledger.claimable.sum := Table.amount_le_sum _ a
  have hf := h.fits
  unfold Ledger.stake
  omega

theorem balance_add_moduleFunds_lt (h : e.Unobstructed) (a : Address) (m : String) :
    e.host.ledger.balance a + e.host.ledger.moduleFunds m < amountBound := by
  have hb : e.host.ledger.balance a ≤ e.host.ledger.balances.sum := Table.amount_le_sum _ a
  have hm : e.host.ledger.moduleFunds m ≤ e.host.ledger.modules.sum := Table.amount_le_sum _ m
  have hf := h.fits
  omega

theorem hasRoom (h : e.Unobstructed) : e.HasRoom := ⟨h.unfrozen, h.small, h.stake_lt⟩

theorem accepts_confirm_iff (h : e.Unobstructed) (hp : e.records.get? id = some p)
    (hr : p.state = .terminationRequested) (ha : e.authorityOver p = .ok a) (now : Instant) :
    e.Accepts now ⟨a, .confirmTermination id⟩ ↔ e.host.ledger.Affords p a := by
  constructor
  · intro hacc
    obtain ⟨r, e', hd⟩ := accepts_iff.mp hacc
    cases deliver_ok hd with
    | confirmTermination ha' hl =>
      obtain ⟨hp', -, -⟩ := World.admitTermination_eq_ok_iff.mp ha'
      cases hp.symm.trans hp'
      exact hl
  · intro hl
    obtain ⟨e', hd, -⟩ := h.hasRoom.deliver_confirm h.sound h.covered hp ha hr hl now
    exact accepts_iff.mpr ⟨.empty, e', hd⟩

theorem accepts_cancel_iff (h : e.Unobstructed) (hp : e.records.get? id = some p)
    (hr : p.state = .pending) (now : Instant) : e.Accepts now ⟨p.grantee, .cancel id⟩ ↔
      p.escrowedDeposit ≤ e.host.ledger.deposit p.grantee := by
  constructor
  · intro hacc
    obtain ⟨r, e', hd⟩ := accepts_iff.mp hacc
    generalize hs : p.grantee = signer at hd
    cases deliver_ok hd with
    | cancel ha _ hle =>
      obtain ⟨hp', -, -⟩ := World.admitCancellation_eq_ok_iff.mp ha
      cases hp.symm.trans hp'
      exact hs ▸ hle
  · intro hle
    have hcheck : Message.check ⟨p.grantee, .cancel id⟩ = .ok () := by
      simp [Message.check, Message.requireGiven, h.sound.id_ne_zero hp]
    refine accepts_iff.mpr ⟨.empty, _, deliver_eq_ok_iff.mpr ⟨hcheck,
      Transaction.cancel_eq_ok_iff.mpr
        ⟨p, World.admitCancellation_eq_ok_iff.mpr ⟨hp, rfl, hr⟩, fun hn => ?_, fun _ => ?_,
          rfl, rfl⟩⟩⟩
    · have hfees := h.escrow.fees_le hp
      have hfit := h.balance_add_moduleFunds_lt p.grantee e.params.moduleAccount
      exact ⟨h.denominated id p hp hn, hfees, by omega⟩
    · have hcov := h.covered id p hp
      have hsmall := h.small id p hp
      have hfit := h.stake_lt p.grantee
      unfold Ledger.stake at hfit
      rw [h.unfrozen]
      exact ⟨by omega, List.not_mem_nil, hle, by omega⟩

end Unobstructed

/-- Nothing but the trust deposits stands in the way after a run that keeps the surroundings. -/
theorem run_unobstructed {host : Host} {params : Params} {authority : Address} {e : Engine}
    (hn : new host params authority = .ok e) {steps : List Step}
    (hd : e.Along KeepsDirectory steps) (hm : e.Along KeepsModuleAccount steps)
    (hc : e.Along KeepsDenom steps) (hz : (e.run steps).host.frozen = [])
    (hi : ∀ id p, (e.run steps).records.get? id = some p → p.deposit < deltaBound)
    (hu : (e.run steps).host.ledger.balances.sum + (e.run steps).host.ledger.modules.sum +
      (e.run steps).host.ledger.deposits.sum + (e.run steps).host.ledger.claimable.sum <
        amountBound) : (e.run steps).Unobstructed := by
  have h₀ : e.CoversEscrow e.params.moduleAccount ∧ e.Denominated := by
    refine ⟨?_, new_rows hn⟩
    obtain ⟨-, rfl⟩ := new_eq_ok_iff.mp hn
    exact Nat.zero_le _
  obtain ⟨he, hroot, hesc, hden⟩ := run_along
    (P := fun e => (e.records.Sound ∧ e.records.Covered) ∧ e.Rooted ∧
      e.CoversEscrow e.params.moduleAccount ∧ e.Denominated) ⟨new_covered hn, new_rooted hn, h₀⟩
    (fun e s ⟨he, hroot, hesc, hden⟩ ⟨⟨hd, hm⟩, hc⟩ => ⟨step_covered he, step_rooted he.1 hroot hd,
      step_coversEscrow he.1 hesc hm, step_denominated he.1 hden hc⟩) ((hd.and hm).and hc)
  exact ⟨he.1, he.2, hroot, hesc, hden, hz, hi, hu⟩

end Engine

/-- A requested termination can be confirmed and a pending request can be taken back exactly if the
trust deposits hold what is released. They do as long as no release before took slashed units,
provided that this one takes none either, and so after every run without a slash. -/
theorem departures_succeed_iff {host : Host} {params : Params} {authority : Address} {e : Engine}
    (hl : host.ledger.HoldsOnlyBalances) (hn : Engine.new host params authority = .ok e)
    {steps : List Step} (hd : e.Along Engine.KeepsDirectory steps)
    (hm : e.Along Engine.KeepsModuleAccount steps) (hc : e.Along Engine.KeepsDenom steps)
    (hz : (e.run steps).host.frozen = [])
    (hi : ∀ id p, (e.run steps).records.get? id = some p → p.deposit < deltaBound)
    (hu : (e.run steps).host.ledger.balances.sum + (e.run steps).host.ledger.modules.sum +
      (e.run steps).host.ledger.deposits.sum + (e.run steps).host.ledger.claimable.sum <
        amountBound) :
    (∀ id p, (e.run steps).records.get? id = some p → p.state = .terminationRequested →
      ∃ a, (e.run steps).authorityOver p = .ok a ∧ ∀ now,
        ((e.run steps).Accepts now ⟨a, .confirmTermination id⟩ ↔
          (e.run steps).host.ledger.Affords p a) ∧
        (e.Along Engine.SparesSlashed steps → (∀ v q, p.validator = some v →
          (e.run steps).records.get? v = some q → p.validatorShare ≤ q.unslashed) →
          (e.run steps).Accepts now ⟨a, .confirmTermination id⟩) ∧
        (e.SlashFree steps → (e.run steps).Accepts now ⟨a, .confirmTermination id⟩)) ∧
    ∀ id p, (e.run steps).records.get? id = some p → p.state = .pending → ∀ now,
      ((e.run steps).Accepts now ⟨p.grantee, .cancel id⟩ ↔
        p.escrowedDeposit ≤ (e.run steps).host.ledger.deposit p.grantee) ∧
      (e.Along Engine.SparesSlashed steps → p.escrowedDeposit ≤ p.unslashed →
        (e.run steps).Accepts now ⟨p.grantee, .cancel id⟩) ∧
      (e.SlashFree steps → (e.run steps).Accepts now ⟨p.grantee, .cancel id⟩) := by
  have h := Engine.run_unobstructed hn hd hm hc hz hi hu
  have he := Engine.new_covered hn
  have hu₀ := Engine.new_unslashed hn
  have hback : e.Along Engine.SparesSlashed steps → (e.run steps).BacksUnslashed :=
    Engine.run_backsUnslashed hl hn
  have hunslashed : e.SlashFree steps → (e.run steps).records.Unslashed :=
    Engine.run_unslashed he.1 hu₀
  constructor
  · intro id p hp hr
    obtain ⟨a, ha⟩ := h.rooted.authority h.sound hp
    refine ⟨a, ha, fun now => ?_⟩
    have hiff := h.accepts_confirm_iff hp hr ha now
    have hspare : e.Along Engine.SparesSlashed steps → (∀ v q, p.validator = some v →
        (e.run steps).records.get? v = some q → p.validatorShare ≤ q.unslashed) →
        (e.run steps).Accepts now ⟨a, .confirmTermination id⟩ :=
      fun hs hv => hiff.mpr ((hback hs).affords h.sound hp ha hv)
    refine ⟨hiff, hspare, fun hf => hspare (hf.sparesSlashed he hu₀) fun v q hv hq => ?_⟩
    rw [(hunslashed hf).unslashed_eq hq]
    exact h.covered.share_le hp hv hq
  · intro id p hp hr now
    have hiff := h.accepts_cancel_iff hp hr now
    have hspare : e.Along Engine.SparesSlashed steps → p.escrowedDeposit ≤ p.unslashed →
        (e.run steps).Accepts now ⟨p.grantee, .cancel id⟩ :=
      fun hs hle => hiff.mpr (hle.trans ((hback hs).own hp))
    refine ⟨hiff, hspare, fun hf => hspare (hf.sparesSlashed he hu₀) ?_⟩
    rw [(hunslashed hf).unslashed_eq hp]
    exact (Nat.le_add_right _ _).trans (h.covered id p hp)

/-- The grantor is slashed by some of its deposit, the issuer asks to leave and for another
permission. -/
def Sample.partings (amount : Nat) : List Step :=
  founding ++
    [signed controller (.slash 2 amount),
      signed issuer (.requestTermination 3),
      signed issuer (.start ⟨.issuerGrantor, 1, did, none⟩)]

/-- Enough is left of the grantor's deposit for the share that the issuer's termination returns. -/
theorem departures_succeed_iff_partings :
    Sample.engine.Along Engine.SparesSlashed (Sample.partings 10) ∧
      ∃ p q, (Sample.engine.run (Sample.partings 10)).records.get? 3 = some p ∧
        p.state = .terminationRequested ∧
        (Sample.engine.run (Sample.partings 10)).records.get? 4 = some q ∧ q.state = .pending ∧
        (∃ a, (Sample.engine.run (Sample.partings 10)).authorityOver p = .ok a ∧
          (Sample.engine.run (Sample.partings 10)).Accepts Sample.noon
            ⟨a, .confirmTermination 3⟩) ∧
        (Sample.engine.run (Sample.partings 10)).Accepts Sample.noon ⟨q.grantee, .cancel 4⟩ := by
  have hs : Sample.engine.Along Engine.SparesSlashed (Sample.partings 10) := by decide +kernel
  have hp : ((Sample.engine.run (Sample.partings 10)).records.get? 3).map
      (fun p => (p.state, p.validator, p.validatorShare)) =
        some (.terminationRequested, some 2, 10) := by decide +kernel
  have hv : ((Sample.engine.run (Sample.partings 10)).records.get? 2).map (·.unslashed) =
      some 20 := by decide +kernel
  have hq : ((Sample.engine.run (Sample.partings 10)).records.get? 4).map
      (fun q => (q.state, q.escrowedDeposit, q.unslashed)) = some (.pending, 20, 20) := by
    decide +kernel
  have hi : ∀ p ∈ (Sample.engine.run (Sample.partings 10)).records.permissions.values,
      p.deposit < deltaBound := by decide +kernel
  obtain ⟨p, hp, hp'⟩ := Option.map_eq_some_iff.mp hp
  obtain ⟨w, hw, hw'⟩ := Option.map_eq_some_iff.mp hv
  obtain ⟨q, hq, hq'⟩ := Option.map_eq_some_iff.mp hq
  simp only [Prod.mk.injEq] at hp' hq'
  obtain ⟨hconfirm, hcancel⟩ := departures_succeed_iff Sample.host_holds Sample.engine_new
    (by decide +kernel : Sample.engine.Along Engine.KeepsDirectory (Sample.partings 10))
    (by decide +kernel) (by decide +kernel) (by decide +kernel)
    (fun id p hp => hi p (Records.mem_rows_iff.mpr ⟨id, hp⟩)) (by decide +kernel)
  refine ⟨hs, p, q, hp, hp'.1, hq, hq'.1, ?_, ?_⟩
  · obtain ⟨a, ha, hacc⟩ := hconfirm 3 p hp hp'.1
    refine ⟨a, ha, (hacc Sample.noon).2.1 hs fun v w' hv hw' => ?_⟩
    cases hp'.2.1.symm.trans hv
    cases hw.symm.trans hw'
    rw [hp'.2.2]
    omega
  · refine (hcancel 4 q hq hq'.1 Sample.noon).2.1 hs ?_
    rw [hq'.2.1, hq'.2.2]

/-- The whole deposit of the grantor is slashed, then that of the issuer's new request. -/
def Sample.shutIn : List Step := partings 30 ++ [signed controller (.slash 4 20)]

/-- The host is in order, and yet neither the issuer's termination can be confirmed nor its
request be taken back, as the releases take units that were burned. -/
theorem slashes_shut_in :
    Sample.host.ledger.HoldsOnlyBalances ∧
      Engine.new Sample.host .standard Sample.governor = .ok Sample.engine ∧
      Sample.engine.Along Engine.KeepsDirectory Sample.shutIn ∧
      Sample.engine.Along Engine.KeepsModuleAccount Sample.shutIn ∧
      Sample.engine.Along Engine.KeepsDenom Sample.shutIn ∧
      (Sample.engine.run Sample.shutIn).host.frozen = [] ∧
      (∀ p ∈ (Sample.engine.run Sample.shutIn).records.permissions.values,
        p.deposit < deltaBound) ∧
      (Sample.engine.run Sample.shutIn).host.ledger.balances.sum +
        (Sample.engine.run Sample.shutIn).host.ledger.modules.sum +
        (Sample.engine.run Sample.shutIn).host.ledger.deposits.sum +
        (Sample.engine.run Sample.shutIn).host.ledger.claimable.sum < amountBound ∧
      ((Sample.engine.run Sample.shutIn).records.get? 3).map (fun p => (p.state, p.validator)) =
        some (.terminationRequested, some 2) ∧
      ((Sample.engine.run Sample.shutIn).records.get? 2).map (·.grantee) = some Sample.grantor ∧
      ((Sample.engine.run Sample.shutIn).deliver Sample.noon
          ⟨Sample.grantor, .confirmTermination 3⟩).1 =
        .error (.host (.depositUnderflow Sample.grantor.text 0 (-10))) ∧
      ((Sample.engine.run Sample.shutIn).records.get? 4).map (fun p => (p.state, p.grantee)) =
        some (.pending, Sample.issuer) ∧
      ((Sample.engine.run Sample.shutIn).deliver Sample.noon ⟨Sample.issuer, .cancel 4⟩).1 =
        .error (.host (.depositUnderflow Sample.issuer.text 10 (-20))) := by
  refine ⟨Sample.host_holds, Sample.engine_new, ?_⟩
  decide +kernel

end TrustPermit
