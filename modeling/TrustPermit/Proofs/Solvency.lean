import TrustPermit.Proofs.Backing
import TrustPermit.Proofs.Shortages

/-! # The escrow is there

Fees are escrowed at one price and paid out or returned later, out of a module account that also
takes in deposits. The account holds the escrow of every pending request, so neither the payment
of a validator nor the refund of an applicant ever lacks coins.
-/

namespace TrustPermit

namespace Ledger

variable (l : Ledger) (a b : Address) (m k : String) (n : Nat)

@[simp] theorem moduleFunds_sent : (l.sent a b n).moduleFunds k = l.moduleFunds k := rfl

@[simp] theorem moduleFunds_collected :
    (l.collected a m n).moduleFunds k = l.moduleFunds k + if k = m then n else 0 :=
  l.modules.amount_raised m n k

@[simp] theorem moduleFunds_refunded :
    (l.refunded m a n).moduleFunds k = l.moduleFunds k - if k = m then n else 0 :=
  l.modules.amount_lowered m n k

@[simp] theorem moduleFunds_committed : (l.committed a n).moduleFunds k = l.moduleFunds k := rfl

@[simp] theorem moduleFunds_released : (l.released a n).moduleFunds k = l.moduleFunds k := rfl

@[simp] theorem moduleFunds_slashed : (l.slashed a n).moduleFunds k = l.moduleFunds k := rfl

@[simp] theorem moduleFunds_committedTo (account : Option Address) :
    (l.committedTo account n).moduleFunds k = l.moduleFunds k := by
  cases account <;> rfl

@[simp] theorem moduleFunds_terminated (p : Permission) :
    (l.terminated p a).moduleFunds k = l.moduleFunds k := by
  unfold terminated shareReturned
  split <;> rfl

end Ledger

namespace World

/-- A module account holds the escrow of all pending requests. -/
def CoversEscrow (w : World) (account : String) : Prop :=
  w.records.escrowed ≤ w.host.ledger.moduleFunds account

namespace CoversEscrow

variable {w w' : World} {account : String} {p q : Permission}

theorem congr (hw : w.CoversEscrow account) (r : Records)
    (hr : r.escrowed = w.records.escrowed) : (w.withRecords r).CoversEscrow account :=
  hr.trans_le hw

theorem insert_over (hw : w.CoversEscrow account) (hp : w.records.get? p.id = some p)
    (ho : p.SameOrigin q) (hr : w'.records = w.records.insert q)
    (hl : w.host.ledger.moduleFunds account + q.escrowedFees ≤
      w'.host.ledger.moduleFunds account + p.escrowedFees) : w'.CoversEscrow account := by
  have hn := Records.escrowed_insert_over (q := q) (ho.id ▸ hp)
  have : w.records.escrowed ≤ w.host.ledger.moduleFunds account := hw
  rw [CoversEscrow, hr]
  omega

theorem insert_new (hw : w.CoversEscrow account) (hs : w.records.Sound)
    (hid : p.id = w.records.counter Records.permissionCounter + 1)
    (hr : w'.records = (w.records.allocate Records.permissionCounter).insert p)
    (hl : w.host.ledger.moduleFunds account + p.escrowedFees ≤
      w'.host.ledger.moduleFunds account) : w'.CoversEscrow account := by
  have hfresh : (w.records.allocate Records.permissionCounter).get? p.id = none :=
    hs.get?_fresh (hid ▸ Nat.lt_succ_self _)
  have hn := Records.escrowed_insert_new hfresh
  rw [Records.escrowed_allocate] at hn
  have : w.records.escrowed ≤ w.host.ledger.moduleFunds account := hw
  rw [CoversEscrow, hr]
  omega

/-- The account of every pending request can pay its fees. -/
theorem fees_le (hw : w.CoversEscrow account) {id : PermissionId}
    (hp : w.records.get? id = some p) : p.escrowedFees ≤ w.host.ledger.moduleFunds account :=
  (Records.le_total hp (·.escrowedFees)).trans hw

theorem paid (hw : w.CoversEscrow account) {t : SettlementTerms} {payer : Address}
    (ht : t.payer = .account payer) (b : Permission) (split : FeeShares) :
    (w.paid t b split).CoversEscrow account := by
  have : w.records.escrowed ≤ w.host.ledger.moduleFunds account := hw
  simp only [CoversEscrow, World.paid, shared, records_withLedger, host_withLedger,
    Host.ledger_withLedger, Records.escrowed_raisedBy, SettlementTerms.collect,
    SettlementTerms.direct, ht, Ledger.moduleFunds_committedTo, Ledger.moduleFunds_committed,
    Ledger.moduleFunds_collected, Ledger.moduleFunds_sent]
  omega

/-- A consent takes no more out of the account than it takes out of escrow. -/
theorem granted (hw : w.CoversEscrow account) {t : SettlementTerms} (ht : t.payer = .escrow)
    (hm : t.moduleAccount = account) {validator : Permission} {split : FeeShares}
    (hp : (w.paid t validator split).records.get? p.id = some p)
    (ho : p.SameOrigin q) (hq : q.escrowedFees = 0) (hle : split.direct ≤ p.escrowedFees)
    (hr : w'.records = (w.paid t validator split).records.insert q)
    (hl : w'.host.ledger = (w.paid t validator split).host.ledger) : w'.CoversEscrow account := by
  have hrows : (w.withRecords (w.paid t validator split).records).CoversEscrow account :=
    hw.congr _ (Records.escrowed_raisedBy _)
  refine hrows.insert_over hp ho hr ?_
  have hfunds : (w.paid t validator split).host.ledger.moduleFunds account =
      w.host.ledger.moduleFunds account - split.direct := by
    simp only [World.paid, shared, host_withLedger, Host.ledger_withLedger,
      SettlementTerms.collect, SettlementTerms.direct, ht, Ledger.moduleFunds_committedTo,
      Ledger.moduleFunds_committed, Ledger.moduleFunds_refunded, hm, if_true]
  change w.host.ledger.moduleFunds account + q.escrowedFees ≤ _
  rw [hl, hfunds, hq]
  omega

theorem terminated (hw : w.CoversEscrow account) (hs : w.records.Sound)
    (hp : w.records.get? p.id = some p) {signer : Address} {now : Instant}
    (hr : w'.records = w.records.terminated p signer now)
    (hl : w'.host.ledger = w.host.ledger.terminated p signer) : w'.CoversEscrow account := by
  have hrows := hw.congr ((w.records.clearShares p.id).shareReturned p) (by simp)
  refine hrows.insert_over (hs.get?_settled hp) (.closed p signer now) hr ?_
  rw [hl, Ledger.moduleFunds_terminated]
  exact le_rfl

end CoversEscrow

end World

theorem Engine.moduleFunds_charged (e : Engine) (a : Address) (cost : Escrow) :
    (e.charged a cost).moduleFunds e.params.moduleAccount =
      e.host.ledger.moduleFunds e.params.moduleAccount + (cost.fee + cost.deposit) := by
  simp [charged, Escrow.total]

theorem Settles.coversEscrow {t : SettlementTerms} {bs : List Permission} {w w' : World}
    {lines : List Payout} (h : Settles t bs w lines w') {payer : Address}
    (ht : t.payer = .account payer) {account : String} (hw : w.CoversEscrow account) :
    w'.CoversEscrow account := by
  induction h with
  | nil => exact hw
  | skip _ _ ih => exact ih hw
  | pay _ _ _ _ _ _ ih => exact ih (hw.paid ht _ _)

/-- Every message keeps the escrow in the module account in force before it. -/
theorem Outcome.coversEscrow {e e' : Engine} {now : Instant} {m : Message} {r : Response}
    (hs : e.records.Sound) (he : e.CoversEscrow e.params.moduleAccount)
    (h : Outcome e now m r e') : e'.CoversEscrow e.params.moduleAccount := by
  cases h with
  | @start signer application validator schema cost id windowEnd ha hq hb hid hw =>
    obtain ⟨-, rfl⟩ := Records.nextId_eq_ok_iff.mp hid
    refine he.insert_new hs rfl rfl ?_
    rw [Engine.host_after, Host.ledger_withLedger, e.moduleFunds_charged]
    change _ + cost.fee ≤ _
    omega
  | @renew signer id p validator cost ha hq hb hd =>
    obtain ⟨hp, -, -⟩ := World.admitRenewal_ok ha
    refine he.insert_over (hs.get?_id hp) (.renewing p cost.fee cost.deposit now) rfl ?_
    rw [Engine.host_after, Host.ledger_withLedger, e.moduleFunds_charged]
    change _ + cost.fee ≤ _
    omega
  | consent ha hz hd =>
    obtain ⟨hp, -, -⟩ := World.admitConsent_ok ha
    exact he.insert_over (hs.get?_id hp) (.granted _ _ _ _ _) rfl
      (Nat.add_le_add_left (Nat.zero_le _) _)
  | @paidConsent signer id terms p windowEnd v validator line ha hn hv hg hb hf hc hd =>
    obtain ⟨hp, -, -⟩ := World.admitConsent_ok ha
    exact he.granted (t := e.terms .validation .escrow none) rfl rfl
      (hs.get?_paid hp hv hg rfl line.split) (.granted p terms windowEnd line.split.share now) rfl
      (Nat.le.intro (FeeShares.of_ok hf).2.1) rfl rfl
  | extend ha =>
    obtain ⟨hp, -⟩ := World.admitExtension_ok ha
    exact he.insert_over (hs.get?_id hp) (.extendedTo _ _ _ _) rfl le_rfl
  | revoke ha =>
    obtain ⟨hp, -⟩ := World.admitRevocation_ok ha
    exact he.insert_over (hs.get?_id hp) (.withdrawn _ _ _) rfl le_rfl
  | @cancel signer id p ha hf hd =>
    obtain ⟨hp, -⟩ := World.admitCancellation_ok ha
    refine he.insert_over (hs.get?_id hp) (.cancelled p signer now) rfl ?_
    simp only [Engine.host_after, Host.ledger_withLedger, Ledger.moduleFunds_released,
      Ledger.moduleFunds_refunded, if_true, p.cancelled_escrowedFees]
    omega
  | requestTermination ha =>
    obtain ⟨hp, -⟩ := World.admitDeparture_ok ha
    exact he.insert_over (hs.get?_id hp) (.leaving _ _) rfl le_rfl
  | confirmTermination ha hd =>
    obtain ⟨hp, -, -⟩ := World.admitTermination_eq_ok_iff.mp ha
    exact he.terminated hs (hs.get?_id hp) rfl rfl
  | createRoot ha hid =>
    obtain ⟨-, rfl⟩ := Records.nextId_eq_ok_iff.mp hid
    exact he.insert_new hs rfl rfl le_rfl
  | create ha hid =>
    obtain ⟨-, rfl⟩ := Records.nextId_eq_ok_iff.mp hid
    exact he.insert_new hs rfl rfl le_rfl
  | exchange ha hx hb hw => exact ((Transfer.settle_ok hw).2.2.coversEscrow rfl he :)
  | slash ha hn hb =>
    obtain ⟨hp, -⟩ := Engine.admitSlash_ok ha
    exact he.insert_over (hs.get?_id hp) (.slashedFor _ _ _ _) rfl le_rfl
  | @repay signer id p ha hb hr =>
    obtain ⟨hp, -⟩ := Engine.admitRepayment_ok ha
    refine he.insert_over (hs.get?_id hp) (.repaidInFull p signer now) rfl ?_
    simp only [Engine.host_after, Host.ledger_withLedger, Ledger.moduleFunds_committed,
      Ledger.moduleFunds_collected, show (p.repaidInFull signer now).escrowedFees =
        p.escrowedFees from rfl]
    omega
  | setParams ha hp => exact he

namespace Engine

variable {e : Engine}

/-- A step after which fees are escrowed in the module account of before. -/
def KeepsModuleAccount (e : Engine) (s : Step) : Prop :=
  (e.step s).params.moduleAccount = e.params.moduleAccount

instance (e : Engine) (s : Step) : Decidable (e.KeepsModuleAccount s) :=
  inferInstanceAs (Decidable (_ = _))

theorem step_coversEscrow {s : Step} (hs : e.records.Sound)
    (he : e.CoversEscrow e.params.moduleAccount) (hk : e.KeepsModuleAccount s) :
    (e.step s).CoversEscrow (e.step s).params.moduleAccount := by
  rw [hk]
  cases s using e.step_cases with
  | surround host => exact he
  | refused now m _ hstep => rwa [hstep]
  | accepted now m r e' _ hstep h =>
    rw [hstep]
    exact h.coversEscrow hs he

end Engine

/-- As long as the module account stays in force, it holds the escrow of every pending request,
however prices and rates change. So validators are paid and applicants are refunded without a
shortage on any account. -/
theorem moduleFunds_cover_escrow {host : Host} {params : Params} {authority : Address}
    {e : Engine} (hn : Engine.new host params authority = .ok e) {steps : List Step}
    (hk : e.Along Engine.KeepsModuleAccount steps) :
    ((e.run steps).records.permissions.values.map (·.escrowedFees)).sum ≤
        (e.run steps).host.ledger.moduleFunds e.params.moduleAccount ∧
      (e.run steps).params.moduleAccount = e.params.moduleAccount ∧
      (∀ now signer id account required available,
        ((e.run steps).deliver now ⟨signer, .cancel id⟩).1 ≠
          .error (.host (.insufficientBalance account required available))) ∧
      ∀ now signer id terms account required available,
        ((e.run steps).deliver now ⟨signer, .validate id terms⟩).1 ≠
          .error (.host (.insufficientBalance account required available)) := by
  obtain ⟨hs, hc, ha⟩ := Engine.run_along
    (P := fun e' => e'.records.Sound ∧ e'.CoversEscrow e'.params.moduleAccount ∧
      e'.params.moduleAccount = e.params.moduleAccount)
    ⟨Engine.new_sound hn, by
      obtain ⟨-, rfl⟩ := Engine.new_eq_ok_iff.mp hn
      exact Nat.zero_le _, rfl⟩
    (fun e' s ⟨hs, hc, ha⟩ hk =>
      ⟨Engine.step_sound hs, Engine.step_coversEscrow hs hc hk, hk.trans ha⟩) hk
  have hfees : ∀ id p, (e.run steps).records.get? id = some p → p.escrowedFees ≤
      (e.run steps).host.ledger.moduleFunds (e.run steps).params.moduleAccount :=
    fun _ _ hp => hc.fees_le hp
  refine ⟨ha ▸ hc, ha, fun now signer id account required available h => ?_,
    fun now signer id terms account required available h => ?_⟩
  · have hr : Guard.RulesOut Fault.isShortage
        ((e.run steps).deliver now ⟨signer, .cancel id⟩).1 :=
      Engine.deliver_rulesOut (.demand rfl) (Transaction.cancel_rulesOut (hfees id))
    exact absurd (hr.of_error h) (by simp [Fault.isShortage, HostFault.isShortage])
  · have hr : Guard.RulesOut Fault.isShortage
        ((e.run steps).deliver now ⟨signer, .validate id terms⟩).1 :=
      Engine.deliver_rulesOut (.bind (.demand rfl) fun _ => .bind (.demand rfl) fun _ =>
        .demand rfl) (Transaction.validate_rulesOut terms (hfees id))
    exact absurd (hr.of_error h) (by simp [Fault.isShortage, HostFault.isShortage])

def Sample.requests : List Step :=
  founding ++
    [signed issuer (.renew 3),
      signed governor (.setParams { newParams with moduleAccount := "perm" }),
      .surround { host with unitPrice := 3 },
      signed grantor (.start ⟨.issuerGrantor, 1, did, none⟩)]

theorem moduleFunds_cover_escrow_requests :
    Sample.engine.Along Engine.KeepsModuleAccount Sample.requests ∧
      (Sample.engine.run Sample.requests).records.escrowed = 350 ∧
      350 ≤ (Sample.engine.run Sample.requests).host.ledger.moduleFunds "perm" := by
  have hk : Sample.engine.Along Engine.KeepsModuleAccount Sample.requests := by decide +kernel
  have hf : (Sample.engine.run Sample.requests).records.escrowed = 350 := by decide +kernel
  exact ⟨hk, hf, hf ▸ (moduleFunds_cover_escrow Sample.engine_new hk).1⟩

end TrustPermit
