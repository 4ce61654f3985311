import TrustPermit.Proofs.Newcomers
import TrustPermit.Proofs.Refunds

/-! # A request and its cancellation

A cancellation undoes the request, whatever happens in between to others: prices and rates change,
sessions credit the row, and the permissions below it come and go. What was charged comes back, and
the row is the one of before, or ends if it is new.
-/

namespace TrustPermit

def Step.Spares (id : PermissionId) : Step → Prop
  | .deliver _ m => m.action.target? ≠ some id
  | .surround _ => True

instance (id : PermissionId) : ∀ s : Step, Decidable (s.Spares id)
  | .deliver _ m => inferInstanceAs (Decidable (m.action.target? ≠ some id))
  | .surround _ => inferInstanceAs (Decidable True)

namespace Engine

/-- An account is charged for a request: the fee and the deposit go into the module account, and the
deposit is credited to the trust deposit. -/
structure TakesIn (e e' : Engine) (a : Address) (fee stake : Nat) : Prop where
  params : e'.params = e.params
  balance : e'.host.ledger.balance a + (fee + stake) = e.host.ledger.balance a
  funds : e'.host.ledger.moduleFunds e.params.moduleAccount =
    e.host.ledger.moduleFunds e.params.moduleAccount + (fee + stake)
  deposit : e'.host.ledger.deposit a = e.host.ledger.deposit a + stake
  claim : e'.host.ledger.claim a = e.host.ledger.claim a

variable {e e' : Engine} {now : Instant} {signer : Address} {id : PermissionId} {r : Response}

theorem charged_takesIn {cost : Escrow} (h : cost.total ≤ e.host.ledger.balance signer)
    (records : Records) (events : List Event) :
    e.TakesIn (e.after records (e.charged signer cost) events) signer cost.fee cost.deposit where
  params := rfl
  balance := by
    change (e.host.ledger.balances.lowered signer cost.total).amount signer + cost.total =
      e.host.ledger.balances.amount signer
    rw [Table.amount_lowered, if_pos rfl]
    exact Nat.sub_add_cancel h
  funds := by simp [charged, Escrow.total]
  deposit := by simp [charged]
  claim := by simp [charged]

theorem deliver_renew (hd : e.deliver now ⟨signer, .renew id⟩ = (.ok r, e')) :
    ∃ p fee stake, e.records.get? id = some p ∧ p.state = .validated ∧
      e.TakesIn e' p.grantee fee stake ∧
      e'.records = e.records.insert (p.renewing fee stake now) := by
  cases deliver_ok hd with
  | @renew _ _ p validator cost ha hq hb hroom =>
    obtain ⟨hp, rfl, hv⟩ := World.admitRenewal_ok ha
    exact ⟨p, cost.fee, cost.deposit, hp, hv, charged_takesIn hb _ _, rfl⟩

theorem deliver_start {a : Application}
    (hd : e.deliver now ⟨signer, .start a⟩ = (.ok (.permissionCreated id), e')) :
    ∃ schemaId fee stake windowEnd, e.TakesIn e' signer fee stake ∧ e'.records.get? id =
      some (.applied id signer a schemaId fee stake windowEnd now) := by
  cases deliver_ok hd with
  | @start _ _ validator schema cost _ windowEnd ha hq hb hid hw =>
    refine ⟨validator.schemaId, cost.fee, cost.deposit, windowEnd, charged_takesIn hb _ _, ?_⟩
    rw [records_after, Records.get?_insert]
    exact if_pos rfl

end Engine

/-- What others leave of a row: all but its deposit and its validator's share, and the deposit as
well if the row was never validated. -/
structure Permission.Rests (p q : Permission) : Prop where
  same : q = { p with deposit := q.deposit, validatorShare := q.validatorShare }
  newcomer : p.everValidated = false → q.deposit = p.deposit

namespace Permission.Rests

variable {p q s : Permission}

theorem refl (p : Permission) : p.Rests p := ⟨rfl, fun _ => rfl⟩

theorem everValidated (h : p.Rests q) : q.everValidated = p.everValidated := by
  rw [h.same]
  rfl

theorem grantee (h : p.Rests q) : q.grantee = p.grantee := by rw [h.same]

theorem escrowedFees (h : p.Rests q) : q.escrowedFees = p.escrowedFees := by rw [h.same]

theorem escrowedDeposit (h : p.Rests q) : q.escrowedDeposit = p.escrowedDeposit := by rw [h.same]

theorem trans (h₁ : p.Rests q) (h₂ : q.Rests s) : p.Rests s where
  same := by rw [h₂.same, h₁.same]
  newcomer hev := (h₂.newcomer (h₁.everValidated.trans hev)).trans (h₁.newcomer hev)

end Permission.Rests

theorem Outcome.rests {e e' : Engine} {now : Instant} {m : Message} {r : Response}
    (he : e.Established) (h : Outcome e now m r e') {id : PermissionId} {p : Permission}
    (hp : e.records.get? id = some p) (ht : m.action.target? ≠ some id) :
    ∃ q, e'.records.get? id = some q ∧ p.Rests q := by
  obtain ⟨q, hq, hb⟩ := h.bystands he.sound he.covered hp ht
  exact ⟨q, hq, hb.same, fun hev => h.deposit_of_newcomer he hp hev ht hq⟩

namespace Engine

variable {e : Engine} {id : PermissionId} {p : Permission}

theorem step_rests (he : e.Established) {s : Step} (hs : s.Spares id)
    (hp : e.records.get? id = some p) :
    ∃ q, (e.step s).records.get? id = some q ∧ p.Rests q := by
  cases s using e.step_cases with
  | surround host => exact ⟨p, hp, .refl p⟩
  | refused now m _ hstep => exact ⟨p, hstep.symm ▸ hp, .refl p⟩
  | accepted now m r e' _ hstep h =>
    rw [hstep]
    exact h.rests he hp hs

theorem run_rests (he : e.Established) {steps : List Step} (hs : ∀ s ∈ steps, s.Spares id)
    (hp : e.records.get? id = some p) :
    ∃ q, (e.run steps).records.get? id = some q ∧ p.Rests q := by
  induction steps generalizing e p with
  | nil => exact ⟨p, hp, .refl p⟩
  | cons s rest ih =>
    obtain ⟨q, hq, hpq⟩ := step_rests he (hs s List.mem_cons_self) hp
    obtain ⟨q', hq', hqq'⟩ := ih (he.step s) (fun t ht => hs t (.tail s ht)) hq
    exact ⟨q', hq', hpq.trans hqq'⟩

/-- What a row holds in escrow comes back by its cancellation after a run that spares it. -/
theorem cancelled_after (he : e.Established) {between : List Step}
    (hs : ∀ s ∈ between, s.Spares id) (hp : e.records.get? id = some p) {later : Instant}
    {caller : Address} {r : Response} {e' : Engine}
    (hc : (e.run between).deliver later ⟨caller, .cancel id⟩ = (.ok r, e')) :
    ∃ q, (e.run between).records.get? id = some q ∧ p.Rests q ∧
      (e.run between).GivesBack e' p.grantee p.escrowedFees p.escrowedDeposit ∧
      e'.records.get? id = some (q.cancelled caller later) := by
  obtain ⟨q, hq, hrests⟩ := run_rests he hs hp
  obtain ⟨-, -, hgives, -⟩ := deliver_cancel hq hc
  rw [hrests.grantee, hrests.escrowedFees, hrests.escrowedDeposit] at hgives
  exact ⟨q, hq, hrests, hgives, get?_of_cancel (he.run between).sound hq hc⟩

theorem run_moduleAccount {steps : List Step} (hk : e.Along KeepsModuleAccount steps) :
    (e.run steps).params.moduleAccount = e.params.moduleAccount :=
  run_along (P := fun e' => e'.params.moduleAccount = e.params.moduleAccount) rfl
    (fun _ _ h hk => hk.trans h) hk

end Engine

namespace Permission

variable {p q : Permission} {fee stake : Nat} {now : Instant}

theorem cancelled_renewing (actor : Address) (later : Instant) (hv : p.state = .validated)
    (hidle : p.escrowedFees = 0 ∧ p.escrowedDeposit = 0) (hev : p.everValidated = true)
    (hq : (p.renewing fee stake now).Rests q) : q.cancelled actor later =
      { p with
        deposit := q.deposit - stake
        validatorShare := q.validatorShare
        modified := later
        lastStateChange := later } := by
  have hqev : q.everValidated = true := hq.everValidated.trans hev
  rw [cancelled, if_pos hqev, hq.same]
  obtain ⟨hfee, hdeposit⟩ := hidle
  cases p
  simp_all [withoutRequest, enter, renewing]

theorem cancelled_applied (actor : Address) (later : Instant) {id : PermissionId}
    {signer : Address} {a : Application} {schemaId : Nat} {windowEnd : Option Instant}
    (hq : (applied id signer a schemaId fee stake windowEnd now).Rests q) :
    (q.cancelled actor later).state = .terminated ∧ (q.cancelled actor later).deposit = 0 ∧
      (q.cancelled actor later).escrowedFees = 0 ∧
      (q.cancelled actor later).escrowedDeposit = 0 := by
  have hev : q.everValidated = false := hq.everValidated
  have hdeposit : q.deposit = stake := hq.newcomer rfl
  have hescrow : q.escrowedDeposit = stake := hq.escrowedDeposit
  simp [cancelled, hev, archived, enter, withoutRequest, hdeposit, hescrow]

end Permission

/-- Whatever happens between a request and its cancellation, as long as no message names the row:
the fee and the deposit that were charged come back in full. After a renewal the deposit of the row
falls by what the renewal added, and the rest of the row is that of before, but for the times of the
change and the share of its validator. After a first request the row has ended, with nothing in it.
The coins come out of the account that they went into while the parameters keep it. -/
theorem cancellation_undoes_request {host : Host} {params : Params} {authority : Address}
    {e : Engine} (hn : Engine.new host params authority = .ok e) (steps between : List Step)
    {id : PermissionId} (hb : ∀ s ∈ between, s.Spares id) {now later : Instant}
    {signer caller : Address} {r : Response} {e₁ e₃ : Engine}
    (hc : (e₁.run between).deliver later ⟨caller, .cancel id⟩ = (.ok r, e₃)) :
    (∀ r₁, (e.run steps).deliver now ⟨signer, .renew id⟩ = (.ok r₁, e₁) →
      ∃ p q q' fee stake, (e.run steps).records.get? id = some p ∧
        (e.run steps).TakesIn e₁ p.grantee fee stake ∧
        e₁.records.get? id = some (p.renewing fee stake now) ∧
        (e₁.run between).records.get? id = some q ∧
        (e₁.run between).GivesBack e₃ p.grantee fee stake ∧
        e₃.records.get? id = some q' ∧ q'.deposit + stake = q.deposit ∧
        q' = { p with
          deposit := q'.deposit
          validatorShare := q'.validatorShare
          modified := q'.modified
          lastStateChange := q'.lastStateChange }) ∧
    (∀ a, (e.run steps).deliver now ⟨signer, .start a⟩ = (.ok (.permissionCreated id), e₁) →
      ∃ p q', e₁.records.get? id = some p ∧
        (e.run steps).TakesIn e₁ signer p.escrowedFees p.escrowedDeposit ∧
        (e₁.run between).GivesBack e₃ signer p.escrowedFees p.escrowedDeposit ∧
        e₃.records.get? id = some q' ∧ q'.state = .terminated ∧ q'.deposit = 0 ∧
        q'.escrowedFees = 0 ∧ q'.escrowedDeposit = 0) ∧
    (e₁.Along Engine.KeepsModuleAccount between →
      (e₁.run between).params.moduleAccount = e₁.params.moduleAccount) := by
  have he := (Engine.new_established hn).run steps
  have he₁ : ∀ {m r₁}, (e.run steps).deliver now m = (.ok r₁, e₁) → e₁.Established := by
    intro m r₁ hd
    have h := he.step (.deliver now m)
    rwa [Engine.step, hd] at h
  refine ⟨?_, ?_, Engine.run_moduleAccount⟩
  · intro r₁ hd
    obtain ⟨p, fee, stake, hp, hv, htakes, hrecords⟩ := Engine.deliver_renew hd
    have hid : id = (p.renewing fee stake now).id := (he.sound.id_eq hp).symm
    have hp₁ : e₁.records.get? id = some (p.renewing fee stake now) := by
      rw [hrecords, Records.get?_insert, if_pos hid]
    obtain ⟨q, hq, hrests, hgives, hq'⟩ := Engine.cancelled_after (he₁ hd) hb hp₁ hc
    have hstarted : p.everValidated = true := by
      have hcons := Engine.run_consistent (Engine.new_sound hn)
        (Engine.consistent_of_empty (Engine.new_get? hn)) steps
      exact (hcons id p hp).started (.inl hv)
    have hrow := Permission.cancelled_renewing caller later hv
      (he.sound.idle hp (by simp [hv])) hstarted hrests
    have hle : stake ≤ q.deposit := by
      have hescrow : q.escrowedDeposit = stake := hrests.escrowedDeposit
      have hcovered := ((he₁ hd).run between).covered id q hq
      omega
    refine ⟨p, q, q.cancelled caller later, fee, stake, hp, htakes, hp₁, hq, hgives, hq', ?_, ?_⟩
    · rw [hrow]
      exact Nat.sub_add_cancel hle
    · rw [hrow]
  · intro a hd
    obtain ⟨schemaId, fee, stake, windowEnd, htakes, hp₁⟩ := Engine.deliver_start hd
    obtain ⟨q, -, hrests, hgives, hq'⟩ := Engine.cancelled_after (he₁ hd) hb hp₁ hc
    exact ⟨_, q.cancelled caller later, hp₁, htakes, hgives, hq',
      Permission.cancelled_applied caller later hrests⟩

def Sample.awaitingRenewal : Engine := (engine.run founding).step (signed issuer (.renew 3))

/-- Half of each fee goes into trust deposits from now on, the price rises, and the issuer takes
part in an exchange. -/
def Sample.meanwhile : List Step :=
  [signed governor (.setParams newRate),
    .surround { host with unitPrice := 3 },
    signed issuer (.exchange ⟨"s", 3, 0, 3, 0⟩)]

/-- A renewal and a first request are cancelled after all that. -/
theorem cancellation_undoes_request_meanwhile :
    (∃ r e₃ q', (Sample.awaitingRenewal.run Sample.meanwhile).deliver Sample.noon
        ⟨Sample.issuer, .cancel 3⟩ = (.ok r, e₃) ∧
      (Sample.engine.run Sample.founding).TakesIn Sample.awaitingRenewal Sample.issuer 50 10 ∧
      (Sample.awaitingRenewal.run Sample.meanwhile).GivesBack e₃ Sample.issuer 50 10 ∧
      e₃.records.get? 3 = some q' ∧ q'.state = .validated ∧ q'.deposit + 10 = 140) ∧
    ∃ r e₃ q', (Sample.awaiting.run Sample.meanwhile).deliver Sample.noon
        ⟨Sample.issuer, .cancel 4⟩ = (.ok r, e₃) ∧
      (Sample.engine.run Sample.founding).TakesIn Sample.awaiting Sample.issuer 100 20 ∧
      (Sample.awaiting.run Sample.meanwhile).GivesBack e₃ Sample.issuer 100 20 ∧
      e₃.records.get? 4 = some q' ∧ q'.state = .terminated ∧ q'.deposit = 0 := by
  constructor
  · have hrenew : ((Sample.engine.run Sample.founding).deliver Sample.noon
        ⟨Sample.issuer, .renew 3⟩).1 = .ok .empty := by decide +kernel
    have hcancel : (Sample.awaitingRenewal.run Sample.meanwhile).Accepts Sample.noon
        ⟨Sample.issuer, .cancel 3⟩ := by decide +kernel
    have hrow : (Sample.awaitingRenewal.records.get? 3).map
        (fun p => (p.grantee, p.escrowedFees, p.escrowedDeposit)) =
          some (Sample.issuer, 50, 10) := by decide +kernel
    have hbefore : ((Sample.engine.run Sample.founding).records.get? 3).map (·.state) =
        some .validated := by decide +kernel
    have hdeposit : ((Sample.awaitingRenewal.run Sample.meanwhile).records.get? 3).map (·.deposit) =
        some 140 := by decide +kernel
    obtain ⟨r, e₃, hc⟩ := Engine.accepts_iff.mp hcancel
    obtain ⟨p, q, q', fee, stake, hp, htakes, hp₁, hq, hgives, hq', hadd, hsame⟩ :=
      (cancellation_undoes_request Sample.engine_new Sample.founding Sample.meanwhile
        (by decide) hc).1 _ (Prod.ext hrenew rfl)
    simp only [hp₁, Permission.renewing, Permission.enter, Option.map_some, Option.some.injEq,
      Prod.mk.injEq] at hrow
    obtain ⟨hg, rfl, rfl⟩ := hrow
    rw [hp, Option.map_some, Option.some.injEq] at hbefore
    rw [hq, Option.map_some, Option.some.injEq] at hdeposit
    rw [hg] at htakes hgives
    exact ⟨r, e₃, q', hc, htakes, hgives, hq', by rw [hsame]; exact hbefore, hadd.trans hdeposit⟩
  · have hstart : ((Sample.engine.run Sample.founding).deliver Sample.noon
        ⟨Sample.issuer, .start ⟨.issuerGrantor, 1, Sample.did, none⟩⟩).1 =
          .ok (.permissionCreated 4) := by decide +kernel
    have hcancel : (Sample.awaiting.run Sample.meanwhile).Accepts Sample.noon
        ⟨Sample.issuer, .cancel 4⟩ := by decide +kernel
    have hrow : (Sample.awaiting.records.get? 4).map
        (fun p => (p.escrowedFees, p.escrowedDeposit)) = some (100, 20) := by decide +kernel
    obtain ⟨r, e₃, hc⟩ := Engine.accepts_iff.mp hcancel
    obtain ⟨p, q', hp, htakes, hgives, hq', hst, hdeposit, -⟩ :=
      (cancellation_undoes_request Sample.engine_new Sample.founding Sample.meanwhile
        (by decide) hc).2.1 _ (Prod.ext hstart rfl)
    simp only [hp, Option.map_some, Option.some.injEq, Prod.mk.injEq] at hrow
    rw [hrow.1, hrow.2] at htakes hgives
    exact ⟨r, e₃, q', hc, htakes, hgives, hq', hst, hdeposit⟩

end TrustPermit
