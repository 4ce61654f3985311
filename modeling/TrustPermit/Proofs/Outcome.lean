import TrustPermit.Engine.Deliver
import TrustPermit.Proofs.Transaction

/-! # Outcomes

All that a successful message can do to the engine, one case for each kind of message and two for
a consent, with the checks that it passed. Facts about every message are proved by cases on the
outcome.
-/

namespace TrustPermit

inductive Outcome (e : Engine) (now : Instant) : Message → Response → Engine → Prop where

  | start {signer : Address} {a : Application} {validator : Permission}
      {schema : CredentialSchema} {cost : Escrow} {id : PermissionId}
      {windowEnd : Option Instant} :
      e.admitApplication a now = .ok (validator, schema) →
      e.quote validator = .ok cost → cost.total ≤ e.host.ledger.balance signer →
      e.records.nextId Records.permissionCounter = .ok id →
      validityWindow now (schema.periodOf a.kind) = .ok windowEnd →
      Outcome e now ⟨signer, .start a⟩ (.permissionCreated id) (e.after
        ((e.records.allocate Records.permissionCounter).insert
          (.applied id signer a validator.schemaId cost.fee cost.deposit windowEnd now))
        (e.charged signer cost) [a.event id signer cost])

  | renew {signer : Address} {id : PermissionId} {p validator : Permission} {cost : Escrow} :
      e.admitRenewal signer id now = .ok (p, validator) →
      e.quote validator = .ok cost → cost.total ≤ e.host.ledger.balance signer →
      p.deposit + cost.deposit < amountBound →
      Outcome e now ⟨signer, .renew id⟩ .empty (e.after
        (e.records.insert (p.renewing cost.fee cost.deposit now))
        (e.charged signer cost) [renewalEvent id signer cost])

  | consent {signer : Address} {id : PermissionId} {terms : Terms} {p : Permission}
      {windowEnd : Option Instant} :
      e.admitConsent signer id terms now = .ok (p, windowEnd) → p.escrowedFees = 0 →
      p.validatorShare < amountBound →
      Outcome e now ⟨signer, .validate id terms⟩ .empty (e.after
        (e.records.insert (p.granted terms windowEnd 0 now)) e.host.ledger
        [consentEvent (p.granted terms windowEnd 0 now) signer terms])

  | paidConsent {signer : Address} {id : PermissionId} {terms : Terms} {p : Permission}
      {windowEnd : Option Instant} {v : PermissionId} {validator : Permission}
      {line : Payout} :
      e.admitConsent signer id terms now = .ok (p, windowEnd) → p.escrowedFees ≠ 0 →
      p.validator = some v → e.records.get? v = some validator →
      line.beneficiary = validator.id →
      FeeShares.of p.escrowedFees e.params.depositRate = .ok line.split →
      line.split.direct ≤ e.host.ledger.moduleFunds e.params.moduleAccount →
      p.validatorShare + line.split.share < amountBound →
      Outcome e now ⟨signer, .validate id terms⟩ .empty (e.after
        ((e.toWorld.paid (e.terms .validation .escrow none) validator line.split).records.insert
          (p.granted terms windowEnd line.split.share now))
        (e.toWorld.paid (e.terms .validation .escrow none) validator line.split).host.ledger
        [line.event .validation (some p.id),
          consentEvent (p.granted terms windowEnd line.split.share now) signer terms])

  | extend {signer : Address} {id : PermissionId} {finish : Instant} {p : Permission} :
      e.admitExtension signer id finish = .ok p →
      Outcome e now ⟨signer, .extend id finish⟩ .empty (e.after
        (e.records.insert (p.extendedTo finish signer now)) e.host.ledger
        [(Action.extend id finish).permissionEvent id signer
          |>.attr "effective_until" finish.toText])

  | revoke {signer : Address} {id : PermissionId} {p : Permission} :
      e.admitRevocation signer id = .ok p →
      Outcome e now ⟨signer, .revoke id⟩ .empty (e.after
        (e.records.insert (p.withdrawn signer now)) e.host.ledger
        [(Action.revoke id).permissionEvent id signer |>.attr "timestamp" now.toText])

  | cancel {signer : Address} {id : PermissionId} {p : Permission} :
      e.admitCancellation signer id = .ok p →
      p.escrowedFees ≤ e.host.ledger.moduleFunds e.params.moduleAccount →
      p.escrowedDeposit ≤ e.host.ledger.deposit p.grantee →
      Outcome e now ⟨signer, .cancel id⟩ .empty (e.after
        (e.records.insert (p.cancelled signer now))
        ((e.host.ledger.refunded e.params.moduleAccount p.grantee p.escrowedFees).released
          p.grantee p.escrowedDeposit)
        [cancellationEvent p signer])

  | requestTermination {signer : Address} {id : PermissionId} {p : Permission} :
      e.admitDeparture signer id = .ok p →
      Outcome e now ⟨signer, .requestTermination id⟩ .empty (e.after
        (e.records.insert (p.leaving now)) e.host.ledger
        [(Action.requestTermination id).permissionEvent id signer
          |>.attr "timestamp" now.toText])

  | confirmTermination {signer : Address} {id : PermissionId} {p : Permission} :
      e.admitTermination signer id = .ok p →
      e.host.ledger.Affords p signer →
      Outcome e now ⟨signer, .confirmTermination id⟩ .empty (e.after
        (e.records.terminated p signer now) (e.host.ledger.terminated p signer)
        [(Action.confirmTermination id).permissionEvent id signer
          |>.attr "deposit" (toString p.unslashed)])

  | createRoot {signer : Address} {g : RootGrant} {id : PermissionId} :
      e.admitRoot signer g now = .ok () →
      e.records.nextId Records.permissionCounter = .ok id →
      Outcome e now ⟨signer, .createRoot g⟩ (.permissionCreated id) (e.after
        ((e.records.allocate Records.permissionCounter).insert (.root id signer g now))
        e.host.ledger
        [(Action.createRoot g).event
          |>.attr "permission_id" (toString id)
          |>.attr "schema_id" (toString g.schemaId)
          |>.attr "creator" signer.text])

  | create {signer : Address} {g : SelfGrant} {root : Permission} {id : PermissionId} :
      e.admitSelfGrant g now = .ok root →
      e.records.nextId Records.permissionCounter = .ok id →
      Outcome e now ⟨signer, .create g⟩ (.permissionCreated id) (e.after
        ((e.records.allocate Records.permissionCounter).insert
          (.selfGranted id signer g root.id now))
        e.host.ledger
        [(Action.create g).event
          |>.attr "permission_id" (toString id)
          |>.attr "schema_id" (toString g.schemaId)
          |>.attr "type" g.kind.name
          |>.attr "creator" signer.text])

  | exchange {signer : Address} {x : Exchange} {s : Session} {beneficiaries : List Permission}
      {receipt : Receipt} {w : World} :
      e.records.admitExchange signer x now = .ok s → x.executor?.isSome →
      e.admitPayment signer x = .ok beneficiaries →
      Transfer.settle (e.terms x.feeKind (.account signer) x.executor?) beneficiaries e.toWorld =
        .ok receipt w →
      Outcome e now ⟨signer, .exchange x⟩
        (.sessionUpdated x.sessionId (s.append x.authorization now).authorizations.length)
        (e.after (w.records.insertSession (s.append x.authorization now)) w.host.ledger
          (receipt.lines.map (·.event x.feeKind x.executor?) ++ [x.event signer]))

  | slash {signer : Address} {id : PermissionId} {amount : Nat} {p : Permission} :
      e.admitSlash signer id amount now = .ok p → amount ≠ 0 →
      amount ≤ e.host.ledger.deposit p.grantee →
      e.host.ledger.burned + amount < amountBound →
      Outcome e now ⟨signer, .slash id amount⟩ .empty (e.after
        (e.records.insert (p.slashedFor amount signer now))
        (e.host.ledger.slashed p.grantee amount)
        [depositEvent (.slash id amount) id amount signer now])

  | repay {signer : Address} {id : PermissionId} {p : Permission} :
      e.admitRepayment signer id = .ok p →
      p.slashedDeposit ≤ e.host.ledger.balance signer →
      p.repaidDeposit + p.slashedDeposit < amountBound →
      Outcome e now ⟨signer, .repay id⟩ .empty (e.after
        (e.records.insert (p.repaidInFull signer now))
        ((e.host.ledger.collected signer Host.depositModule p.slashedDeposit).committed
          p.grantee p.slashedDeposit)
        [depositEvent (.repay id) id p.slashedDeposit signer now])

  | setParams {signer : Address} {params : Params} :
      signer = e.authority → params.check = .ok () →
      Outcome e now ⟨signer, .setParams params⟩ .empty
        ((e.withParams params).report
          [(Action.setParams params).event
            |>.attr "creator" signer.text
            |>.attr "timestamp" now.toText])

namespace Transaction

variable {e e' : Engine} {now : Instant} {signer : Address} {r : Response}

theorem start_ok {a : Application} (h : start signer a now e = .ok r e') :
    Outcome e now ⟨signer, .start a⟩ r e' := by
  simp only [start, Effect.bind_eq_ok_iff, Effect.ask_eq_ok_iff, allocate_eq_ok_iff,
    store_eq_ok_iff, emit_eq_ok_iff, Effect.pure_eq_ok_iff] at h
  obtain ⟨⟨validator, schema⟩, _, ⟨ha, rfl⟩, cost, e₁, h₁, id, _, ⟨hid, rfl⟩, windowEnd, _,
    ⟨hw, rfl⟩, _, _, rfl, _, _, rfl, rfl, rfl⟩ := h
  obtain ⟨hq, hb, rfl⟩ := escrow_ok h₁
  exact .start ha hq hb hid hw

theorem renew_ok {id : PermissionId} (h : renew signer id now e = .ok r e') :
    Outcome e now ⟨signer, .renew id⟩ r e' := by
  simp only [renew, Effect.bind_eq_ok_iff, Effect.ask_eq_ok_iff, Guard.demand_eq_ok_iff,
    store_eq_ok_iff, emit_eq_ok_iff, Effect.pure_eq_ok_iff] at h
  obtain ⟨⟨p, validator⟩, _, ⟨ha, rfl⟩, cost, e₁, h₁, _, _, ⟨hd, rfl⟩, _, _, rfl, _, _, rfl,
    rfl, rfl⟩ := h
  obtain ⟨hq, hb, rfl⟩ := escrow_ok h₁
  exact .renew ha hq hb hd

theorem validate_ok {id : PermissionId} {terms : Terms}
    (h : validate signer id terms now e = .ok r e') :
    Outcome e now ⟨signer, .validate id terms⟩ r e' := by
  simp only [validate, Effect.bind_eq_ok_iff, Effect.ask_eq_ok_iff, Guard.demand_eq_ok_iff,
    store_eq_ok_iff, emit_eq_ok_iff, Effect.pure_eq_ok_iff] at h
  obtain ⟨⟨p, windowEnd⟩, _, ⟨ha, rfl⟩, share, e₁, h₁, _, _, ⟨hd, rfl⟩, _, _, rfl, _, _, rfl,
    rfl, rfl⟩ := h
  rcases payValidator_ok h₁ with
    ⟨hz, rfl, rfl⟩ | ⟨hn, v, validator, line, hv, hg, hb, hs, hc, rfl, rfl⟩
  · exact .consent ha hz hd
  · have ho := Outcome.paidConsent ha hn hv hg hb hs hc hd
    rw [← List.singleton_append, ← Engine.report_after] at ho
    exact ho

theorem extend_eq_ok_iff {id : PermissionId} {finish : Instant} :
    extend signer id finish now e = .ok r e' ↔
      ∃ p, e.admitExtension signer id finish = .ok p ∧ r = .empty ∧
        e.after (e.records.insert (p.extendedTo finish signer now)) e.host.ledger
          [(Action.extend id finish).permissionEvent id signer
            |>.attr "effective_until" finish.toText] = e' := by
  simp only [extend, Effect.bind_eq_ok_iff, Effect.ask_eq_ok_iff, store_eq_ok_iff,
    emit_eq_ok_iff, Effect.pure_eq_ok_iff]
  constructor
  · rintro ⟨p, _, ⟨ha, rfl⟩, _, _, rfl, _, _, rfl, rfl, rfl⟩
    exact ⟨p, ha, rfl, rfl⟩
  · rintro ⟨p, ha, rfl, rfl⟩
    exact ⟨p, e, ⟨ha, rfl⟩, (), _, rfl, (), _, rfl, rfl, rfl⟩

theorem extend_ok {id : PermissionId} {finish : Instant}
    (h : extend signer id finish now e = .ok r e') :
    Outcome e now ⟨signer, .extend id finish⟩ r e' := by
  obtain ⟨p, ha, rfl, rfl⟩ := extend_eq_ok_iff.mp h
  exact .extend ha

theorem revoke_ok {id : PermissionId} (h : revoke signer id now e = .ok r e') :
    Outcome e now ⟨signer, .revoke id⟩ r e' := by
  simp only [revoke, Effect.bind_eq_ok_iff, Effect.ask_eq_ok_iff, store_eq_ok_iff,
    emit_eq_ok_iff, Effect.pure_eq_ok_iff] at h
  obtain ⟨p, _, ⟨ha, rfl⟩, _, _, rfl, _, _, rfl, rfl, rfl⟩ := h
  exact .revoke ha

theorem cancel_eq_ok_iff {id : PermissionId} :
    cancel signer id now e = .ok r e' ↔
      ∃ p, e.admitCancellation signer id = .ok p ∧
        (p.escrowedFees ≠ 0 → e.params.bondDenom = e.host.denom ∧
          p.escrowedFees ≤ e.host.ledger.moduleFunds e.params.moduleAccount ∧
          e.host.ledger.balance p.grantee + p.escrowedFees < amountBound) ∧
        (p.escrowedDeposit ≠ 0 → p.escrowedDeposit < deltaBound ∧ p.grantee ∉ e.host.frozen ∧
          p.escrowedDeposit ≤ e.host.ledger.deposit p.grantee ∧
          e.host.ledger.claim p.grantee + p.escrowedDeposit < amountBound) ∧
        r = .empty ∧
        e.after (e.records.insert (p.cancelled signer now))
          ((e.host.ledger.refunded e.params.moduleAccount p.grantee p.escrowedFees).released
            p.grantee p.escrowedDeposit)
          [cancellationEvent p signer] = e' := by
  simp only [cancel, Effect.bind_eq_ok_iff, Effect.ask_eq_ok_iff, refund_eq_ok_iff,
    release_eq_ok_iff, store_eq_ok_iff, emit_eq_ok_iff, Effect.pure_eq_ok_iff]
  constructor
  · rintro ⟨p, _, ⟨ha, rfl⟩, _, _, ⟨hf, rfl⟩, _, _, ⟨hd, rfl⟩, _, _, rfl, _, _, rfl, rfl, rfl⟩
    exact ⟨p, ha, hf, hd, rfl, rfl⟩
  · rintro ⟨p, ha, hf, hd, rfl, rfl⟩
    exact ⟨p, e, ⟨ha, rfl⟩, (), _, ⟨hf, rfl⟩, (), _, ⟨hd, rfl⟩, (), _, rfl, (), _, rfl, rfl, rfl⟩

theorem cancel_ok {id : PermissionId} (h : cancel signer id now e = .ok r e') :
    Outcome e now ⟨signer, .cancel id⟩ r e' := by
  obtain ⟨p, ha, hf, hd, rfl, rfl⟩ := cancel_eq_ok_iff.mp h
  refine .cancel ha ?_ ?_
  · rcases Nat.eq_zero_or_pos p.escrowedFees with hz | hz
    · exact hz ▸ Nat.zero_le _
    · exact (hf hz.ne').2.1
  · rcases Nat.eq_zero_or_pos p.escrowedDeposit with hz | hz
    · exact hz ▸ Nat.zero_le _
    · exact (hd hz.ne').2.2.1

theorem requestTermination_ok {id : PermissionId}
    (h : requestTermination signer id now e = .ok r e') :
    Outcome e now ⟨signer, .requestTermination id⟩ r e' := by
  simp only [requestTermination, Effect.bind_eq_ok_iff, Effect.ask_eq_ok_iff, store_eq_ok_iff,
    emit_eq_ok_iff, Effect.pure_eq_ok_iff] at h
  obtain ⟨p, _, ⟨ha, rfl⟩, _, _, rfl, _, _, rfl, rfl, rfl⟩ := h
  exact .requestTermination ha

theorem confirmTermination_eq_ok_iff {id : PermissionId} :
    confirmTermination signer id now e = .ok r e' ↔
      ∃ p, e.admitTermination signer id = .ok p ∧
        (p.unslashed ≠ 0 → p.unslashed < deltaBound ∧ p.grantee ∉ e.host.frozen ∧
          p.unslashed ≤ e.host.ledger.deposit p.grantee ∧
          e.host.ledger.claim p.grantee + p.unslashed < amountBound) ∧
        (p.validator.isSome → p.validatorShare ≠ 0 → p.validatorShare < deltaBound ∧
          signer ∉ e.host.frozen ∧
          p.validatorShare ≤ (e.host.ledger.released p.grantee p.unslashed).deposit signer ∧
          (e.host.ledger.released p.grantee p.unslashed).claim signer + p.validatorShare <
            amountBound) ∧
        r = .empty ∧
        e.after (e.records.terminated p signer now) (e.host.ledger.terminated p signer)
          [(Action.confirmTermination id).permissionEvent id signer
            |>.attr "deposit" (toString p.unslashed)] = e' := by
  simp only [confirmTermination, Effect.bind_eq_ok_iff, Effect.ask_eq_ok_iff,
    release_eq_ok_iff, Effect.update_eq_ok_iff, releaseShare_eq_ok_iff, store_eq_ok_iff,
    emit_eq_ok_iff, Effect.pure_eq_ok_iff]
  constructor
  · rintro ⟨p, _, ⟨ha, rfl⟩, _, _, ⟨hd, rfl⟩, _, _, rfl, _, _, ⟨hs, rfl⟩, _, _, rfl, _, _, rfl,
      rfl, rfl⟩
    exact ⟨p, ha, hd, hs, rfl, rfl⟩
  · rintro ⟨p, ha, hd, hs, rfl, rfl⟩
    exact ⟨p, e, ⟨ha, rfl⟩, (), _, ⟨hd, rfl⟩, (), _, rfl, (), _, ⟨hs, rfl⟩, (), _, rfl, (), _,
      rfl, rfl, rfl⟩

theorem confirmTermination_ok {id : PermissionId}
    (h : confirmTermination signer id now e = .ok r e') :
    Outcome e now ⟨signer, .confirmTermination id⟩ r e' := by
  obtain ⟨p, ha, hd, hs, rfl, rfl⟩ := confirmTermination_eq_ok_iff.mp h
  refine .confirmTermination ha ⟨?_, fun hv => ?_⟩
  · rcases Nat.eq_zero_or_pos p.unslashed with hz | hz
    · exact hz ▸ Nat.zero_le _
    · exact (hd hz.ne').2.2.1
  · rcases Nat.eq_zero_or_pos p.validatorShare with hz | hz
    · exact hz ▸ Nat.zero_le _
    · exact (hs hv hz.ne').2.2.1

theorem createRoot_ok {g : RootGrant} (h : createRoot signer g now e = .ok r e') :
    Outcome e now ⟨signer, .createRoot g⟩ r e' := by
  simp only [createRoot, Effect.bind_eq_ok_iff, Effect.ask_eq_ok_iff, allocate_eq_ok_iff,
    store_eq_ok_iff, emit_eq_ok_iff, Effect.pure_eq_ok_iff] at h
  obtain ⟨_, _, ⟨ha, rfl⟩, id, _, ⟨hid, rfl⟩, _, _, rfl, _, _, rfl, rfl, rfl⟩ := h
  exact .createRoot ha hid

theorem create_ok {g : SelfGrant} (h : create signer g now e = .ok r e') :
    Outcome e now ⟨signer, .create g⟩ r e' := by
  simp only [create, Effect.bind_eq_ok_iff, Effect.ask_eq_ok_iff, allocate_eq_ok_iff,
    store_eq_ok_iff, emit_eq_ok_iff, Effect.pure_eq_ok_iff] at h
  obtain ⟨root, _, ⟨ha, rfl⟩, id, _, ⟨hid, rfl⟩, _, _, rfl, _, _, rfl, rfl, rfl⟩ := h
  exact .create ha hid

theorem payBeneficiaries_ok {payer : Address} {x : Exchange} {u : Unit}
    (h : payBeneficiaries payer x e = .ok u e') :
    ∃ beneficiaries receipt w, e.admitPayment payer x = .ok beneficiaries ∧
      Transfer.settle (e.terms x.feeKind (.account payer) x.executor?) beneficiaries e.toWorld =
        .ok receipt w ∧
      (e.withWorld w).report (receipt.lines.map (·.event x.feeKind x.executor?)) = e' := by
  simp only [payBeneficiaries, Effect.bind_eq_ok_iff, Effect.ask_eq_ok_iff,
    Effect.get_eq_ok_iff, transfer_eq_ok_iff, Effect.update_eq_ok_iff] at h
  obtain ⟨bs, _, ⟨hb, rfl⟩, _, _, ⟨rfl, rfl⟩, receipt, _, ⟨w, hw, rfl⟩, rfl⟩ := h
  exact ⟨bs, receipt, w, hb, hw, rfl⟩

theorem exchange_ok {x : Exchange} (hx : x.executor?.isSome)
    (h : exchange signer x now e = .ok r e') : Outcome e now ⟨signer, .exchange x⟩ r e' := by
  simp only [exchange, Effect.bind_eq_ok_iff, Effect.ask_eq_ok_iff, Effect.update_eq_ok_iff,
    emit_eq_ok_iff, Effect.pure_eq_ok_iff] at h
  obtain ⟨s, _, ⟨hs, rfl⟩, _, _, h, _, _, rfl, _, _, rfl, rfl, rfl⟩ := h
  obtain ⟨bs, receipt, w, hb, hw, rfl⟩ := payBeneficiaries_ok h
  have ho := Outcome.exchange hs hx hb hw
  rw [← Engine.report_after] at ho
  have hh := (Transfer.settle_ok hw).2.2.world.2
  rw [Engine.after, ← hh] at ho
  exact ho

theorem slash_ok {id : PermissionId} {amount : Nat} (hn : amount ≠ 0)
    (h : slash signer id amount now e = .ok r e') :
    Outcome e now ⟨signer, .slash id amount⟩ r e' := by
  simp only [slash, Effect.bind_eq_ok_iff, Effect.ask_eq_ok_iff, onHost_eq_ok_iff,
    Host.burnDeposit_eq_ok_iff hn, store_eq_ok_iff, emit_eq_ok_iff,
    Effect.pure_eq_ok_iff] at h
  obtain ⟨p, _, ⟨ha, rfl⟩, _, _, ⟨_, ⟨-, hb, hc, rfl⟩, rfl⟩, _, _, rfl, _, _, rfl, rfl, rfl⟩ := h
  exact .slash ha hn hb hc

theorem repay_ok {id : PermissionId} (h : repay signer id now e = .ok r e') :
    Outcome e now ⟨signer, .repay id⟩ r e' := by
  simp only [repay, Effect.bind_eq_ok_iff, Effect.ask_eq_ok_iff, Effect.get_eq_ok_iff] at h
  obtain ⟨p, _, ⟨ha, rfl⟩, _, _, ⟨rfl, rfl⟩, h⟩ := h
  have hn : p.slashedDeposit ≠ 0 := by
    simp only [Engine.admitRepayment, Guard.bind_eq_ok_iff, Guard.demand_eq_ok_iff,
      Guard.pure_eq_ok_iff] at ha
    obtain ⟨_, -, _, hn, _, -, rfl⟩ := ha
    exact hn
  simp only [onHost_eq_ok_iff, Engine.bond, Host.sendToModule_eq_ok_iff hn,
    Host.commit_eq_ok_iff hn, Guard.demand_eq_ok_iff, store_eq_ok_iff, emit_eq_ok_iff,
    Effect.pure_eq_ok_iff] at h
  obtain ⟨_, _, ⟨_, ⟨-, hb, -, rfl⟩, rfl⟩, _, _, ⟨_, ⟨-, -, -, rfl⟩, rfl⟩, _, _, ⟨hr, rfl⟩, _,
    _, rfl, _, _, rfl, rfl, rfl⟩ := h
  exact .repay ha hb hr

theorem setParams_ok {params : Params} (h : setParams signer params now e = .ok r e') :
    Outcome e now ⟨signer, .setParams params⟩ r e' := by
  simp only [setParams, authorize, Effect.bind_eq_ok_iff, Effect.ask_eq_ok_iff,
    Guard.demand_eq_ok_iff, Guard.mapError_eq_ok_iff, Effect.update_eq_ok_iff, emit_eq_ok_iff,
    Effect.pure_eq_ok_iff] at h
  obtain ⟨_, _, ⟨hs, rfl⟩, _, _, ⟨hp, rfl⟩, _, _, rfl, _, _, rfl, rfl, rfl⟩ := h
  exact .setParams hs hp

end Transaction

theorem Message.executor_isSome {signer : Address} {x : Exchange}
    (h : Message.check ⟨signer, .exchange x⟩ = .ok ()) : x.executor?.isSome := by
  simp only [check, checkExchange, Guard.bind_eq_ok_iff, Guard.demand_eq_ok_iff] at h
  obtain ⟨_, -, _, hp, -⟩ := h
  by_cases hv : x.verifier = 0
  · have hi : x.issuer ≠ 0 := hp.resolve_right (· hv)
    simp [Exchange.executor?, Exchange.verifier?, Exchange.issuer?, PermissionId.given?, hv, hi]
  · simp [Exchange.executor?, Exchange.verifier?, PermissionId.given?, hv]

theorem Message.slash_amount_ne_zero {signer : Address} {id amount : Nat}
    (h : Message.check ⟨signer, .slash id amount⟩ = .ok ()) : amount ≠ 0 := by
  simp only [check, requireGiven, Guard.bind_eq_ok_iff, Guard.demand_eq_ok_iff] at h
  obtain ⟨_, -, hn⟩ := h
  exact hn

/-- A handler that succeeds on a checked message leaves one of the outcomes. -/
theorem Transaction.perform_ok {e e' : Engine} {now : Instant} {m : Message} {r : Response}
    (hc : m.check = .ok ()) (h : perform m now e = .ok r e') : Outcome e now m r e' := by
  obtain ⟨signer, action⟩ := m
  cases action with
  | start => exact start_ok h
  | renew => exact renew_ok h
  | validate => exact validate_ok h
  | extend => exact extend_ok h
  | revoke => exact revoke_ok h
  | cancel => exact cancel_ok h
  | requestTermination => exact requestTermination_ok h
  | confirmTermination => exact confirmTermination_ok h
  | createRoot => exact createRoot_ok h
  | create => exact create_ok h
  | exchange => exact exchange_ok (Message.executor_isSome hc) h
  | slash => exact slash_ok (Message.slash_amount_ne_zero hc) h
  | repay => exact repay_ok h
  | setParams => exact setParams_ok h

end TrustPermit
