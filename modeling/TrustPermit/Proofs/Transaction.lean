import TrustPermit.Engine.Exchange
import TrustPermit.Engine.Lifecycle
import TrustPermit.Proofs.Settlement

/-! # What the parts of a handler do

Handlers are built from charges, refunds, commitments and releases. Each of them succeeds under a
condition and turns the engine into a given one.
-/

namespace TrustPermit

namespace Engine

def withLedger (e : Engine) (l : Ledger) : Engine := e.withWorld (e.toWorld.withLedger l)

/-- The engine after a handler that left these records and this ledger and reported these
events. -/
def after (e : Engine) (r : Records) (l : Ledger) (events : List Event) : Engine :=
  (e.withWorld ⟨r, e.host.withLedger l⟩).report events

def charged (e : Engine) (applicant : Address) (cost : Escrow) : Ledger :=
  (e.host.ledger.collected applicant e.params.moduleAccount cost.total).committed applicant
    cost.deposit

variable (e : Engine) (r : Records) (l : Ledger) (events : List Event)

@[simp] theorem toWorld_withLedger : (e.withLedger l).toWorld = e.toWorld.withLedger l := rfl

@[simp] theorem params_withLedger : (e.withLedger l).params = e.params := rfl

@[simp] theorem withLedger_withLedger (l' : Ledger) :
    (e.withLedger l).withLedger l' = e.withLedger l' := rfl

@[simp] theorem withLedger_self : e.withLedger e.host.ledger = e := rfl

@[simp] theorem records_after : (e.after r l events).records = r := rfl

@[simp] theorem host_after : (e.after r l events).host = e.host.withLedger l := rfl

@[simp] theorem params_after : (e.after r l events).params = e.params := rfl

@[simp] theorem authority_after : (e.after r l events).authority = e.authority := rfl

@[simp] theorem events_after : (e.after r l events).events = e.events ++ events := rfl

theorem report_after (events' : List Event) :
    (e.after r l events).report events' = e.after r l (events ++ events') := by
  simp [after, report, withWorld]

end Engine

namespace Transaction

variable {e e' : Engine} {a : Address} {n : Nat} {u : Unit}

@[simp] theorem transfer_eq_ok_iff {α : Type} {action : Transfer α} {x : α} :
    transfer action e = .ok x e' ↔ ∃ w, action e.toWorld = .ok x w ∧ e.withWorld w = e' := by
  simp [transfer]

theorem onHost_eq_ok_iff {α : Type} {action : HostAction α} {x : α} :
    onHost action e = .ok x e' ↔
      ∃ h, action e.host = .ok x h ∧ e.withWorld (e.toWorld.withHost h) = e' := by
  simp [onHost]

theorem collect_eq_ok_iff :
    collect a n e = .ok u e' ↔
      (n ≠ 0 → e.params.bondDenom = e.host.denom ∧ n ≤ e.host.ledger.balance a ∧
        e.host.ledger.moduleFunds e.params.moduleAccount + n < amountBound) ∧
      e.withLedger (e.host.ledger.collected a e.params.moduleAccount n) = e' := by
  by_cases hn : n = 0
  · simp [collect, Effect.unlessZero, hn]
  · simp only [collect, Effect.unlessZero, hn, if_false, Effect.bind_eq_ok_iff,
      Effect.get_eq_ok_iff, onHost_eq_ok_iff, Engine.bond, Host.sendToModule_eq_ok_iff hn]
    constructor
    · rintro ⟨_, _, ⟨rfl, rfl⟩, _, ⟨hd, hb, hm, rfl⟩, rfl⟩
      exact ⟨fun _ => ⟨hd, hb, hm⟩, rfl⟩
    · rintro ⟨h, rfl⟩
      obtain ⟨hd, hb, hm⟩ := h hn
      exact ⟨_, _, ⟨rfl, rfl⟩, _, ⟨hd, hb, hm, rfl⟩, rfl⟩

theorem refund_eq_ok_iff :
    refund a n e = .ok u e' ↔
      (n ≠ 0 → e.params.bondDenom = e.host.denom ∧
        n ≤ e.host.ledger.moduleFunds e.params.moduleAccount ∧
        e.host.ledger.balance a + n < amountBound) ∧
      e.withLedger (e.host.ledger.refunded e.params.moduleAccount a n) = e' := by
  by_cases hn : n = 0
  · simp [refund, Effect.unlessZero, hn]
  · simp only [refund, Effect.unlessZero, hn, if_false, Effect.bind_eq_ok_iff,
      Effect.get_eq_ok_iff, onHost_eq_ok_iff, Engine.bond, Host.sendFromModule_eq_ok_iff hn]
    constructor
    · rintro ⟨_, _, ⟨rfl, rfl⟩, _, ⟨hd, hb, hm, rfl⟩, rfl⟩
      exact ⟨fun _ => ⟨hd, hb, hm⟩, rfl⟩
    · rintro ⟨h, rfl⟩
      obtain ⟨hd, hb, hm⟩ := h hn
      exact ⟨_, _, ⟨rfl, rfl⟩, _, ⟨hd, hb, hm, rfl⟩, rfl⟩

theorem commit_eq_ok_iff :
    commit a n e = .ok u e' ↔
      (n ≠ 0 → n < deltaBound ∧ a ∉ e.host.frozen ∧
        e.host.ledger.deposit a + n < amountBound) ∧
      e.withLedger (e.host.ledger.committed a n) = e' := by
  by_cases hn : n = 0
  · simp [commit, Effect.unlessZero, hn]
  · simp only [commit, Effect.unlessZero, hn, if_false, onHost_eq_ok_iff,
      Host.commit_eq_ok_iff hn]
    constructor
    · rintro ⟨_, ⟨hd, hf, hb, rfl⟩, rfl⟩
      exact ⟨fun _ => ⟨hd, hf, hb⟩, rfl⟩
    · rintro ⟨h, rfl⟩
      obtain ⟨hd, hf, hb⟩ := h hn
      exact ⟨_, ⟨hd, hf, hb, rfl⟩, rfl⟩

theorem release_eq_ok_iff :
    release a n e = .ok u e' ↔
      (n ≠ 0 → n < deltaBound ∧ a ∉ e.host.frozen ∧ n ≤ e.host.ledger.deposit a ∧
        e.host.ledger.claim a + n < amountBound) ∧
      e.withLedger (e.host.ledger.released a n) = e' := by
  by_cases hn : n = 0
  · simp [release, Effect.unlessZero, hn]
  · simp only [release, Effect.unlessZero, hn, if_false, onHost_eq_ok_iff,
      Host.release_eq_ok_iff hn]
    constructor
    · rintro ⟨_, ⟨hd, hf, hb, hc, rfl⟩, rfl⟩
      exact ⟨fun _ => ⟨hd, hf, hb, hc⟩, rfl⟩
    · rintro ⟨h, rfl⟩
      obtain ⟨hd, hf, hb, hc⟩ := h hn
      exact ⟨_, ⟨hd, hf, hb, hc, rfl⟩, rfl⟩

theorem allocate_eq_ok_iff {id : PermissionId} :
    allocate e = .ok id e' ↔ e.records.nextId Records.permissionCounter = .ok id ∧
      e.withRecords (e.records.allocate Records.permissionCounter) = e' := by
  simp only [allocate, Effect.bind_eq_ok_iff, Effect.ask_eq_ok_iff, Effect.update_eq_ok_iff,
    Effect.pure_eq_ok_iff]
  constructor
  · rintro ⟨_, _, ⟨h, rfl⟩, _, _, rfl, rfl, rfl⟩
    exact ⟨h, rfl⟩
  · rintro ⟨h, rfl⟩
    exact ⟨id, e, ⟨h, rfl⟩, (), _, rfl, rfl, rfl⟩

@[simp] theorem store_eq_ok_iff {p : Permission} : store p e = .ok u e' ↔ e.put p = e' := by
  simp [store]

@[simp] theorem emit_eq_ok_iff {event : Event} :
    emit event e = .ok u e' ↔ e.report [event] = e' := by
  simp [emit]

theorem escrow_ok {validator : Permission} {cost : Escrow}
    (h : escrow a validator e = .ok cost e') :
    e.quote validator = .ok cost ∧ cost.total ≤ e.host.ledger.balance a ∧
      e.withLedger (e.charged a cost) = e' := by
  simp only [escrow, Effect.bind_eq_ok_iff, Effect.ask_eq_ok_iff, collect_eq_ok_iff,
    commit_eq_ok_iff, Effect.pure_eq_ok_iff] at h
  obtain ⟨_, _, ⟨hq, rfl⟩, _, _, ⟨-, rfl⟩, _, _, ⟨hc, rfl⟩, _, _, ⟨-, rfl⟩, rfl, rfl⟩ := h
  refine ⟨hq, ?_, rfl⟩
  rcases Nat.eq_zero_or_pos (Escrow.total _) with hz | hz
  · exact hz ▸ Nat.zero_le _
  · exact (hc hz.ne').2.1

theorem escrow_denom {validator : Permission} {cost : Escrow}
    (h : escrow a validator e = .ok cost e') (hn : cost.fee ≠ 0) :
    e.params.bondDenom = e.host.denom := by
  simp only [escrow, Effect.bind_eq_ok_iff, Effect.ask_eq_ok_iff, collect_eq_ok_iff,
    Effect.pure_eq_ok_iff] at h
  obtain ⟨cost', _, ⟨-, rfl⟩, _, _, ⟨-, rfl⟩, _, _, ⟨hc, -⟩, _, _, -, rfl, -⟩ := h
  have htotal : cost'.total ≠ 0 := by
    unfold Escrow.total
    omega
  exact (hc htotal).1

end Transaction

namespace Ledger

def shareReturned (l : Ledger) (p : Permission) (authority : Address) : Ledger :=
  if p.validator.isSome then l.released authority p.validatorShare else l

def terminated (l : Ledger) (p : Permission) (authority : Address) : Ledger :=
  (l.released p.grantee p.unslashed).shareReturned p authority

/-- The trust deposits hold what a confirmed termination takes out of them. -/
structure Affords (l : Ledger) (p : Permission) (authority : Address) : Prop where
  own : p.unslashed ≤ l.deposit p.grantee
  share : p.validator.isSome →
    p.validatorShare ≤ (l.released p.grantee p.unslashed).deposit authority

end Ledger

namespace Transaction

variable {e e' : Engine} {a : Address} {p : Permission} {u : Unit}

theorem releaseShare_eq_ok_iff :
    releaseShare p a e = .ok u e' ↔
      (p.validator.isSome → p.validatorShare ≠ 0 → p.validatorShare < deltaBound ∧
        a ∉ e.host.frozen ∧ p.validatorShare ≤ e.host.ledger.deposit a ∧
        e.host.ledger.claim a + p.validatorShare < amountBound) ∧
      e.withWorld ⟨e.records.shareReturned p,
        e.host.withLedger (e.host.ledger.shareReturned p a)⟩ = e' := by
  cases hv : p.validator with
  | none =>
    simp only [releaseShare, hv, Effect.pure_eq_ok_iff, Records.shareReturned,
      Ledger.shareReturned]
    simp
    rfl
  | some v =>
    by_cases hn : p.validatorShare = 0
    · simp only [releaseShare, hv, Effect.unlessZero, hn, if_true, Effect.pure_eq_ok_iff,
        Records.shareReturned, Ledger.shareReturned, Records.modify_lowerDeposit_zero]
      simp
      rfl
    · simp only [releaseShare, hv, Effect.unlessZero, hn, if_false, Effect.bind_eq_ok_iff,
        onHost_eq_ok_iff, Host.release_eq_ok_iff hn, Effect.update_eq_ok_iff,
        Records.shareReturned, Ledger.shareReturned]
      constructor
      · rintro ⟨_, _, ⟨_, ⟨hd, hf, hb, hc, rfl⟩, rfl⟩, rfl⟩
        exact ⟨fun _ _ => ⟨hd, hf, hb, hc⟩, rfl⟩
      · rintro ⟨h, rfl⟩
        obtain ⟨hd, hf, hb, hc⟩ := h rfl hn
        exact ⟨(), _, ⟨_, ⟨hd, hf, hb, hc, rfl⟩, rfl⟩, rfl⟩

/-- The validator is paid out of the escrow, if the request holds a fee. -/
theorem payValidator_ok {share : Nat} (h : payValidator p e = .ok share e') :
    p.escrowedFees = 0 ∧ share = 0 ∧ e = e' ∨
      p.escrowedFees ≠ 0 ∧ ∃ (v : PermissionId) (validator : Permission) (line : Payout),
        p.validator = some v ∧
        e.records.get? v = some validator ∧ line.beneficiary = validator.id ∧
        FeeShares.of p.escrowedFees e.params.depositRate = .ok line.split ∧
        line.split.direct ≤ e.host.ledger.moduleFunds e.params.moduleAccount ∧
        share = line.split.share ∧
        (e.withWorld (e.toWorld.paid (e.terms .validation .escrow none) validator
          line.split)).report [line.event .validation (some p.id)] = e' := by
  by_cases hz : p.escrowedFees = 0
  · simp only [payValidator, hz, if_true, Effect.pure_eq_ok_iff] at h
    exact .inl ⟨hz, h.1.symm, h.2⟩
  · simp only [payValidator, hz, if_false, Effect.bind_eq_ok_iff, Effect.ask_eq_ok_iff,
      Guard.expect_eq_ok_iff, Records.require_eq_ok_iff, Effect.get_eq_ok_iff,
      transfer_eq_ok_iff, emit_eq_ok_iff, Effect.pure_eq_ok_iff] at h
    obtain ⟨v, _, ⟨hv, rfl⟩, validator, _, ⟨hr, rfl⟩, _, _, ⟨rfl, rfl⟩, line, _,
      ⟨w, hp, rfl⟩, _, _, rfl, rfl, rfl⟩ := h
    obtain ⟨hs, hb, -, hc, -, rfl⟩ := Transfer.payOut_ok hp
    exact .inr ⟨hz, v, validator, line, hv, hr, hb, hs, hc rfl, rfl, rfl⟩

end Transaction

end TrustPermit
