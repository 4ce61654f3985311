import TrustPermit.Proofs.Decimals
import TrustPermit.Proofs.Dues
import TrustPermit.Proofs.Eligibility
import TrustPermit.Proofs.Reports

/-! # Events mirror the ledger

An indexer that reads only the events of payouts can follow the module account, the trust deposits
and the shares of validators. The amounts are written from the lines of a settlement, and the
settlement moved what its lines say.
-/

namespace TrustPermit

def Text.decimal? (text : String) : Option Nat :=
  if !text.toList.isEmpty && text.toList.all isDigit then some (digitsValue text.toList) else none

theorem Text.decimal?_toString (n : Nat) : decimal? (toString n) = some n := by
  have hl : (toString n).toList = padded 0 n := by
    rw [padded_zero]
    exact Nat.toList_repr
  have hdigits : (!(padded 0 n).isEmpty && (padded 0 n).all isDigit) = true := by
    simp only [Bool.and_eq_true, Bool.not_eq_true', List.isEmpty_eq_false_iff, List.all_eq_true]
    exact ⟨padded_ne_nil 0 n, fun _ => isDigit_of_mem_padded⟩
  rw [decimal?, hl, digitsValue_padded, if_pos hdigits]

namespace Event

def amount? (event : Event) (key : String) : Option Nat :=
  (event.attribute? key).bind Text.decimal?

/-- The sum of the numbers under a key; none if one is missing. -/
def sum? (key : String) : List Event → Option Nat
  | [] => some 0
  | event :: rest => do return (← event.amount? key) + (← sum? key rest)

structure AddUp (fees : List Event) (direct shared : Nat) : Prop where
  direct : sum? "direct_amount" fees = some direct
  shared : sum? "trust_deposit_amount" fees = some shared

end Event

namespace Payout

variable (line : Payout) (lines : List Payout) (kind : FeeKind) (executor : Option PermissionId)

theorem amount?_direct :
    (line.event kind executor).amount? "direct_amount" = some line.split.direct := by
  have h : (line.event kind executor).attribute? "direct_amount" =
      some (toString line.split.direct) := by
    cases executor <;> rfl
  rw [Event.amount?, h]
  exact Text.decimal?_toString _

theorem amount?_share :
    (line.event kind executor).amount? "trust_deposit_amount" = some line.split.share := by
  have h : (line.event kind executor).attribute? "trust_deposit_amount" =
      some (toString line.split.share) := by
    cases executor <;> rfl
  rw [Event.amount?, h]
  exact Text.decimal?_toString _

theorem events_addUp : Event.AddUp (lines.map (·.event kind executor))
    (lines.map (·.split.direct)).sum (lines.map (·.split.share)).sum := by
  induction lines with
  | nil => exact ⟨rfl, rfl⟩
  | cons line rest ih =>
    constructor
    · simp [Event.sum?, amount?_direct, ih.direct]
    · simp [Event.sum?, amount?_share, ih.shared]

end Payout

namespace SettlementTerms

variable (t : SettlementTerms) (l : Ledger) (a : Address) (n : Nat)

@[simp] theorem deposits_direct : (t.direct l a n).deposits = l.deposits := by
  unfold direct
  split <;> rfl

@[simp] theorem deposits_collect : (t.collect l n).deposits = l.deposits := by
  unfold collect
  split <;> rfl

end SettlementTerms

theorem World.deposits_paid {w : World} {t : SettlementTerms} {b : Permission} {line : Payout}
    (h : t.Reports w b line) (hx : t.executor.isSome) :
    (w.paid t b line.split).host.ledger.deposits.sum =
      w.host.ledger.deposits.sum + (line.split.share + line.split.share) := by
  rcases Nat.eq_zero_or_pos line.split.share with hz | hz
  · simp [paid, hz, shared_zero]
  · obtain ⟨a, ha⟩ := Option.isSome_iff_exists.mp (h.executor hz.ne' hx)
    have hgrantee : ∀ l, (w.withLedger l).executorGrantee t = some a := fun _ => ha
    simp [paid, shared, hgrantee, Ledger.committedTo, Ledger.committed, Nat.add_assoc]

theorem Transfer.settle_deposits {t : SettlementTerms} {bs : List Permission} {w w' : World}
    {r : Receipt} (h : settle t bs w = .ok r w') (hx : t.executor.isSome) :
    w'.host.ledger.deposits.sum = w.host.ledger.deposits.sum + 2 * r.shared := by
  have hsum := settle_gain (·.host.ledger.deposits.sum)
    (fun line => line.split.share + line.split.share)
    (fun _ _ _ _ hr => World.deposits_paid hr hx) h
  rw [hsum, List.sum_map_add, Receipt.shared_eq, Nat.two_mul]

def Records.Requested (r : Records) : Prop :=
  ∀ id p, r.get? id = some p → p.state = .pending → p.validator.isSome

namespace Engine

variable {e : Engine}

theorem step_requested (hs : e.records.Sound) (hr : e.records.Requested) (s : Step) :
    (e.step s).records.Requested := by
  intro id q hq hpending
  rcases step_rows hs hq with hq | ⟨now, m, rfl, ha, ⟨p, hp, hb⟩ | ⟨-, hc⟩⟩
  · exact hr id q hq hpending
  · rw [hb.sameOrigin.validator]
    by_cases hstate : p.state = .pending
    · exact hr id p hp hstate
    · obtain ⟨signer, rfl, -⟩ := hb.renews hstate hpending
      obtain ⟨r, e', hd⟩ := accepts_iff.mp ha
      cases deliver_ok hd with
      | renew ha =>
        obtain ⟨v, hv, -⟩ := World.admitRenewal_eligible ha
        cases (hs.get?_id hp).symm.trans (World.admitRenewal_ok ha).1
        simp [hv]
  · cases hc with
    | applied => rfl
    | root | selfGranted => cases hpending

theorem run_requested (hs : e.records.Sound) (hr : e.records.Requested) (steps : List Step) :
    (e.run steps).records.Requested :=
  (run_invariant (P := fun e => e.records.Sound ∧ e.records.Requested) ⟨hs, hr⟩
    (fun _ s h => ⟨step_sound h.1, step_requested h.1 h.2 s⟩) steps).2

end Engine

namespace Engine

/-- The fee events of an exchange add up to the amount due, and its shares are what the module
account and, twice, the trust deposits gain. -/
structure MirrorsExchange (e : Engine) (x : Exchange) (fees : List Event) (direct shared : Nat)
    (e' : Engine) : Prop where
  reads : Event.AddUp fees direct shared
  due : ∃ bs, e.records.beneficiaries e.host.schemas x.issuer? x.verifier?
      e.params.maxChainDepth = .ok bs ∧
    amountDue x.feeKind e.host.unitPrice bs = .ok (direct + shared)
  moduleFunds : e'.host.ledger.moduleFunds e.params.moduleAccount =
    e.host.ledger.moduleFunds e.params.moduleAccount + shared
  deposits : e'.host.ledger.deposits.sum = e.host.ledger.deposits.sum + 2 * shared

/-- The one fee event of a consent, if there is one, adds up to the escrowed fees of the row. Its
direct part leaves the module account, and its share is recorded on the row and goes to the
validator. -/
structure MirrorsConsent (e : Engine) (id : PermissionId) (fees : List Event)
    (direct shared : Nat) (e' : Engine) : Prop where
  once : fees.length ≤ 1
  reads : Event.AddUp fees direct shared
  row : ∃ p q, e.records.get? id = some p ∧ e'.records.get? id = some q ∧
    direct + shared = p.escrowedFees ∧ q.validatorShare = p.validatorShare + shared ∧
    ∃ v b b', p.validator = some v ∧ e.records.get? v = some b ∧ e'.records.get? v = some b' ∧
      b'.deposit = b.deposit + shared ∧
      e'.host.ledger.deposit b.grantee = e.host.ledger.deposit b.grantee + shared
  moduleFunds : e'.host.ledger.moduleFunds e.params.moduleAccount + direct =
    e.host.ledger.moduleFunds e.params.moduleAccount

def Mirrors (e : Engine) (m : Message) (fees : List Event) (e' : Engine) : Prop :=
  match m.action with
  | .exchange x => ∃ direct shared, e.MirrorsExchange x fees direct shared e'
  | .validate id _ => ∃ direct shared, e.MirrorsConsent id fees direct shared e'
  | _ => fees = []

theorem admitPayment_due {e : Engine} {payer : Address} {x : Exchange} {bs : List Permission}
    (h : e.admitPayment payer x = .ok bs) :
    e.records.beneficiaries e.host.schemas x.issuer? x.verifier? e.params.maxChainDepth =
        .ok bs ∧
      ∃ n, amountDue x.feeKind e.host.unitPrice bs = .ok n := by
  simp only [admitPayment, Guard.bind_eq_ok_iff, Guard.pure_eq_ok_iff] at h
  obtain ⟨_, hb, n, hn, _, -, rfl⟩ := h
  exact ⟨hb, n, hn⟩

end Engine

/-- A consent pays the validator out of the escrow, be it nothing. -/
theorem Engine.mirrorsConsent_paid {e : Engine} (hs : e.records.Sound) {id v : PermissionId}
    {p validator : Permission} (hp : e.records.get? id = some p) (hv : p.validator = some v)
    (hq : e.records.get? v = some validator) (split : FeeShares)
    (hparts : split.direct + split.share = p.escrowedFees)
    (hc : split.direct ≤ e.host.ledger.moduleFunds e.params.moduleAccount) (fees : List Event)
    (honce : fees.length ≤ 1) (hreads : Event.AddUp fees split.direct split.share)
    (terms : Terms) (windowEnd : Option Instant) (now : Instant) (events : List Event) :
    e.MirrorsConsent id fees split.direct split.share
      (e.after ((e.toWorld.paid (e.terms .validation .escrow none) validator
          split).records.insert (p.granted terms windowEnd split.share now))
        (e.toWorld.paid (e.terms .validation .escrow none) validator split).host.ledger
        events) where
  once := honce
  reads := hreads
  row := by
    have hid : p.id = id := hs.id_eq hp
    have hne : v ≠ id := (hs.validator_lt hp hv).ne
    have hself : (e.terms .validation .escrow none).credits validator.id split.share v =
        split.share := by
      simp [SettlementTerms.credits, Engine.terms, hs.id_eq hq]
    refine ⟨p, p.granted terms windowEnd split.share now, hp, ?_, hparts, rfl, v, validator,
      validator.raiseDeposit split.share, hv, hq, ?_, rfl, ?_⟩
    · simp [Permission.granted, Permission.enter, hid]
    · have hgranted : (p.granted terms windowEnd split.share now).id = id := hid
      simp [World.paid, World.shared, hgranted, hne, hq, hself]
    · have hnone : e.toWorld.executorGrantee (e.terms .validation .escrow none) = none := rfl
      rw [Engine.host_after, Host.ledger_withLedger, World.deposit_paid, hnone]
      simp
  moduleFunds := by
    have hfunds : (e.terms .validation .escrow none).Funds e.host.ledger validator.grantee
        split := ⟨fun _ => hc, by rintro _ ⟨⟩, by rintro _ ⟨⟩⟩
    have hpaid := World.moduleFunds_paid_escrow rfl hfunds e.params.moduleAccount
    rwa [show (e.terms .validation .escrow none).moduleAccount = e.params.moduleAccount from rfl,
      if_pos rfl] at hpaid

theorem Outcome.mirrors {e e' : Engine} {now : Instant} {m : Message} {r : Response}
    (hs : e.records.Sound) (hr : e.records.Requested) (h : Outcome e now m r e') :
    ∃ fees own, e'.events = e.events ++ (fees ++ [own]) ∧ (∀ fee ∈ fees, fee.isPayout = true) ∧
      own.kind = m.action.name ∧ e.Mirrors m fees e' := by
  cases h with
  | @consent signer id terms p windowEnd ha hz hd =>
    obtain ⟨hp, -, hst⟩ := World.admitConsent_ok ha
    obtain ⟨v, hv⟩ := Option.isSome_iff_exists.mp (hr id p hp hst)
    obtain ⟨validator, hq⟩ := hs.validator_some hp hv
    have hsame : e.toWorld.paid (e.terms .validation .escrow none) validator ⟨0, 0, 0⟩ =
        e.toWorld := by
      rw [World.paid, SettlementTerms.direct_zero, World.shared_zero]
      rfl
    have hreads : Event.AddUp [] 0 0 := ⟨rfl, rfl⟩
    have hmirrors := Engine.mirrorsConsent_paid hs hp hv hq ⟨0, 0, 0⟩ hz.symm (Nat.zero_le _)
      [] (Nat.zero_le 1) hreads terms windowEnd now
      [consentEvent (p.granted terms windowEnd 0 now) signer terms]
    rw [hsame] at hmirrors
    exact ⟨[], _, rfl, fun _ hf => (List.not_mem_nil hf).elim, rfl, 0, 0, hmirrors⟩
  | @paidConsent signer id terms p windowEnd v validator line ha hn hv hg hb hf hc hd =>
    have hp := (World.admitConsent_ok ha).1
    refine ⟨[line.event .validation (some p.id)], _, rfl, ?_, rfl, _, _,
      Engine.mirrorsConsent_paid hs hp hv hg line.split (FeeShares.of_ok hf).2.1 hc _ le_rfl
        (Payout.events_addUp [line] .validation (some p.id)) _ _ _ _⟩
    intro fee hfee
    rw [List.mem_singleton.mp hfee]
    apply Payout.isPayout_event
  | @exchange signer x s bs receipt w ha hx hb hw =>
    refine ⟨receipt.lines.map (·.event x.feeKind x.executor?), _, rfl, ?_, rfl, receipt.direct,
      receipt.shared, ?_⟩
    · intro fee hfee
      obtain ⟨line, -, rfl⟩ := List.mem_map.mp hfee
      apply Payout.isPayout_event
    · constructor
      · simp only [Receipt.direct, Receipt.shared, Receipt.total_eq]
        apply Payout.events_addUp
      · obtain ⟨hbs, n, hn⟩ := Engine.admitPayment_due hb
        have hparts : receipt.direct + receipt.shared = n :=
          (Transfer.settle_parts hw).trans (amountDue_eq_ok_iff.mp hn).1
        exact ⟨bs, hbs, hparts ▸ hn⟩
      · exact (Transfer.settle_moduleFunds hw rfl _).trans (congrArg _ (if_pos rfl))
      · have hsum := Transfer.settle_deposits hw hx
        exact hsum
  | _ => exact ⟨[], _, rfl, fun _ hf => (List.not_mem_nil hf).elim, rfl, rfl⟩

/-- From the fee events of a message one reads off, in any state that a run reaches, what it moved:
those of an exchange add up to the amount due, of which the shares go into the module account and
twice into trust deposits; that of a consent adds up to the escrowed fees, of which the direct part
leaves the module account and the share goes to the validator. No other message reports fees. -/
theorem fee_events_mirror_ledger {host : Host} {params : Params} {authority : Address}
    {e e' : Engine} (hn : Engine.new host params authority = .ok e) (steps : List Step)
    {now : Instant} {m : Message} {r : Response}
    (hd : (e.run steps).deliver now m = (.ok r, e')) :
    ∃ reported, e'.events = (e.run steps).events ++ reported ∧
      (e.run steps).Mirrors m (reported.filter (·.isPayout)) e' := by
  have hs := Engine.new_sound hn
  have hr := Engine.run_requested hs (Engine.new_rows hn) steps
  obtain ⟨fees, own, he, hfees, hown, hmirrors⟩ :=
    (Engine.deliver_ok hd).mirrors (Engine.run_sound hs steps) hr
  refine ⟨fees ++ [own], he, ?_⟩
  have hfilter : (fees ++ [own]).filter (·.isPayout) = fees := by
    rw [List.filter_append, List.filter_eq_self.mpr hfees]
    simp [Action.isPayout_eq_false hown]
  rw [hfilter]
  exact hmirrors

namespace Sample

def feeEvent (kind beneficiary direct share executor : String) : Event where
  kind := "settle_fee"
  attributes := [("fee_kind", kind), ("beneficiary_perm_id", beneficiary),
    ("direct_amount", direct), ("trust_deposit_amount", share), ("executor_perm_id", executor)]

end Sample

/-- The controller is paid for its consent to the grantor, and later, with the grantor, for an
exchange. -/
theorem fee_events_mirror_ledger_founding :
    (Sample.engine.run (Sample.founding.take 2)).MirrorsConsent 2
      [Sample.feeEvent "validation" "1" "80" "20" "2"] 80 20
      ((Sample.engine.run (Sample.founding.take 2)).deliver Sample.noon
        ⟨Sample.controller, .validate 2 (Sample.terms 50 30)⟩).2 ∧
    (Sample.engine.run Sample.founding).MirrorsExchange ⟨"s", 3, 0, 3, 0⟩
      [Sample.feeEvent "issuance" "2" "24" "6" "3", Sample.feeEvent "issuance" "1" "40" "10" "3"]
      64 16
      ((Sample.engine.run Sample.founding).deliver Sample.noon
        ⟨Sample.issuer, .exchange ⟨"s", 3, 0, 3, 0⟩⟩).2 := by
  have hall : ∀ steps m fees, (Sample.engine.run steps).Accepts Sample.noon m →
      (((Sample.engine.run steps).deliver Sample.noon m).2.events.drop
        (Sample.engine.run steps).events.length).filter (·.isPayout) = fees →
      (Sample.engine.run steps).Mirrors m fees
        ((Sample.engine.run steps).deliver Sample.noon m).2 := by
    rintro steps m _ ha rfl
    obtain ⟨r, e', hd⟩ := Engine.accepts_iff.mp ha
    obtain ⟨reported, he, hmirrors⟩ := fee_events_mirror_ledger Sample.engine_new steps hd
    rw [hd, he, List.drop_left]
    exact hmirrors
  constructor
  · obtain ⟨direct, shared, h⟩ := hall (Sample.founding.take 2)
      ⟨Sample.controller, .validate 2 (Sample.terms 50 30)⟩
      [Sample.feeEvent "validation" "1" "80" "20" "2"] (by decide +kernel) (by decide +kernel)
    obtain rfl : 80 = direct := Option.some.inj h.reads.direct
    obtain rfl : 20 = shared := Option.some.inj h.reads.shared
    exact h
  · obtain ⟨direct, shared, h⟩ := hall Sample.founding ⟨Sample.issuer, .exchange ⟨"s", 3, 0, 3, 0⟩⟩
      [Sample.feeEvent "issuance" "2" "24" "6" "3", Sample.feeEvent "issuance" "1" "40" "10" "3"]
      (by decide +kernel) (by decide +kernel)
    obtain rfl : 64 = direct := Option.some.inj h.reads.direct
    obtain rfl : 16 = shared := Option.some.inj h.reads.shared
    exact h

end TrustPermit
