import TrustPermit.Proofs.Backing
import TrustPermit.Proofs.Shortages

/-! # Amounts in range

A trust deposit changes by signed amounts, so what a termination releases must stay below a bound
that single payouts keep, while the deposit of a row adds up many of them. The rows cannot outgrow
the coins: together they hold no more than twice what the module accounts do, since a payout
collects its share once for two credits.
-/

namespace TrustPermit

/-- What a row counts for against the coins in the module accounts. Fees in escrow become a share
for the row and a deposit of its validator, so they count for both. -/
def Permission.weight (p : Permission) : Nat := p.deposit + p.validatorShare + 2 * p.escrowedFees

namespace Permission

variable {p : Permission}

theorem weight_raiseDeposit (p : Permission) (n : Nat) :
    (p.raiseDeposit n).weight = p.weight + n := by
  simp only [weight, raiseDeposit]
  omega

theorem weight_lowerDeposit_le (p : Permission) (n : Nat) :
    (p.lowerDeposit n).weight ≤ p.weight := by
  simp only [weight, lowerDeposit]
  omega

theorem weight_withoutShare_le (p : Permission) : p.withoutShare.weight ≤ p.weight := by
  simp only [weight, withoutShare]
  omega

theorem weight_cancelled_le (p : Permission) (actor : Address) (now : Instant) :
    (p.cancelled actor now).weight + 2 * p.escrowedFees ≤ p.weight := by
  unfold cancelled
  split <;> simp only [weight, withoutRequest, archived, enter] <;> omega

end Permission

namespace Records

def weight (r : Records) : Nat := r.total (·.weight)

variable {r r' : Records} {p q : Permission} {id : PermissionId}

@[simp] theorem weight_allocate (entity : String) : (r.allocate entity).weight = r.weight := rfl

theorem weight_insert_over (h : r.get? q.id = some p) :
    (r.insert q).weight + p.weight = r.weight + q.weight :=
  total_insert_over h (·.weight)

theorem weight_insert_new (h : r.get? p.id = none) : (r.insert p).weight = r.weight + p.weight :=
  total_insert_new h (·.weight)

theorem weight_le_of_rows (h : ∀ id q, r'.get? id = some q →
    ∃ p, r.get? id = some p ∧ q.weight ≤ p.weight) : r'.weight ≤ r.weight := by
  refine Table.total_le_total fun id => ?_
  change ((r'.get? id).map _).getD 0 ≤ ((r.get? id).map _).getD 0
  cases hq : r'.get? id with
  | none => exact Nat.zero_le _
  | some q =>
    obtain ⟨p, hp, hle⟩ := h id q hq
    simpa [hp] using hle

theorem weight_clearShares_le (r : Records) (v : PermissionId) :
    (r.clearShares v).weight ≤ r.weight := by
  refine weight_le_of_rows fun id q hq => ?_
  rw [get?_clearShares, Option.map_eq_some_iff] at hq
  obtain ⟨p, hp, rfl⟩ := hq
  refine ⟨p, hp, ?_⟩
  split
  · exact p.weight_withoutShare_le
  · exact le_rfl

theorem weight_shareReturned_le (r : Records) (p : Permission) :
    (r.shareReturned p).weight ≤ r.weight := by
  refine weight_le_of_rows fun id q hq => ?_
  rw [get?_shareReturned, Option.map_eq_some_iff] at hq
  obtain ⟨q, hq, rfl⟩ := hq
  refine ⟨q, hq, ?_⟩
  split
  · exact q.weight_lowerDeposit_le _
  · exact le_rfl

theorem weight_raisedBy_le (r : Records) (id : PermissionId) (n : Nat) :
    (r.raisedBy fun other => if other = id then n else 0).weight ≤ r.weight + n := by
  cases hp : r.get? id with
  | none =>
    refine (weight_le_of_rows fun other q hq => ?_).trans (Nat.le_add_right _ _)
    rw [get?_raisedBy, Option.map_eq_some_iff] at hq
    obtain ⟨q, hq, rfl⟩ := hq
    have hne : other ≠ id := by
      rintro rfl
      cases hp.symm.trans hq
    exact ⟨q, hq, by simp [hne]⟩
  | some p =>
    have ht := total_modify hp (·.raiseDeposit n) (·.weight)
    rw [modify_raiseDeposit, p.weight_raiseDeposit] at ht
    simp only [weight]
    omega

theorem weight_credits_le (r : Records) (t : SettlementTerms) (b : PermissionId) (n : Nat) :
    (r.raisedBy (t.credits b n)).weight ≤ r.weight + 2 * n := by
  have hb := r.weight_raisedBy_le b n
  cases hx : t.executor with
  | none =>
    rw [t.credits_none n b hx]
    omega
  | some x =>
    have h := (r.raisedBy fun id => if id = b then n else 0).weight_raisedBy_le x n
    rw [raisedBy_raisedBy] at h
    rw [t.credits_some n b hx]
    omega

end Records

namespace World

/-- The module accounts hold half of what the rows count for. -/
def CarriesRows (w : World) : Prop := w.records.weight ≤ 2 * w.host.ledger.held

namespace CarriesRows

variable {w w' : World} {p q : Permission}

theorem row_le (hw : w.CarriesRows) {id : PermissionId} (hp : w.records.get? id = some p) :
    p.deposit + p.validatorShare ≤ 2 * w.host.ledger.held := by
  have hle := (Records.le_total hp (·.weight)).trans hw
  simp only [Permission.weight] at hle
  omega

theorem insert_over (hw : w.CarriesRows) (hp : w.records.get? p.id = some p)
    (ho : p.SameOrigin q) (hr : w'.records = w.records.insert q)
    (hl : 2 * w.host.ledger.held + q.weight ≤ 2 * w'.host.ledger.held + p.weight) :
    w'.CarriesRows := by
  have hn := Records.weight_insert_over (q := q) (ho.id ▸ hp)
  have : w.records.weight ≤ 2 * w.host.ledger.held := hw
  rw [CarriesRows, hr]
  omega

theorem insert_new (hw : w.CarriesRows) (hs : w.records.Sound)
    (hid : p.id = w.records.counter Records.permissionCounter + 1)
    (hr : w'.records = (w.records.allocate Records.permissionCounter).insert p)
    (hl : 2 * w.host.ledger.held + p.weight ≤ 2 * w'.host.ledger.held) : w'.CarriesRows := by
  have hfresh : (w.records.allocate Records.permissionCounter).get? p.id = none :=
    hs.get?_fresh (hid ▸ Nat.lt_succ_self _)
  have hn := Records.weight_insert_new hfresh
  rw [Records.weight_allocate] at hn
  have : w.records.weight ≤ 2 * w.host.ledger.held := hw
  rw [CarriesRows, hr]
  omega

theorem paid (hw : w.CarriesRows) {t : SettlementTerms} {payer : Address}
    (ht : t.payer = .account payer) (b : Permission) (split : FeeShares) :
    (w.paid t b split).CarriesRows := by
  have : w.records.weight ≤ 2 * w.host.ledger.held := hw
  have hcredits := w.records.weight_credits_le t b.id split.share
  simp only [CarriesRows, World.paid, shared, records_withLedger, host_withLedger,
    Host.ledger_withLedger, SettlementTerms.collect, SettlementTerms.direct, ht,
    Ledger.held_committedTo, Ledger.held_committed, Ledger.held_collected, Ledger.held_sent]
  omega

theorem terminated (hw : w.CarriesRows) (hs : w.records.Sound)
    (hp : w.records.get? p.id = some p) {signer : Address} {now : Instant}
    (hr : w'.records = w.records.terminated p signer now)
    (hl : w'.host.ledger.held = w.host.ledger.held) : w'.CarriesRows := by
  have hrows : (w.withRecords ((w.records.clearShares p.id).shareReturned p)).CarriesRows :=
    ((Records.weight_shareReturned_le _ p).trans (w.records.weight_clearShares_le p.id)).trans hw
  refine hrows.insert_over (hs.get?_settled hp) (.closed p signer now) hr ?_
  rw [hl]
  refine Nat.add_le_add_left ?_ _
  simp only [Permission.weight, Permission.closed, Permission.archived, Permission.enter]
  omega

end CarriesRows

end World

theorem Settles.carriesRows {t : SettlementTerms} {bs : List Permission} {w w' : World}
    {lines : List Payout} (h : Settles t bs w lines w') {payer : Address}
    (ht : t.payer = .account payer) (hw : w.CarriesRows) : w'.CarriesRows := by
  induction h with
  | nil => exact hw
  | skip _ _ ih => exact ih hw
  | pay _ _ _ _ _ _ ih => exact ih (hw.paid ht _ _)

/-- The rows of a paid consent: the escrow of the request becomes the validator's deposit and the
share of the row. -/
theorem World.CarriesRows.granted {w w' : World} (hw : w.CarriesRows) (hs : w.records.Sound)
    {id v : PermissionId} {p validator : Permission} (hp : w.records.get? id = some p)
    (hv : p.validator = some v) (hq : w.records.get? v = some validator) {t : SettlementTerms}
    (hx : t.executor = none) {split : FeeShares} {terms : Terms} {windowEnd : Option Instant}
    {now : Instant} (hr : w'.records =
      (w.paid t validator split).records.insert (p.granted terms windowEnd split.share now))
    (hl : 2 * w.host.ledger.held + 2 * split.share ≤
      2 * w'.host.ledger.held + 2 * p.escrowedFees) : w'.CarriesRows := by
  have hrow := Records.weight_insert_over (q := p.granted terms windowEnd split.share now)
    (hs.get?_paid hp hv hq hx split)
  have hraised : (w.paid t validator split).records.weight ≤ w.records.weight + split.share := by
    have hrecords : (w.paid t validator split).records =
        w.records.raisedBy fun other => if other = validator.id then split.share else 0 := by
      rw [← t.credits_none split.share validator.id hx]
      rfl
    rw [hrecords]
    exact w.records.weight_raisedBy_le validator.id split.share
  have : w.records.weight ≤ 2 * w.host.ledger.held := hw
  have hq : (p.granted terms windowEnd split.share now).weight + 2 * p.escrowedFees =
      p.weight + split.share := by
    simp only [Permission.weight, Permission.granted, Permission.enter]
    omega
  rw [CarriesRows, hr]
  omega

/-- Every message leaves the rows within what the coins in the module accounts carry. -/
theorem Outcome.carriesRows {e e' : Engine} {now : Instant} {m : Message} {r : Response}
    (hs : e.records.Sound) (he : e.CarriesRows) (h : Outcome e now m r e') : e'.CarriesRows := by
  cases h with
  | @start signer application validator schema cost id windowEnd ha hq hb hid hw =>
    obtain ⟨-, rfl⟩ := Records.nextId_eq_ok_iff.mp hid
    refine he.insert_new hs rfl rfl ?_
    change _ + (cost.deposit + 0 + 2 * cost.fee) ≤ 2 * (e.charged signer cost).held
    rw [e.held_charged]
    omega
  | @renew signer id p validator cost ha hq hb hd =>
    obtain ⟨hp, -, -⟩ := World.admitRenewal_ok ha
    refine he.insert_over (hs.get?_id hp) (.renewing p cost.fee cost.deposit now) rfl ?_
    change _ + (p.deposit + cost.deposit + p.validatorShare + 2 * cost.fee) ≤
      2 * (e.charged signer cost).held + p.weight
    rw [e.held_charged, Permission.weight]
    omega
  | @consent signer id terms p windowEnd ha hz hd =>
    obtain ⟨hp, -, -⟩ := World.admitConsent_ok ha
    refine he.insert_over (hs.get?_id hp) (.granted p terms windowEnd 0 now) rfl ?_
    simp only [Engine.host_after, Host.ledger_withLedger, Permission.weight, Permission.granted,
      Permission.enter]
    omega
  | @paidConsent signer id terms p windowEnd v validator line ha hn hv hg hb hf hc hd =>
    obtain ⟨hp, -, -⟩ := World.admitConsent_ok ha
    refine he.granted hs hp hv hg rfl rfl ?_
    have hheld := e.host.ledger.held_refunded validator.grantee e.params.moduleAccount _ hc
    have hsum := (FeeShares.of_ok hf).2.1
    change _ ≤ 2 * (e.host.ledger.refunded e.params.moduleAccount validator.grantee
      line.split.direct).held + _
    omega
  | extend ha =>
    obtain ⟨hp, -⟩ := World.admitExtension_ok ha
    exact he.insert_over (hs.get?_id hp) (.extendedTo _ _ _ _) rfl le_rfl
  | revoke ha =>
    obtain ⟨hp, -⟩ := World.admitRevocation_ok ha
    exact he.insert_over (hs.get?_id hp) (.withdrawn _ _ _) rfl le_rfl
  | @cancel signer id p ha hf hd =>
    obtain ⟨hp, -⟩ := World.admitCancellation_ok ha
    refine he.insert_over (hs.get?_id hp) (.cancelled p signer now) rfl ?_
    have hheld := e.host.ledger.held_refunded p.grantee e.params.moduleAccount _ hf
    have hweight := p.weight_cancelled_le signer now
    simp only [Engine.host_after, Host.ledger_withLedger, Ledger.held_released]
    omega
  | requestTermination ha =>
    obtain ⟨hp, -⟩ := World.admitDeparture_ok ha
    exact he.insert_over (hs.get?_id hp) (.leaving _ _) rfl le_rfl
  | @confirmTermination signer id p ha hd =>
    obtain ⟨hp, -, -⟩ := World.admitTermination_eq_ok_iff.mp ha
    exact he.terminated hs (hs.get?_id hp) rfl (Ledger.held_terminated _ p signer)
  | createRoot ha hid =>
    obtain ⟨-, rfl⟩ := Records.nextId_eq_ok_iff.mp hid
    exact he.insert_new hs rfl rfl le_rfl
  | create ha hid =>
    obtain ⟨-, rfl⟩ := Records.nextId_eq_ok_iff.mp hid
    exact he.insert_new hs rfl rfl le_rfl
  | exchange ha hx hb hw => exact ((Transfer.settle_ok hw).2.2.carriesRows rfl he :)
  | slash ha hn hb =>
    obtain ⟨hp, -⟩ := Engine.admitSlash_ok ha
    exact he.insert_over (hs.get?_id hp) (.slashedFor _ _ _ _) rfl le_rfl
  | @repay signer id p ha hb hr =>
    obtain ⟨hp, -⟩ := Engine.admitRepayment_ok ha
    refine he.insert_over (hs.get?_id hp) (.repaidInFull p signer now) rfl ?_
    simp only [Engine.host_after, Host.ledger_withLedger, Ledger.held_committed,
      Ledger.held_collected, show (p.repaidInFull signer now).weight = p.weight from rfl]
    omega
  | setParams ha hp => exact he

theorem Engine.run_carriesRows {host : Host} {params : Params} {authority : Address} {e : Engine}
    (hn : new host params authority = .ok e) (steps : List Step) : (e.run steps).CarriesRows := by
  have hz : e.CarriesRows := by
    obtain ⟨-, rfl⟩ := new_eq_ok_iff.mp hn
    exact Nat.zero_le _
  exact (run_invariant (P := fun e => e.records.Sound ∧ e.CarriesRows) ⟨new_sound hn, hz⟩
    (step_invariant (fun ⟨hs, he⟩ h => ⟨h.sound hs, h.carriesRows hs he⟩) fun _ h => h) steps).2

def HostFault.isRange : HostFault → Bool
  | deltaOutOfRange _ => true
  | _ => false

def Fault.isRange : Fault → Bool
  | host fault => fault.isRange
  | _ => false

namespace Host

variable {h : Host} {a : Address} {n k : Nat}

theorem toDelta_eq_error_iff {f : HostFault} :
    toDelta n = .error f ↔ deltaBound ≤ n ∧ .deltaOutOfRange n = f := by
  by_cases hn : n < deltaBound
  · simp [toDelta, demand, hn]
  · simp [toDelta, demand, hn, Nat.not_lt.mp hn]

theorem release_outOfRange_iff :
    Effect.Stops (release a n) h (.deltaOutOfRange k) ↔ deltaBound ≤ n ∧ n = k := by
  -- Once the change has its sign, its size is not asked for again.
  have hadjust (delta : Int) : ¬ Effect.Stops (adjustDeposit a delta) h (.deltaOutOfRange k) := by
    have hrules : Effect.RulesOut HostFault.isRange (adjustDeposit a delta) h :=
      adjustDeposit_rulesOut (fun _ => rfl) (fun _ _ _ => rfl) (fun _ => rfl) a delta
    exact hrules.not_stops rfl
  unfold release
  rw [Effect.stops_ask_bind_iff]
  simp [toDelta_eq_error_iff, hadjust]

end Host

namespace Engine

def CanRelease (e : Engine) (a : Address) (n : Nat) : Prop :=
  n ≠ 0 → n < deltaBound ∧ a ∉ e.host.frozen ∧ n ≤ e.host.ledger.deposit a ∧
    e.host.ledger.claim a + n < amountBound

/-- The first amount that the termination of a row releases and that is too large: what is left of
its own deposit, or the share that goes back to its validator. -/
def ReleasesOutOfRange (e : Engine) (p : Permission) (n : Nat) : Prop :=
  deltaBound ≤ p.unslashed ∧ p.unslashed = n ∨
    e.CanRelease p.grantee p.unslashed ∧ p.validator.isSome ∧
      deltaBound ≤ p.validatorShare ∧ p.validatorShare = n

end Engine

namespace Transaction

variable {e : Engine} {a signer : Address} {n k : Nat} {p : Permission}

theorem onHost_release_outOfRange_iff :
    Effect.Stops (onHost (Host.release a n)) e (.host (.deltaOutOfRange k)) ↔
      deltaBound ≤ n ∧ n = k := by
  rw [← Host.release_outOfRange_iff (a := a) (h := e.host)]
  simp [onHost, transfer, Transfer.onHost, Effect.stops_within_iff]

theorem release_outOfRange_iff :
    Effect.Stops (release a n) e (.host (.deltaOutOfRange k)) ↔ deltaBound ≤ n ∧ n = k := by
  rw [release, Effect.stops_unlessZero_iff, onHost_release_outOfRange_iff, and_iff_right_iff_imp]
  rintro ⟨hn, -⟩ rfl
  exact absurd hn (by decide)

theorem releaseShare_outOfRange_iff :
    Effect.Stops (releaseShare p a) e (.host (.deltaOutOfRange k)) ↔
      p.validator.isSome ∧ deltaBound ≤ p.validatorShare ∧ p.validatorShare = k := by
  cases hv : p.validator with
  | none => simp [releaseShare, hv, Effect.Stops]
  | some v =>
    simp only [releaseShare, hv, Effect.stops_unlessZero_iff, Effect.stops_bind_iff,
      onHost_release_outOfRange_iff, Effect.not_stops_update, and_false, exists_false, or_false,
      Option.isSome_some, true_and, and_iff_right_iff_imp]
    rintro ⟨hn, -⟩ hz
    rw [hz] at hn
    exact absurd hn (by decide)

/-- Two releases of a confirmation can be out of range; the second one is tried only if the first
one is accepted. -/
theorem confirmTermination_outOfRange_iff {id : PermissionId} {now : Instant} :
    Effect.Stops (confirmTermination signer id now) e (.host (.deltaOutOfRange k)) ↔
      ∃ p, e.admitTermination signer id = .ok p ∧ e.ReleasesOutOfRange p k := by
  have hadmit : e.admitTermination signer id ≠ .error (.host (.deltaOutOfRange k)) := by
    intro h
    cases (e.admitTermination_rulesOut id signer).of_error h
  unfold confirmTermination
  rw [Effect.stops_ask_bind_iff, or_iff_right hadmit]
  refine exists_congr fun p => and_congr_right fun _ => ?_
  have hend (event : Event) (e' : Engine) : ¬ Effect.Stops
      (do store (p.closed signer now); emit event; return Response.empty) e'
      (.host (.deltaOutOfRange k)) := by
    have hrules : Effect.RulesOut Fault.isRange
        (do store (p.closed signer now); emit event; return Response.empty) e' :=
      conclude_rulesOut event _
    exact hrules.not_stops rfl
  rw [Effect.stops_bind_iff, release_outOfRange_iff, Engine.ReleasesOutOfRange]
  refine or_congr_right ?_
  simp only [Effect.stops_update_bind_iff, Effect.stops_bind_iff (x := releaseShare p signer),
    releaseShare_outOfRange_iff, hend, and_false, exists_false, or_false]
  constructor
  · rintro ⟨_, _, hr, hshare⟩
    exact ⟨(release_eq_ok_iff.mp hr).1, hshare⟩
  · rintro ⟨hc, hshare⟩
    exact ⟨(), _, release_eq_ok_iff.mpr ⟨hc, rfl⟩, hshare⟩

end Transaction

namespace Engine

variable {e : Engine} {now : Instant} {m : Message}

theorem deliver_fault_iff {f : Fault} : (e.deliver now m).1 = .error f ↔
    m.check = .error f ∨
      m.check = .ok () ∧ Effect.Stops (Transaction.perform m now) e f := by
  unfold deliver Effect.Stops
  split
  · simp [*]
  · split <;> simp [*]

theorem deliver_confirm_outOfRange_iff (hs : e.records.Sound) {signer : Address}
    {id : PermissionId} {n : Nat} :
    (e.deliver now ⟨signer, .confirmTermination id⟩).1 = .error (.host (.deltaOutOfRange n)) ↔
      ∃ p, e.admitTermination signer id = .ok p ∧ e.ReleasesOutOfRange p n := by
  rw [deliver_fault_iff]
  constructor
  · rintro (hc | ⟨-, h⟩)
    · simp [Message.check, Message.requireGiven] at hc
    · exact Transaction.confirmTermination_outOfRange_iff.mp h
  · rintro ⟨p, ha, hp⟩
    have hid := hs.id_ne_zero (World.admitTermination_eq_ok_iff.mp ha).1
    refine .inr ⟨by simp [Message.check, Message.requireGiven, hid], ?_⟩
    exact Transaction.confirmTermination_outOfRange_iff.mpr ⟨p, ha, hp⟩

end Engine

/-- The rows hold no more than twice what the module accounts do. So every amount that a
termination releases is in range as long as the module accounts hold less than half the bound; a
termination is refused for its amount exactly if what is left of the deposit or the validator's
share has reached the bound. -/
theorem terminations_in_range_iff {host : Host} {params : Params} {authority : Address}
    {e : Engine} (hn : Engine.new host params authority = .ok e) (steps : List Step) :
    (∀ id p, (e.run steps).records.get? id = some p →
      p.deposit + p.validatorShare ≤ 2 * (e.run steps).host.ledger.held) ∧
    (2 * (e.run steps).host.ledger.held < deltaBound →
      (∀ id p, (e.run steps).records.get? id = some p →
        p.unslashed < deltaBound ∧ p.validatorShare < deltaBound) ∧
      ∀ now signer id n, ((e.run steps).deliver now ⟨signer, .confirmTermination id⟩).1 ≠
        .error (.host (.deltaOutOfRange n))) ∧
    ∀ now signer id n, ((e.run steps).deliver now ⟨signer, .confirmTermination id⟩).1 =
        .error (.host (.deltaOutOfRange n)) ↔
      ∃ p, (e.run steps).records.get? id = some p ∧
        (e.run steps).authorityOver p = .ok signer ∧ p.state = .terminationRequested ∧
        (e.run steps).ReleasesOutOfRange p n := by
  have hs := Engine.run_sound (Engine.new_sound hn) steps
  have hcarries := Engine.run_carriesRows hn steps
  have hiff : ∀ now signer id n,
      ((e.run steps).deliver now ⟨signer, .confirmTermination id⟩).1 =
          .error (.host (.deltaOutOfRange n)) ↔
        ∃ p, (e.run steps).records.get? id = some p ∧
          (e.run steps).authorityOver p = .ok signer ∧ p.state = .terminationRequested ∧
          (e.run steps).ReleasesOutOfRange p n := by
    intro now signer id n
    rw [Engine.deliver_confirm_outOfRange_iff hs]
    simp only [World.admitTermination_eq_ok_iff, and_assoc]
  refine ⟨fun id p hp => hcarries.row_le hp, fun hheld => ?_, hiff⟩
  have hsmall : ∀ id p, (e.run steps).records.get? id = some p →
      p.unslashed < deltaBound ∧ p.validatorShare < deltaBound := by
    intro id p hp
    have hle := hcarries.row_le hp
    simp only [Permission.unslashed]
    omega
  refine ⟨hsmall, fun now signer id n h => ?_⟩
  obtain ⟨p, hp, -, -, hout⟩ := (hiff now signer id n).mp h
  obtain ⟨hown, hshare⟩ := hsmall id p hp
  rcases hout with ⟨hout, -⟩ | ⟨-, -, hout, -⟩
  · exact absurd hown (Nat.not_lt.mpr hout)
  · exact absurd hshare (Nat.not_lt.mpr hout)

def Sample.asking : List Step := founding ++ [signed issuer (.requestTermination 3)]

/-- The module accounts hold 60, so what the issuer's termination releases is in range. -/
theorem terminations_in_range_iff_asking :
    (Sample.engine.run Sample.asking).host.ledger.held = 60 ∧
      ((Sample.engine.run Sample.asking).records.get? 3).map
        (fun p => (p.state, p.deposit, p.validatorShare)) =
          some (.terminationRequested, 10, 10) ∧
      ∀ now signer n, ((Sample.engine.run Sample.asking).deliver now
        ⟨signer, .confirmTermination 3⟩).1 ≠ .error (.host (.deltaOutOfRange n)) := by
  have hheld : (Sample.engine.run Sample.asking).host.ledger.held = 60 := by decide +kernel
  obtain ⟨-, hsmall, -⟩ := terminations_in_range_iff Sample.engine_new Sample.asking
  exact ⟨hheld, by decide +kernel, fun now signer n =>
    (hsmall (by rw [hheld]; decide)).2 now signer 3 n⟩

namespace Sample

def wealthyHost : Host := host.fund issuer (16 * 10 ^ 18)

def wealthyEngine : Engine := ⟨⟨.empty, wealthyHost⟩, .standard, governor, []⟩

/-- Three times the issuer pays its own fee, as beneficiary and executor at once. Then it asks to
leave. -/
def hoarding : List Step :=
  [signed controller (.createRoot ⟨1, did, none, none, none, {}⟩),
    signed grantor (.start ⟨.issuerGrantor, 1, did, none⟩),
    signed controller (.validate 2 (terms 0 0)),
    signed issuer (.start ⟨.issuer, 2, did, none⟩),
    signed grantor (.validate 3 (terms 0 (10 ^ 19))),
    signed issuer (.exchange ⟨"a", 3, 0, 3, 0⟩),
    signed issuer (.exchange ⟨"b", 3, 0, 3, 0⟩),
    signed issuer (.exchange ⟨"c", 3, 0, 3, 0⟩),
    signed issuer (.requestTermination 3)]

end Sample

/-- Three payouts of a share in range leave a deposit out of range, so the termination of the row
cannot be confirmed. -/
theorem hoarded_deposit_is_stuck :
    Engine.new Sample.wealthyHost .standard Sample.governor = .ok Sample.wealthyEngine ∧
      ((Sample.wealthyEngine.run Sample.hoarding).records.get? 3).map
        (fun p => (p.state, p.validator, p.deposit, p.slashedDeposit)) =
          some (.terminationRequested, some 2, 12 * 10 ^ 18, 0) ∧
      deltaBound ≤ 12 * 10 ^ 18 ∧
      ((Sample.wealthyEngine.run Sample.hoarding).records.get? 2).map (·.grantee) =
        some Sample.grantor ∧
      (Sample.wealthyEngine.run Sample.hoarding).host.frozen = [] ∧
      (Sample.wealthyEngine.run Sample.hoarding).host.ledger.deposit Sample.issuer =
        12 * 10 ^ 18 ∧
      ((Sample.wealthyEngine.run Sample.hoarding).deliver Sample.noon
        ⟨Sample.grantor, .confirmTermination 3⟩).1 =
          .error (.host (.deltaOutOfRange (12 * 10 ^ 18))) := by
  refine ⟨rfl, ?_⟩
  decide +kernel

end TrustPermit
