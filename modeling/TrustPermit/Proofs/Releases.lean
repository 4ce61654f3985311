import TrustPermit.Proofs.Stages

/-! # What is released of a slashed deposit

What was slashed of a deposit is burned and must stay in the row when the rest is released. A
confirmed termination releases only the rest of its own row, but a cancellation releases all that
was committed with the request, and a validator's share leaves the validator's deposit whole.
-/

namespace TrustPermit

namespace Records

variable {M : Type} [AddCancelCommMonoid M] {r : Records} {id : PermissionId} {p : Permission}

theorem total_single (hs : r.Sound) (hp : r.get? id = some p) {f : Permission → M}
    (hf : ∀ q, q.id ≠ id → f q = 0) : r.total f = f p := by
  -- Once the row is replaced by one with another id, no row contributes.
  have h := r.permissions.total_insert id { p with id := id + 1 } f
  have hzero : (r.permissions.insert id { p with id := id + 1 }).total f = 0 := by
    refine (Table.total_congr (g := fun _ => 0) fun q hq => hf q ?_).trans
      (by simp [Table.total])
    obtain ⟨key, hk⟩ := Table.mem_values_iff.mp hq
    rw [Table.get?_insert] at hk
    split at hk
    · cases hk
      exact Nat.succ_ne_self id
    · rename_i hne
      rw [hs.id_eq hk]
      simpa using hne
  rw [show r.permissions.get? id = some p from hp, hzero, hf _ (Nat.succ_ne_self id)] at h
  simpa [total] using h.symm

theorem total_zero {f : Permission → M} (hf : ∀ p, f p = 0) : r.total f = 0 :=
  (Table.total_congr (g := fun _ => 0) fun p _ => hf p).trans (by simp [Table.total])

end Records

namespace Engine

def releasedFor (e : Engine) (m : Message) (q : Permission) : Nat :=
  match m.action with
  | .cancel id => if q.id = id then q.escrowedDeposit else 0
  | .confirmTermination id =>
    (if q.id = id then q.unslashed else 0) + (e.records.get? id).elim 0 (·.shareUnder q.id)
  | _ => 0

def ReleasesUnslashed (e : Engine) : Step → Prop
  | .deliver now m => e.Accepts now m →
    ∀ id q, e.records.get? id = some q → e.releasedFor m q ≤ q.unslashed
  | .surround _ => True

/-- A cancelled request committed at most what was not slashed of the row since, and the share
that a termination returns is at most what was not slashed of the validator's. -/
def SparesSlashed (e : Engine) : Step → Prop
  | .deliver now m => e.Accepts now m →
    match m.action with
    | .cancel id => ∀ p ∈ e.records.get? id, p.escrowedDeposit ≤ p.unslashed
    | .confirmTermination id => ∀ p ∈ e.records.get? id, ∀ v ∈ p.validator,
      ∀ q ∈ e.records.get? v, p.validatorShare ≤ q.unslashed
    | _ => True
  | .surround _ => True

instance (e : Engine) (s : Step) : Decidable (e.SparesSlashed s) := by
  unfold SparesSlashed
  split
  · split <;> infer_instance
  · infer_instance

end Engine

namespace Ledger

variable (l : Ledger) (a b c : Address) (m : String) (n : Nat)

@[simp] theorem claim_sent : (l.sent a b n).claim c = l.claim c := rfl

@[simp] theorem claim_collected : (l.collected a m n).claim c = l.claim c := rfl

@[simp] theorem claim_refunded : (l.refunded m a n).claim c = l.claim c := rfl

@[simp] theorem claim_committed : (l.committed a n).claim c = l.claim c := rfl

@[simp] theorem claim_slashed : (l.slashed a n).claim c = l.claim c := rfl

theorem claim_terminated (p : Permission) :
    (l.terminated p b).claim a = l.claim a + (if p.grantee = a then p.unslashed else 0) +
      if p.validator.isSome ∧ b = a then p.validatorShare else 0 := by
  unfold terminated shareReturned
  by_cases hv : p.validator.isSome = true <;> simp [hv, eq_comm (a := a)]

end Ledger

theorem World.claim_paid (w : World) (t : SettlementTerms) (b : Permission) (split : FeeShares)
    (a : Address) : (w.paid t b split).host.ledger.claim a = w.host.ledger.claim a := by
  rw [Ledger.claim_eq, (w.untouched_paid t b split).1, Ledger.claim_eq]

theorem Settles.claim {t : SettlementTerms} {bs : List Permission} {w w' : World}
    {lines : List Payout} (h : Settles t bs w lines w') (a : Address) :
    w'.host.ledger.claim a = w.host.ledger.claim a := by
  rw [Ledger.claim_eq, h.untouched.1, Ledger.claim_eq]

namespace Records

variable {r : Records} {id : PermissionId} {p : Permission}

theorem total_terminated (hs : r.Sound) (hp : r.get? id = some p) {signer : Address}
    (ha : ∀ v, p.validator = some v → ∃ q, r.get? v = some q ∧ q.grantee = signer)
    (a : Address) :
    (r.total fun q => if q.grantee = a then
      (if q.id = id then q.unslashed else 0) + p.shareUnder q.id else 0) =
      (if p.grantee = a then p.unslashed else 0) +
        if p.validator.isSome ∧ signer = a then p.validatorShare else 0 := by
  have hown := total_single (f := fun q => if q.grantee = a then
    if q.id = id then q.unslashed else 0 else 0) hs hp fun q hq => by simp [hq]
  have hshare : (r.total fun q => if q.grantee = a then p.shareUnder q.id else 0) =
      if p.validator.isSome ∧ signer = a then p.validatorShare else 0 := by
    cases hv : p.validator with
    | none => exact (total_zero fun q => by simp [Permission.shareUnder, hv]).trans (by simp)
    | some v =>
      obtain ⟨q, hq, rfl⟩ := ha v hv
      refine (total_single hs hq fun q' hq' => ?_).trans ?_
      · simp [Permission.shareUnder, hv, Ne.symm hq']
      · simp [Permission.shareUnder, hv, hs.id_eq hq]
  rw [hs.id_eq hp, if_pos rfl] at hown
  rw [← hown, ← hshare, ← total_add]
  refine total_congr fun _ q _ => ?_
  by_cases hg : q.grantee = a <;> simp [hg]

end Records

/-- What an account can claim grows by what is released on account of its rows. -/
theorem Outcome.claim {e e' : Engine} {now : Instant} {m : Message} {r : Response}
    (hs : e.records.Sound) (h : Outcome e now m r e') (a : Address) :
    e'.host.ledger.claim a =
      e.host.ledger.claim a + ((e.records.ofGrantee a).map (e.releasedFor m)).sum := by
  rw [Records.sum_ofGrantee]
  cases h with
  | @cancel signer id p ha hf hd =>
    obtain ⟨hp, -⟩ := World.admitCancellation_ok ha
    rw [Records.total_single hs hp fun q hq => by simp [Engine.releasedFor, hq]]
    simp [Engine.releasedFor, hs.id_eq hp, eq_comm (a := a)]
  | @confirmTermination signer id p ha hd =>
    obtain ⟨hp, hauth, -⟩ := World.admitTermination_eq_ok_iff.mp ha
    have htotal := Records.total_terminated hs hp
      (fun v hv => (World.authorityOver_validated_iff hv).mp hauth) a
    simp only [Engine.releasedFor, hp, Option.elim_some, htotal, Engine.host_after,
      Host.ledger_withLedger, Ledger.claim_terminated, Nat.add_assoc]
  | exchange ha hx hb hw =>
    rw [Records.total_zero fun p => by simp [Engine.releasedFor]]
    exact (Transfer.settle_ok hw).2.2.claim a
  | paidConsent =>
    rw [Records.total_zero fun p => by simp [Engine.releasedFor]]
    exact World.claim_paid _ _ _ _ a
  | _ =>
    rw [Records.total_zero fun p => by simp [Engine.releasedFor]]
    rfl

namespace Permission

variable {e : Engine} {m : Message} {now : Instant} {p q : Permission}

theorem Becomes.slashed_le (h : p.Becomes e.records m now q)
    (hp : p.slashedDeposit ≤ p.deposit) (hr : e.releasedFor m p ≤ p.unslashed)
    (hq : q.state ≠ .terminated) : q.slashedDeposit ≤ q.deposit := by
  cases h with
  | raised n => exact hp.trans (Nat.le_add_right _ n)
  | renewing => exact hp.trans (Nat.le_add_right _ _)
  | cancelled hm =>
    have hle : p.escrowedDeposit ≤ p.unslashed := by simpa [Engine.releasedFor, hm] using hr
    rw [(p.cancelled_deposit m.signer now).1, p.cancelled_slashedDeposit]
    unfold unslashed at hle
    omega
  | closed => exact absurd rfl hq
  | @beside closing hm hc hne =>
    have hle : closing.shareUnder p.id ≤ p.unslashed := by
      simpa [Engine.releasedFor, hm, hc, Ne.symm hne] using hr
    change p.slashedDeposit ≤ p.deposit - closing.shareUnder p.id
    unfold unslashed at hle
    omega
  | @slashedFor amount hm hle =>
    change p.slashedDeposit + amount ≤ p.deposit
    unfold unslashed at hle
    omega
  | repaidInFull => exact Nat.zero_le _
  | _ => exact hp

theorem Created.slashedDeposit (h : q.Created m now) : q.slashedDeposit = 0 := by
  cases h <;> rfl

end Permission

namespace Engine

variable {e : Engine} {steps : List Step}

/-- What was slashed of a row that is not terminated is still in its deposit. -/
def KeepsSlashed (e : Engine) : Prop :=
  ∀ id p, e.records.get? id = some p → p.state ≠ .terminated → p.slashedDeposit ≤ p.deposit

theorem step_keepsSlashed (hs : e.records.Sound) (he : e.KeepsSlashed) {s : Step}
    (hr : e.ReleasesUnslashed s) : (e.step s).KeepsSlashed := by
  intro id q hq hst
  rcases step_rows hs hq with hq | ⟨now, m, rfl, ha, ⟨p, hp, hb⟩ | ⟨-, hb⟩⟩
  · exact he id q hq hst
  · have hopen : p.state ≠ .terminated := fun h => hst (hb.later.ended h)
    exact hb.slashed_le (he id p hp hopen) (hr ha id p hp) hst
  · exact hb.slashedDeposit.le.trans (Nat.zero_le _)

/-- The messages that a run accepts release the right amounts if cancellations and returned shares
do; the row of a confirmed termination always does. -/
theorem releasesUnslashed_iff (hs : e.records.Sound) {s : Step} :
    e.ReleasesUnslashed s ↔ e.SparesSlashed s := by
  cases s with
  | surround host => exact Iff.rfl
  | deliver now m =>
    refine forall_congr' fun _ => ?_
    obtain ⟨signer, action⟩ := m
    cases action with
    | cancel id =>
      constructor
      · intro h p hp
        simpa [releasedFor, hs.id_eq hp] using h id p hp
      · intro h id' q hq
        simp only [releasedFor]
        split
        · rename_i he
          exact h q (by rw [← he, hs.get?_id hq]; rfl)
        · exact Nat.zero_le _
    | confirmTermination id =>
      constructor
      · intro h p hp v hv q hq
        have hp : e.records.get? id = some p := hp
        have hv : p.validator = some v := hv
        have := h v q hq
        have hne : v ≠ id := (hs.validator_lt hp hv).ne
        simpa [releasedFor, hp, hs.id_eq hq, hne, Permission.shareUnder, hv] using this
      · intro h id' q hq
        have hq := hs.get?_id hq
        cases hp : e.records.get? id with
        | none =>
          have hne : q.id ≠ id := fun he => by cases hp.symm.trans (he ▸ hq)
          simp [releasedFor, hp, hne]
        | some p =>
          by_cases he : q.id = id
          · cases hp.symm.trans (he ▸ hq)
            simp [releasedFor, hp, he, q.shareUnder_of_ne id (he ▸ hs.validator_ne hq)]
          · by_cases hv : p.validator = some q.id
            · simpa [releasedFor, hp, he, Permission.shareUnder, hv] using h p hp q.id hv q hq
            · simp [releasedFor, hp, he, p.shareUnder_of_ne q.id hv]
    | _ => exact iff_of_true (fun _ _ _ => Nat.zero_le _) trivial

theorem run_keepsSlashed (hs : e.records.Sound) (he : e.KeepsSlashed)
    (hr : e.Along ReleasesUnslashed steps) : (e.run steps).KeepsSlashed :=
  (run_along (P := fun e => e.records.Sound ∧ e.KeepsSlashed) ⟨hs, he⟩
    (fun _ _ ⟨hs, he⟩ hr => ⟨step_sound hs, step_keepsSlashed hs he hr⟩) hr).2

end Engine

/-- What was slashed stays in the rows, and no more than the rest is released on account of them,
exactly in the runs in which every accepted cancellation takes back no more than the rest of its
row, and every confirmed termination no more than the rest of the validator's. The handlers check
neither. -/
theorem slashed_units_stay_iff {host : Host} {params : Params} {authority : Address} {e : Engine}
    (hn : Engine.new host params authority = .ok e) (steps : List Step) :
    ((∀ earlier, earlier <+: steps → ∀ id p, (e.run earlier).records.get? id = some p →
        p.state ≠ .terminated → p.slashedDeposit ≤ p.deposit) ∧
      e.Along Engine.ReleasesUnslashed steps ↔ e.Along Engine.SparesSlashed steps) ∧
    ∀ now m r e', (e.run steps).deliver now m = (.ok r, e') → ∀ a,
      e'.host.ledger.claim a = (e.run steps).host.ledger.claim a +
        (((e.run steps).records.ofGrantee a).map ((e.run steps).releasedFor m)).sum := by
  have hs := Engine.new_sound hn
  have hk : e.KeepsSlashed := by
    obtain ⟨-, rfl⟩ := Engine.new_eq_ok_iff.mp hn
    exact fun _ _ hp => by cases hp
  have hiff : e.Along Engine.ReleasesUnslashed steps ↔ e.Along Engine.SparesSlashed steps :=
    ⟨.mono hs (fun _ _ => Engine.step_sound) fun _ _ hs => (Engine.releasesUnslashed_iff hs).mp,
      .mono hs (fun _ _ => Engine.step_sound) fun _ _ hs => (Engine.releasesUnslashed_iff hs).mpr⟩
  refine ⟨⟨fun h => hiff.mp h.2, fun h => ⟨fun earlier hpre => ?_, hiff.mpr h⟩⟩,
    fun now m r e' hd a => ?_⟩
  · exact Engine.run_keepsSlashed hs hk ((hiff.mpr h).earlier hpre)
  · exact (Engine.deliver_ok hd).claim (Engine.run_sound hs steps) a

/-- A grantor is slashed by less than its validations earned and leaves. -/
theorem slashed_units_stay_iff_history :
    Sample.engine.Along Engine.SparesSlashed Sample.history ∧
      ∀ id p, (Sample.engine.run Sample.history).records.get? id = some p →
        p.state ≠ .terminated → p.slashedDeposit ≤ p.deposit := by
  have h : Sample.engine.Along Engine.SparesSlashed Sample.history := by decide +kernel
  have hstay := (slashed_units_stay_iff Sample.engine_new Sample.history).1.mpr h
  exact ⟨h, hstay.1 Sample.history List.prefix_rfl⟩

/-- All of a deposit is slashed while a renewal is pending, which is cancelled afterwards. -/
def Sample.slashedRenewal : List Step :=
  [signed controller (.createRoot ⟨1, did, none, none, none, ⟨100, 50, 0⟩⟩),
    signed issuer (.start ⟨.issuerGrantor, 1, did, none⟩),
    signed controller (.validate 2 (terms 0 0)),
    signed issuer (.start ⟨.issuerGrantor, 1, did, none⟩),
    signed issuer (.renew 2),
    signed controller (.slash 2 40),
    signed issuer (.cancel 2)]

/-- The cancellation releases units that were burned already. They come out of the trust deposit
behind another row of the account. -/
theorem cancellation_releases_slashed_units :
    ((Sample.engine.run Sample.slashedRenewal).records.get? 2).map
        (fun p => (p.state, p.deposit, p.slashedDeposit)) = some (.validated, 20, 40) ∧
      ((Sample.engine.run Sample.slashedRenewal).records.get? 3).map (·.deposit) = some 20 ∧
      (Sample.engine.run Sample.slashedRenewal).host.ledger.claim Sample.issuer = 20 ∧
      (Sample.engine.run Sample.slashedRenewal).host.ledger.deposit Sample.issuer = 0 := by
  decide +kernel

end TrustPermit
