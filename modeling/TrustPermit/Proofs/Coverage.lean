import TrustPermit.Proofs.Run

/-! # Deposits cover what is claimed of them

Two things may be taken back out of the deposit of a row: what its pending request committed, and
what its validations earned, which each row that it validated remembers as a share. The deposit
covers all of them together, after every run.
-/

namespace TrustPermit

def Permission.shareUnder (v : PermissionId) (p : Permission) : Nat :=
  if p.validator = some v then p.validatorShare else 0

namespace Permission

variable {p q : Permission} (v : PermissionId)

@[simp] theorem shareUnder_raiseDeposit (n : Nat) :
    (p.raiseDeposit n).shareUnder v = p.shareUnder v := rfl

@[simp] theorem shareUnder_lowerDeposit (n : Nat) :
    (p.lowerDeposit n).shareUnder v = p.shareUnder v := rfl

@[simp] theorem shareUnder_withoutShare : p.withoutShare.shareUnder v = 0 := by
  exact ite_self 0

@[simp] theorem shareUnder_closed (actor : Address) (now : Instant) :
    (p.closed actor now).shareUnder v = 0 := by
  exact ite_self 0

theorem shareUnder_of_ne (h : p.validator ≠ some v) : p.shareUnder v = 0 := if_neg h

theorem shareUnder_congr (hv : q.validator = p.validator)
    (hs : q.validatorShare = p.validatorShare) : q.shareUnder v = p.shareUnder v := by
  rw [shareUnder, shareUnder, hv, hs]

theorem shareUnder_granted (t : Terms) (windowEnd : Option Instant) (share : Nat) (now : Instant) :
    (p.granted t windowEnd share now).shareUnder v =
      p.shareUnder v + if p.validator = some v then share else 0 := by
  by_cases h : p.validator = some v <;> simp [shareUnder, granted, enter, h]

end Permission

namespace Records

def validatedBy (r : Records) (v : PermissionId) : List Permission :=
  r.permissions.values.filter (·.validator = some v)

/-- All that the deposit of a row owes to the permissions that it validated. -/
def sharesUnder (r : Records) (v : PermissionId) : Nat := r.total (·.shareUnder v)

theorem sharesUnder_eq (r : Records) (v : PermissionId) :
    ((r.validatedBy v).map (·.validatorShare)).sum = r.sharesUnder v := by
  have h := r.permissions.sum_filter_values (·.validator = some v) (·.validatorShare)
  simpa [validatedBy, sharesUnder, total, Permission.shareUnder] using h

/-- Every deposit covers the escrowed part of it and the shares it owes. -/
def Covered (r : Records) : Prop :=
  ∀ v p, r.get? v = some p → p.escrowedDeposit + r.sharesUnder v ≤ p.deposit

variable {r : Records} {p q : Permission} (v : PermissionId)

@[simp] theorem sharesUnder_allocate (entity : String) :
    (r.allocate entity).sharesUnder v = r.sharesUnder v := rfl

@[simp] theorem sharesUnder_raisedBy (g : PermissionId → Nat) :
    (r.raisedBy g).sharesUnder v = r.sharesUnder v :=
  total_raisedBy (fun p n => p.shareUnder_raiseDeposit v n) g

theorem sharesUnder_insert_over (h : r.get? q.id = some p) :
    (r.insert q).sharesUnder v + p.shareUnder v = r.sharesUnder v + q.shareUnder v :=
  total_insert_over h (·.shareUnder v)

theorem sharesUnder_insert_same (h : r.get? q.id = some p)
    (hv : q.shareUnder v = p.shareUnder v) : (r.insert q).sharesUnder v = r.sharesUnder v :=
  total_insert_same h hv

theorem sharesUnder_insert_new (h : r.get? p.id = none) :
    (r.insert p).sharesUnder v = r.sharesUnder v + p.shareUnder v :=
  total_insert_new h (·.shareUnder v)

theorem sharesUnder_clearShares (u : PermissionId) :
    (r.clearShares u).sharesUnder v = if v = u then 0 else r.sharesUnder v := by
  rw [sharesUnder, total_clearShares]
  split
  · rename_i h
    subst h
    refine (total_congr (g := fun _ => 0) fun _ p _ => ?_).trans ?_
    · by_cases hv : p.validator = some v
      · simp [hv]
      · simp [hv, p.shareUnder_of_ne v hv]
    · simp [total, Table.total]
  · rename_i h
    apply total_congr
    intro _ p _
    by_cases hv : p.validator = some u
    · have hn : p.validator ≠ some v := fun hu => h (Option.some.inj (hu.symm.trans hv))
      simp [hv, p.shareUnder_of_ne v hn]
    · simp [hv]

@[simp] theorem sharesUnder_shareReturned (p : Permission) :
    (r.shareReturned p).sharesUnder v = r.sharesUnder v :=
  r.total_shareReturned p fun q n => q.shareUnder_lowerDeposit v n

theorem Sound.sharesUnder_fresh (hs : r.Sound) (h : r.counter permissionCounter < v) :
    r.sharesUnder v = 0 := by
  refine (total_congr (g := fun _ => 0) fun id p hp => ?_).trans (by simp [total, Table.total])
  apply p.shareUnder_of_ne v
  intro hv
  obtain ⟨q, hq⟩ := hs.validator_some hp hv
  exact Nat.not_lt.mpr (hs.id_le hq) h

namespace Covered

theorem share_le (hc : r.Covered) {id w : PermissionId} (hp : r.get? id = some p)
    (hw : p.validator = some w) (hq : r.get? w = some q) : p.validatorShare ≤ q.deposit := by
  have h := le_total hp (·.shareUnder w)
  rw [Permission.shareUnder, if_pos hw] at h
  exact h.trans ((Nat.le_add_left _ _).trans (hc w q hq))

theorem raisedBy (hc : r.Covered) (g : PermissionId → Nat) : (r.raisedBy g).Covered := by
  intro v p h
  simp only [get?_raisedBy, Option.map_eq_some_iff] at h
  obtain ⟨p, hp, rfl⟩ := h
  rw [sharesUnder_raisedBy]
  exact (hc _ _ hp).trans (Nat.le_add_right _ _)

theorem insert_over (hc : r.Covered) (hp : r.get? p.id = some p) (ho : p.SameOrigin q)
    (hs : q.validatorShare = p.validatorShare)
    (hd : q.escrowedDeposit + p.deposit ≤ p.escrowedDeposit + q.deposit) :
    (r.insert q).Covered := by
  intro v p' h
  rw [sharesUnder_insert_same v (ho.id ▸ hp) (p.shareUnder_congr v ho.validator hs)]
  simp only [get?_insert] at h
  split at h
  · rename_i he
    cases h
    have := hc _ _ hp
    rw [he, ho.id]
    omega
  · exact hc _ _ h

theorem insert_new (hc : r.Covered) (hs : r.Sound)
    (hid : p.id = r.counter permissionCounter + 1)
    (hv : p.validatorShare = 0) (hd : p.escrowedDeposit ≤ p.deposit) :
    ((r.allocate permissionCounter).insert p).Covered := by
  intro v p' h
  have hn : p.shareUnder v = 0 := by simp [Permission.shareUnder, hv]
  have hfresh : (r.allocate permissionCounter).get? p.id = none :=
    hs.get?_fresh (hid ▸ Nat.lt_succ_self _)
  rw [sharesUnder_insert_new v hfresh, hn, sharesUnder_allocate]
  rcases get?_stored h with ⟨he, rfl⟩ | h
  · rw [hs.sharesUnder_fresh v (by rw [he, hid]; exact Nat.lt_succ_self _)]
    exact hd
  · exact hc _ _ h

/-- A consent that pays a share to the validator raises what the validator owes with it. -/
theorem granted (hc : r.Covered) (hs : r.Sound) {id w : PermissionId} (hp : r.get? id = some p)
    (hw : p.validator = some w) (t : Terms) (windowEnd : Option Instant) (share : Nat)
    (now : Instant) :
    ((r.raisedBy fun u => if u = w then share else 0).insert
      (p.granted t windowEnd share now)).Covered := by
  have hid := hs.id_eq hp
  have hne : p.id ≠ w := hid ▸ (hs.validator_lt hp hw).ne'
  have hrow : (r.raisedBy fun u => if u = w then share else 0).get? p.id = some p := by
    simp [hs.get?_id hp, hne]
  have hsum : ∀ v, ((r.raisedBy fun u => if u = w then share else 0).insert
      (p.granted t windowEnd share now)).sharesUnder v =
        r.sharesUnder v + if v = w then share else 0 := by
    intro v
    have h := sharesUnder_insert_over (q := p.granted t windowEnd share now) v hrow
    rw [sharesUnder_raisedBy, p.shareUnder_granted, hw] at h
    simp only [Option.some.injEq, eq_comm (a := w)] at h
    omega
  intro v q h
  rw [hsum]
  simp only [get?_insert, get?_raisedBy] at h
  split at h
  · rename_i he
    cases h
    have hv : v = p.id := he
    have := hc _ _ (hs.get?_id hp)
    rw [if_neg (hv ▸ hne), hv]
    change 0 + _ ≤ p.deposit
    omega
  · simp only [Option.map_eq_some_iff] at h
    obtain ⟨q, hq, rfl⟩ := h
    have := hc _ _ hq
    change q.escrowedDeposit + _ ≤ q.deposit + _
    omega

theorem clearShares (hc : r.Covered) (u : PermissionId) : (r.clearShares u).Covered := by
  intro v q h
  simp only [get?_clearShares, Option.map_eq_some_iff] at h
  obtain ⟨p, hp, rfl⟩ := h
  have hle : (r.clearShares u).sharesUnder v ≤ r.sharesUnder v := by
    rw [sharesUnder_clearShares]
    split
    · exact Nat.zero_le _
    · exact le_rfl
  have := hc v p hp
  split
  · change p.escrowedDeposit + _ ≤ p.deposit
    omega
  · omega

/-- The row of a confirmed termination takes its share out of the validator's deposit, which no
longer owes it. -/
theorem closed (hc : r.Covered) (hp : r.get? p.id = some p) (hv : p.validator ≠ some p.id)
    (he : p.escrowedDeposit = 0) (hz : r.sharesUnder p.id = 0) (actor : Address)
    (now : Instant) : ((r.shareReturned p).insert (p.closed actor now)).Covered := by
  have hrow : (r.shareReturned p).get? (p.closed actor now).id = some p := by
    rw [get?_shareReturned]
    simp [show (p.closed actor now).id = p.id from rfl, hp, hv]
  have hsum : ∀ v, ((r.shareReturned p).insert (p.closed actor now)).sharesUnder v +
      p.shareUnder v = r.sharesUnder v := by
    intro v
    have h := sharesUnder_insert_over v hrow
    rwa [sharesUnder_shareReturned, p.shareUnder_closed] at h
  intro v q h
  have hv := hsum v
  simp only [get?_insert, get?_shareReturned] at h
  split at h
  · rename_i hid
    cases h
    rw [show v = p.id from hid] at hv ⊢
    change p.escrowedDeposit + _ ≤ 0
    omega
  · simp only [Option.map_eq_some_iff] at h
    obtain ⟨q, hq, rfl⟩ := h
    have := hc v q hq
    by_cases hw : p.validator = some v
    · rw [Permission.shareUnder, if_pos hw] at hv
      rw [if_pos hw]
      change q.escrowedDeposit + _ ≤ q.deposit - _
      omega
    · rw [if_neg hw]
      omega

end Covered

end Records

/-- Every message keeps the deposits covered. -/
theorem Outcome.covered {e e' : Engine} {now : Instant} {m : Message} {r : Response}
    (hs : e.records.Sound) (hc : e.records.Covered) (h : Outcome e now m r e') :
    e'.records.Covered := by
  cases h with
  | start ha hq hb hid hw =>
    obtain ⟨-, rfl⟩ := Records.nextId_eq_ok_iff.mp hid
    exact hc.insert_new hs rfl rfl le_rfl
  | @renew signer id p validator cost ha hq hb hd =>
    obtain ⟨hp, -, hv⟩ := World.admitRenewal_ok ha
    have hi := (hs.idle hp (by simp [hv])).2
    refine hc.insert_over (hs.get?_id hp) (.renewing _ _ _ _) rfl ?_
    change cost.deposit + p.deposit ≤ p.escrowedDeposit + (p.deposit + cost.deposit)
    omega
  | consent ha hz hd =>
    obtain ⟨hp, -, -⟩ := World.admitConsent_ok ha
    exact hc.insert_over (hs.get?_id hp) (.granted _ _ _ _ _) rfl
      (Nat.add_le_add_right (Nat.zero_le _) _)
  | paidConsent ha hn hv hg hb hf hc' hd =>
    obtain ⟨hp, -, -⟩ := World.admitConsent_ok ha
    have h := hc.granted hs hp hv
    rw [← hs.id_eq hg] at h
    simp only [Engine.records_after, World.paid, World.shared, World.records_withLedger,
      (Engine.terms e .validation .escrow none).credits_none _ _ rfl]
    exact h _ _ _ _
  | extend ha =>
    obtain ⟨hp, -⟩ := World.admitExtension_ok ha
    exact hc.insert_over (hs.get?_id hp) (.extendedTo _ _ _ _) rfl le_rfl
  | revoke ha =>
    obtain ⟨hp, -⟩ := World.admitRevocation_ok ha
    exact hc.insert_over (hs.get?_id hp) (.withdrawn _ _ _) rfl le_rfl
  | @cancel signer id p ha hf hd =>
    obtain ⟨hp, -⟩ := World.admitCancellation_ok ha
    obtain ⟨h₁, h₂, h₃⟩ := p.cancelled_deposit signer now
    exact hc.insert_over (hs.get?_id hp) (.cancelled _ _ _) h₃ (by omega)
  | requestTermination ha =>
    obtain ⟨hp, -⟩ := World.admitDeparture_ok ha
    exact hc.insert_over (hs.get?_id hp) (.leaving _ _) rfl le_rfl
  | @confirmTermination signer id p ha hd =>
    obtain ⟨hp, -, ht⟩ := World.admitTermination_eq_ok_iff.mp ha
    have hi := (hs.idle hp (by simp [ht])).2
    refine (hc.clearShares p.id).closed ?_ (hs.validator_ne hp) hi ?_ signer now
    · simp [hs.get?_id hp, hs.validator_ne hp]
    · simp [Records.sharesUnder_clearShares]
  | createRoot ha hid =>
    obtain ⟨-, rfl⟩ := Records.nextId_eq_ok_iff.mp hid
    exact hc.insert_new hs rfl rfl le_rfl
  | create ha hid =>
    obtain ⟨-, rfl⟩ := Records.nextId_eq_ok_iff.mp hid
    exact hc.insert_new hs rfl rfl le_rfl
  | @exchange signer x s beneficiaries receipt w ha hx hb hw =>
    obtain ⟨⟨g, hg⟩, -⟩ := (Transfer.settle_ok hw).2.2.world
    have hw : w.records.Covered := hg ▸ hc.raisedBy g
    exact hw
  | slash ha hn hb =>
    obtain ⟨hp, -⟩ := Engine.admitSlash_ok ha
    exact hc.insert_over (hs.get?_id hp) (.slashedFor _ _ _ _) rfl le_rfl
  | repay ha hb hr =>
    obtain ⟨hp, -⟩ := Engine.admitRepayment_ok ha
    exact hc.insert_over (hs.get?_id hp) (.repaidInFull _ _ _) rfl le_rfl
  | setParams ha hp => exact hc

namespace Engine

variable {host : Host} {params : Params} {authority : Address} {e : Engine}

theorem step_covered {s : Step} (he : e.records.Sound ∧ e.records.Covered) :
    (e.step s).records.Sound ∧ (e.step s).records.Covered :=
  step_invariant (P := fun e => e.records.Sound ∧ e.records.Covered)
    (fun he h => ⟨h.sound he.1, h.covered he.1 he.2⟩) (fun _ he => he) e s he

theorem new_covered (h : new host params authority = .ok e) :
    e.records.Sound ∧ e.records.Covered :=
  ⟨new_sound h, new_rows h⟩

theorem run_covered (h : new host params authority = .ok e) (steps : List Step) :
    (e.run steps).records.Sound ∧ (e.run steps).records.Covered :=
  run_invariant (P := fun e => e.records.Sound ∧ e.records.Covered) (new_covered h)
    (fun _ _ => step_covered) steps

end Engine

/-- After every run each deposit covers what its own request escrowed and the shares of all the
rows that it validated. So a cancellation and a confirmed termination take from a deposit exactly
what they give back. -/
theorem deposit_covers_claims {host : Host} {params : Params} {authority : Address} {e : Engine}
    (hn : Engine.new host params authority = .ok e) (steps : List Step) :
    (∀ v p, (e.run steps).records.get? v = some p → p.escrowedDeposit +
      (((e.run steps).records.validatedBy v).map (·.validatorShare)).sum ≤ p.deposit) ∧
    (∀ now signer id p r e', (e.run steps).records.get? id = some p →
      (e.run steps).deliver now ⟨signer, .cancel id⟩ = (.ok r, e') →
      ∃ q, e'.records.get? id = some q ∧ q.deposit + p.escrowedDeposit = p.deposit) ∧
    (∀ now signer id p v q r e', (e.run steps).records.get? id = some p →
      p.validator = some v → (e.run steps).records.get? v = some q →
      (e.run steps).deliver now ⟨signer, .confirmTermination id⟩ = (.ok r, e') →
      ∃ q', e'.records.get? v = some q' ∧ q'.deposit + p.validatorShare = q.deposit) := by
  obtain ⟨hs, hc⟩ := Engine.run_covered hn steps
  refine ⟨?_, ?_, ?_⟩
  · intro v p hp
    rw [Records.sharesUnder_eq]
    exact hc v p hp
  · intro now signer id p r e' hp hd
    cases Engine.deliver_ok hd with
    | cancel ha hf hb =>
      obtain ⟨hp', -⟩ := World.admitCancellation_ok ha
      cases hp.symm.trans hp'
      refine ⟨p.cancelled signer now, ?_, ?_⟩
      · simp [(Permission.SameOrigin.cancelled p signer now).id, hs.id_eq hp]
      · have := hc id p hp
        rw [(p.cancelled_deposit signer now).1]
        omega
  · intro now signer id p v q r e' hp hv hq hd
    cases Engine.deliver_ok hd with
    | confirmTermination ha hb =>
      obtain ⟨hp', -⟩ := World.admitTermination_eq_ok_iff.mp ha
      cases hp.symm.trans hp'
      obtain ⟨q', hq', -, hd'⟩ := Records.get?_clearShares_of hq p.id
      have hne : v ≠ (p.closed signer now).id := (hs.id_eq hp ▸ (hs.validator_lt hp hv).ne :)
      refine ⟨q'.lowerDeposit p.validatorShare, ?_, ?_⟩
      · simp only [Engine.records_after, Records.terminated, Records.get?_insert, hne, if_false,
          Records.get?_shareReturned, hq', hv, if_true, Option.map_some]
      · have := hc.share_le hp hv hq
        change q'.deposit - p.validatorShare + _ = _
        omega

theorem deposit_covers_claims_history :
    ((Sample.engine.run Sample.history).records.get? 2).map (fun p => (p.state, p.deposit)) =
        some (.terminated, 10) ∧
      ((((Sample.engine.run Sample.history).records.validatedBy 2).map (·.validatorShare)).sum =
        10) ∧
      ∀ v p, (Sample.engine.run Sample.history).records.get? v = some p → p.escrowedDeposit +
        (((Sample.engine.run Sample.history).records.validatedBy v).map
          (·.validatorShare)).sum ≤ p.deposit :=
  ⟨by decide +kernel, by decide +kernel,
    (deposit_covers_claims Sample.engine_new Sample.history).1⟩

end TrustPermit
