import TrustPermit.Proofs.Frame

/-! # Reach

A message puts its time on the row that it names and on a row that it creates. Of the others it
reaches those that an exchange or a consent pays, and those that part from a row that ends: their
deposits and shares change, and their times of modification do not.
-/

namespace TrustPermit

theorem Settles.get?_of_not_paid {t : SettlementTerms} {bs : List Permission} {w w' : World}
    {lines : List Payout} (h : Settles t bs w lines w') {id : PermissionId}
    (hb : ∀ b ∈ bs, b.id ≠ id) (hx : t.executor ≠ some id) :
    w'.records.get? id = w.records.get? id := by
  induction h with
  | nil => rfl
  | skip _ _ ih => exact ih fun b hm => hb b (.tail _ hm)
  | @pay b rest w w' line lines _ _ _ _ _ _ ih =>
    rw [ih fun b hm => hb b (.tail _ hm)]
    have hne : id ≠ b.id := (hb b List.mem_cons_self).symm
    simp [World.paid, World.shared, SettlementTerms.credits, hne, hx]

namespace Permission

inductive ReachedBy (e : Engine) (m : Message) (p : Permission) : Prop where

  | executor {x : Exchange} : m.action = .exchange x → x.executor? = some p.id → ReachedBy e m p

  | beneficiary {x : Exchange} {beneficiaries : List Permission} {b : Permission} :
      m.action = .exchange x → e.admitPayment m.signer x = .ok beneficiaries →
      b ∈ beneficiaries → b.id = p.id → ReachedBy e m p

  /-- The validator of a row is paid for the consent. -/
  | consent {id : PermissionId} {terms : Terms} {row : Permission} :
      m.action = .validate id terms → e.records.get? id = some row → row.escrowedFees ≠ 0 →
      row.validator = some p.id → ReachedBy e m p

  /-- The row had validated the one that ends. -/
  | above {closing : Permission} : m.action = .confirmTermination closing.id →
      e.records.get? closing.id = some closing → closing.validator = some p.id → ReachedBy e m p

  /-- The row was validated by the one that ends. -/
  | below {closing : Permission} : m.action = .confirmTermination closing.id →
      e.records.get? closing.id = some closing → p.validator = some closing.id → ReachedBy e m p

theorem Created.modified {m : Message} {now : Instant} {q : Permission} (h : q.Created m now) :
    q.modified = now := by
  cases h <;> rfl

theorem modified_cancelled (p : Permission) (actor : Address) (now : Instant) :
    (p.cancelled actor now).modified = now := by
  unfold cancelled
  split <;> rfl

end Permission

/-- The row that a message names has its time afterwards, and a row that it neither names nor
reaches is as before. -/
structure Engine.Marks (e : Engine) (m : Message) (now : Instant) (r' : Records) : Prop where
  named {id} : m.action.target? = some id → ∃ q, r'.get? id = some q ∧ q.modified = now
  other {id p} : e.records.get? id = some p → m.action.target? ≠ some id →
    r'.get? id = some p ∨ p.ReachedBy e m

namespace Engine.Marks

variable {e : Engine} {m : Message} {now : Instant} {r₀ : Records} {p q : Permission}
  {id : PermissionId}

theorem insert (hs : e.records.Sound) (hp : e.records.get? id = some p) (ho : p.SameOrigin q)
    (ht : m.action.target? = some id) (hq : q.modified = now)
    (hr : ∀ {id p}, e.records.get? id = some p → m.action.target? ≠ some id →
      r₀.get? id = some p ∨ p.ReachedBy e m) :
    e.Marks m now (r₀.insert q) := by
  have hid : q.id = id := ho.id.trans (hs.id_eq hp)
  constructor
  · intro id' ht'
    cases ht.symm.trans ht'
    exact ⟨q, by rw [Records.get?_insert, if_pos hid.symm], hq⟩
  · intro id' p' hp' hne
    have hne' : id' ≠ q.id := by
      rintro rfl
      exact hne (ht.trans (congrArg some hid.symm))
    rw [Records.get?_insert, if_neg hne']
    exact hr hp' hne

theorem only (hs : e.records.Sound) (hp : e.records.get? id = some p) (ho : p.SameOrigin q)
    (ht : m.action.target? = some id) (hq : q.modified = now) :
    e.Marks m now (e.records.insert q) :=
  insert hs hp ho ht hq fun hp' _ => .inl hp'

theorem created (hs : e.records.Sound) (ht : m.action.target? = none)
    (hid : q.id = e.records.counter Records.permissionCounter + 1) :
    e.Marks m now ((e.records.allocate Records.permissionCounter).insert q) where
  named h := by cases ht.symm.trans h
  other {id' p'} hp' _ := by
    have hne : id' ≠ q.id := by
      rw [hid]
      exact (Nat.lt_succ_of_le (hs.id_le hp')).ne
    rw [Records.get?_insert, if_neg hne, Records.get?_allocate]
    exact .inl hp'

end Engine.Marks

namespace Outcome

variable {e e' : Engine} {now : Instant} {m : Message} {r : Response} {id : PermissionId}
  {p q : Permission}

theorem marks (hs : e.records.Sound) (h : Outcome e now m r e') : e.Marks m now e'.records := by
  cases h with
  | start _ _ _ hid | createRoot _ hid | create _ hid =>
    obtain ⟨-, rfl⟩ := Records.nextId_eq_ok_iff.mp hid
    exact .created hs rfl rfl
  | renew ha => exact .only hs (World.admitRenewal_ok ha).1 (.renewing _ _ _ _) rfl rfl
  | consent ha => exact .only hs (World.admitConsent_ok ha).1 (.granted _ _ _ _ _) rfl rfl
  | @paidConsent signer id terms row windowEnd v validator line ha hn hv hg hb hf hc hd =>
    have hrow := (World.admitConsent_ok ha).1
    refine .insert hs hrow (.granted _ _ _ _ _) rfl rfl fun {id' p'} hp' _ => ?_
    by_cases hid : id' = validator.id
    · refine .inr (.consent rfl hrow hn ?_)
      rw [hv, hs.id_eq hp', hid, hs.id_eq hg]
    · simp [World.paid, World.shared, (e.terms .validation .escrow none).credits_none _ _ rfl, hp',
        hid]
  | extend ha => exact .only hs (World.admitExtension_ok ha).1 (.extendedTo _ _ _ _) rfl rfl
  | revoke ha => exact .only hs (World.admitRevocation_ok ha).1 (.withdrawn _ _ _) rfl rfl
  | cancel ha =>
    exact .only hs (World.admitCancellation_ok ha).1 (.cancelled _ _ _) rfl
      (Permission.modified_cancelled _ _ _)
  | requestTermination ha => exact .only hs (World.admitDeparture_ok ha).1 (.leaving _ _) rfl rfl
  | @confirmTermination signer target closing ha hl =>
    obtain ⟨hc, -⟩ := World.admitTermination_eq_ok_iff.mp ha
    obtain rfl := hs.id_eq hc
    constructor
    · rintro _ ⟨⟩
      exact ⟨_, Records.get?_terminated _ closing signer now, rfl⟩
    · intro id' p' hp' hne
      have hid : id' ≠ closing.id := by
        rintro rfl
        exact hne rfl
      rw [Engine.records_after, hs.get?_terminated_of_ne hid, hp', Option.map_some]
      by_cases hv : p'.validator = some closing.id
      · exact .inr (.below rfl hc hv)
      · by_cases hv' : closing.validator = some p'.id
        · exact .inr (.above rfl hc hv')
        · rw [Permission.beside_eq_self hv hv']
          exact .inl rfl
  | @exchange signer x s beneficiaries receipt w ha hx hb hw =>
    constructor
    · rintro _ ⟨⟩
    · intro id' p' hp' _
      by_cases hexecutor : x.executor? = some id'
      · exact .inr (.executor rfl (hexecutor.trans (congrArg some (hs.id_eq hp').symm)))
      · by_cases hpaid : ∃ b ∈ beneficiaries, b.id = id'
        · obtain ⟨b, hm, hid⟩ := hpaid
          exact .inr (.beneficiary rfl hb hm (hid.trans (hs.id_eq hp').symm))
        · left
          rw [Engine.records_after, Records.get?_insertSession,
            (Transfer.settle_ok hw).2.2.get?_of_not_paid (by simpa using hpaid) hexecutor]
          exact hp'
  | slash ha => exact .only hs (Engine.admitSlash_ok ha).1 (.slashedFor _ _ _ _) rfl rfl
  | repay ha => exact .only hs (Engine.admitRepayment_ok ha).1 (.repaidInFull _ _ _) rfl rfl
  | setParams =>
    constructor
    · rintro _ ⟨⟩
    · intro id' p' hp' _
      exact .inl hp'

end Outcome

end TrustPermit
