import TrustPermit.Proofs.Termination

/-! # How rows develop

What a successful message makes of each row that is there, and what the rows are that it creates.
The stage of a row, its marks and what was slashed of it change only where the message names the
row. Beyond that a row gains deposit from payouts and loses what a terminated row held of it. So
roots stay under the controllers of their registries.
-/

namespace TrustPermit

namespace Permission

/-- What a message makes of a row of the records. -/
inductive Becomes (r : Records) (m : Message) (now : Instant) (p : Permission) :
    Permission → Prop where

  | raised (n : Nat) : Becomes r m now p (p.raiseDeposit n)

  | renewing {fee deposit : Nat} : m.action = .renew p.id → p.state = .validated →
      Becomes r m now p (p.renewing fee deposit now)

  | granted {terms : Terms} {windowEnd : Option Instant} {share : Nat} :
      m.action = .validate p.id terms → p.state = .pending →
      Becomes r m now p (p.granted terms windowEnd share now)

  | extendedTo {finish : Instant} : m.action = .extend p.id finish → p.state = .validated →
      p.revoked = none → Becomes r m now p (p.extendedTo finish m.signer now)

  | withdrawn : m.action = .revoke p.id → p.state = .validated → p.revoked = none →
      Becomes r m now p (p.withdrawn m.signer now)

  | cancelled : m.action = .cancel p.id → p.state = .pending →
      Becomes r m now p (p.cancelled m.signer now)

  | leaving : m.action = .requestTermination p.id → p.state = .validated →
      Becomes r m now p (p.leaving now)

  | closed : m.action = .confirmTermination p.id → p.state = .terminationRequested →
      Becomes r m now p (p.closed m.signer now)

  | beside {closing : Permission} : m.action = .confirmTermination closing.id →
      r.get? closing.id = some closing → closing.id ≠ p.id →
      Becomes r m now p (closing.beside p)

  | slashedFor {amount : Nat} : m.action = .slash p.id amount → amount ≤ p.unslashed →
      Becomes r m now p (p.slashedFor amount m.signer now)

  | repaidInFull : m.action = .repay p.id → Becomes r m now p (p.repaidInFull m.signer now)

inductive Created (m : Message) (now : Instant) : Permission → Prop where

  | applied {id : PermissionId} {a : Application} {schemaId fee deposit : Nat}
      {windowEnd : Option Instant} : m.action = .start a →
      Created m now (.applied id m.signer a schemaId fee deposit windowEnd now)

  | root {id : PermissionId} {g : RootGrant} : m.action = .createRoot g →
      Created m now (.root id m.signer g now)

  | selfGranted {id root : PermissionId} {g : SelfGrant} : m.action = .create g →
      Created m now (.selfGranted id m.signer g root now)

variable {r : Records} {m : Message} {now : Instant} {p q : Permission}

theorem Becomes.same : p.Becomes r m now p := .raised 0

theorem Becomes.sameOrigin (h : p.Becomes r m now q) : p.SameOrigin q := by
  cases h with
  | raised n => exact .raiseDeposit p n
  | renewing => exact .renewing p _ _ _
  | granted => exact .granted p _ _ _ _
  | extendedTo => exact .extendedTo p _ _ _
  | withdrawn => exact .withdrawn p _ _
  | cancelled => exact .cancelled p _ _
  | leaving => exact .leaving p _
  | closed => exact .closed p _ _
  | beside => exact ⟨rfl, rfl, rfl, rfl, rfl, rfl, rfl, rfl⟩
  | slashedFor => exact .slashedFor p _ _ _
  | repaidInFull => exact .repaidInFull p _ _

end Permission

namespace Records

/-- Every row is kept and becomes one of its successors; the others are created. -/
structure Develops (m : Message) (now : Instant) (r r' : Records) : Prop where
  kept {id p} : r.get? id = some p → ∃ q, r'.get? id = some q ∧ p.Becomes r m now q
  fresh {id q} : r'.get? id = some q → r.get? id = none → q.Created m now

namespace Develops

variable {r r' : Records} {m : Message} {now : Instant} {p q : Permission}

theorem row (hd : r.Develops m now r') {id : PermissionId} (hq : r'.get? id = some q) :
    (∃ p, r.get? id = some p ∧ p.Becomes r m now q) ∨ r.get? id = none ∧ q.Created m now := by
  cases hp : r.get? id with
  | none => exact .inr ⟨rfl, hd.fresh hq hp⟩
  | some p =>
    obtain ⟨q', hq', hb⟩ := hd.kept hp
    cases hq.symm.trans hq'
    exact .inl ⟨p, rfl, hb⟩

theorem refl (m : Message) (now : Instant) (r : Records) : r.Develops m now r where
  kept {_ p} h := ⟨p, h, .same⟩
  fresh h hn := by cases hn.symm.trans h

theorem raisedBy (g : PermissionId → Nat) : r.Develops m now (r.raisedBy g) where
  kept {id p} h := ⟨p.raiseDeposit (g id), by simp [h], .raised _⟩
  fresh h hn := by simp [hn] at h

theorem insert (h : r.Develops m now r') (hp : r.get? p.id = some p)
    (hq : p.Becomes r m now q) : r.Develops m now (r'.insert q) where
  kept {id p'} h' := by
    by_cases he : id = q.id
    · have hid : id = p.id := he.trans hq.sameOrigin.id
      cases (hid ▸ h').symm.trans hp
      exact ⟨q, by simp [he], hq⟩
    · obtain ⟨q', hq', hb⟩ := h.kept h'
      exact ⟨q', by simp [he, hq'], hb⟩
  fresh {id q'} h' hn := by
    by_cases he : id = q.id
    · rw [he, hq.sameOrigin.id, hp] at hn
      cases hn
    · simp only [get?_insert, he, if_false] at h'
      exact h.fresh h' hn

theorem insert_new (hs : r.Sound) (hid : p.id = r.counter permissionCounter + 1)
    (hp : p.Created m now) : r.Develops m now ((r.allocate permissionCounter).insert p) where
  kept {id p'} h := by
    have hne : id ≠ p.id := by
      intro he
      have hle := hs.id_le h
      rw [he, hid] at hle
      exact Nat.not_succ_le_self _ hle
    exact ⟨p', by simp [hne, h], .same⟩
  fresh {id q} h hn := by
    rcases get?_stored h with ⟨-, rfl⟩ | h
    · exact hp
    · cases hn.symm.trans h

theorem terminated (hs : r.Sound) (hp : r.get? p.id = some p)
    (hm : m.action = .confirmTermination p.id) (ht : p.state = .terminationRequested) :
    r.Develops m now (r.terminated p m.signer now) where
  kept {id p'} h := by
    by_cases he : id = p.id
    · subst he
      cases h.symm.trans hp
      exact ⟨_, r.get?_terminated p m.signer now, .closed hm ht⟩
    · refine ⟨p.beside p', by simp [hs.get?_terminated_of_ne he, h], ?_⟩
      exact .beside hm hp (hs.id_eq h ▸ Ne.symm he)
  fresh {id q} h hn := by
    have hne : id ≠ p.id := by
      rintro rfl
      cases hn.symm.trans hp
    simp [hs.get?_terminated_of_ne hne, hn] at h

end Develops

end Records

/-- Every message develops the rows. -/
theorem Outcome.develops {e e' : Engine} {now : Instant} {m : Message} {r : Response}
    (hs : e.records.Sound) (h : Outcome e now m r e') :
    e.records.Develops m now e'.records := by
  have hrefl := Records.Develops.refl m now e.records
  cases h with
  | start ha hq hb hid hw =>
    obtain ⟨-, rfl⟩ := Records.nextId_eq_ok_iff.mp hid
    exact .insert_new hs rfl (.applied rfl)
  | renew ha hq hb hd =>
    obtain ⟨hp, -, hv⟩ := World.admitRenewal_ok ha
    exact hrefl.insert (hs.get?_id hp) (.renewing (by rw [hs.id_eq hp]) hv)
  | consent ha hz hd =>
    obtain ⟨hp, -, hv⟩ := World.admitConsent_ok ha
    exact hrefl.insert (hs.get?_id hp) (.granted (by rw [hs.id_eq hp]) hv)
  | paidConsent ha hn hv hg hb hf hc hd =>
    obtain ⟨hp, -, hv⟩ := World.admitConsent_ok ha
    exact Records.Develops.insert (.raisedBy _) (hs.get?_id hp)
      (.granted (by rw [hs.id_eq hp]) hv)
  | extend ha =>
    obtain ⟨hp, hv, hr⟩ := World.admitExtension_ok ha
    exact hrefl.insert (hs.get?_id hp) (.extendedTo (by rw [hs.id_eq hp]) hv hr)
  | revoke ha =>
    obtain ⟨hp, hv, hr⟩ := World.admitRevocation_ok ha
    exact hrefl.insert (hs.get?_id hp) (.withdrawn (by rw [hs.id_eq hp]) hv hr)
  | cancel ha hf hd =>
    obtain ⟨hp, hv⟩ := World.admitCancellation_ok ha
    exact hrefl.insert (hs.get?_id hp) (.cancelled (by rw [hs.id_eq hp]) hv)
  | requestTermination ha =>
    obtain ⟨hp, hv⟩ := World.admitDeparture_ok ha
    exact hrefl.insert (hs.get?_id hp) (.leaving (by rw [hs.id_eq hp]) hv)
  | confirmTermination ha hd =>
    obtain ⟨hp, -, ht⟩ := World.admitTermination_eq_ok_iff.mp ha
    exact .terminated hs (hs.get?_id hp) (by rw [hs.id_eq hp]) ht
  | createRoot ha hid =>
    obtain ⟨-, rfl⟩ := Records.nextId_eq_ok_iff.mp hid
    exact .insert_new hs rfl (.root rfl)
  | create ha hid =>
    obtain ⟨-, rfl⟩ := Records.nextId_eq_ok_iff.mp hid
    exact .insert_new hs rfl (.selfGranted rfl)
  | @exchange signer x s beneficiaries receipt w ha hx hb hw =>
    obtain ⟨⟨g, hg⟩, -⟩ := (Transfer.settle_ok hw).2.2.world
    have hd : e.records.Develops ⟨signer, .exchange x⟩ now w.records := hg ▸ .raisedBy g
    exact ⟨hd.kept, hd.fresh⟩
  | slash ha hn hb =>
    obtain ⟨hp, hle⟩ := Engine.admitSlash_ok ha
    exact hrefl.insert (hs.get?_id hp) (.slashedFor (by rw [hs.id_eq hp]) hle)
  | repay ha hb hr =>
    obtain ⟨hp, -⟩ := Engine.admitRepayment_ok ha
    exact hrefl.insert (hs.get?_id hp) (.repaidInFull (by rw [hs.id_eq hp]))
  | setParams ha hp => exact hrefl

theorem Outcome.rooted {e e' : Engine} {now : Instant} {m : Message} {r : Response}
    (hs : e.records.Sound) (he : e.Rooted) (h : Outcome e now m r e') : e'.Rooted := by
  have hc : ∀ n, e'.host.controller n = e.host.controller n := by
    intro n
    rw [h.around]
    rfl
  cases hm : m.action.isSlash with
  | false => exact (h.evolves hs hm).rooted hc he
  | true =>
    intro id q hq hv
    rcases (h.develops hs).row hq with ⟨p, hp, hb⟩ | ⟨-, hnew⟩
    · rw [hc, hb.sameOrigin.schemaId]
      exact he id p hp (hb.sameOrigin.validator ▸ hv)
    · rcases hnew with ha | ha | ha <;> simp [ha, Action.isSlash] at hm

theorem Engine.step_rooted {e : Engine} (hs : e.records.Sound) (he : e.Rooted) {s : Step}
    (hd : e.KeepsDirectory s) : (e.step s).Rooted := by
  cases s using e.step_cases with
  | surround host =>
    intro id p hp hv
    rw [step_controller hd]
    exact he id p hp hv
  | refused now m _ hstep => rwa [hstep]
  | accepted now m r e' _ hstep h =>
    rw [hstep]
    exact h.rooted hs he

end TrustPermit
