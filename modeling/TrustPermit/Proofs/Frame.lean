import TrustPermit.Proofs.Entitlement

/-! # Frame

What a message leaves alone. Rows stay, keep their origin, and have the ids up to the counter, none
left out. A row that a message does not name changes in its deposit and in its validator's share
only: payouts raise the deposit, and a confirmed termination settles the shares between the ended
row, its validator and the rows that it validated.
-/

namespace TrustPermit

namespace Permission

/-- What a message leaves of a row that it does not name. -/
structure Bystands (r : Records) (a : Action) (p q : Permission) : Prop where
  same : q = { p with deposit := q.deposit, validatorShare := q.validatorShare }
  /-- The validator of an ended row gives back the share of it. -/
  returns {closing : Permission} : a = .confirmTermination closing.id →
    r.get? closing.id = some closing → closing.validator = some p.id →
      q.deposit + closing.validatorShare = p.deposit
  grows : (∀ closing : Permission, a = .confirmTermination closing.id →
    r.get? closing.id = some closing → closing.validator ≠ some p.id) → p.deposit ≤ q.deposit
  share : q.validatorShare = p.validatorShare ∨
    q.validatorShare = 0 ∧ ∃ id, a = .confirmTermination id ∧ p.validator = some id

namespace Bystands

variable {r : Records} {a : Action} {p closing : Permission}

theorem raiseDeposit (ha : ∀ id, a ≠ .confirmTermination id) (n : Nat) :
    p.Bystands r a (p.raiseDeposit n) where
  same := rfl
  returns h := absurd h (ha _)
  grows _ := Nat.le_add_right _ _
  share := .inl rfl

theorem beside (hc : r.Covered) (hp : r.get? p.id = some p)
    (hr : r.get? closing.id = some closing) :
    p.Bystands r (.confirmTermination closing.id) (closing.beside p) where
  same := rfl
  returns {other} ha ho hv := by
    injection ha with hid
    rw [← hid] at ho
    cases hr.symm.trans ho
    change p.deposit - closing.shareUnder p.id + closing.validatorShare = p.deposit
    rw [shareUnder, if_pos hv]
    exact Nat.sub_add_cancel (hc.share_le hr hv hp)
  grows hne := by
    change p.deposit ≤ p.deposit - closing.shareUnder p.id
    rw [shareUnder_of_ne _ (hne closing rfl hr), Nat.sub_zero]
  share := by
    by_cases hv : p.validator = some closing.id
    · exact .inr ⟨if_pos hv, closing.id, rfl, hv⟩
    · exact .inl (if_neg hv)

end Bystands

end Permission

namespace Records

def Complete (r : Records) : Prop :=
  ∀ id, 1 ≤ id → id ≤ r.counter permissionCounter → ∃ p, r.get? id = some p

theorem counter_terminated (r : Records) (p : Permission) (actor : Address) (now : Instant)
    (entity : String) : (r.terminated p actor now).counter entity = r.counter entity := by
  unfold terminated shareReturned
  split <;> rfl

theorem Complete.get?_iff {r : Records} (hs : r.Sound) (hc : r.Complete) (id : PermissionId) :
    (∃ p, r.get? id = some p) ↔ 1 ≤ id ∧ id ≤ r.counter permissionCounter := by
  constructor
  · rintro ⟨p, hp⟩
    exact ⟨Nat.one_le_iff_ne_zero.mpr (hs.id_ne_zero hp), hs.id_le hp⟩
  · rintro ⟨hpos, hle⟩
    exact hc id hpos hle

end Records

namespace Outcome

variable {e e' : Engine} {now : Instant} {m : Message} {r : Response}

theorem counter (h : Outcome e now m r e') :
    e'.records.counter Records.permissionCounter = e.records.counter Records.permissionCounter ∨
      e'.records.counter Records.permissionCounter =
          e.records.counter Records.permissionCounter + 1 ∧
        ∃ p, e'.records.get? (e.records.counter Records.permissionCounter + 1) = some p := by
  have hnew : ∀ p : Permission, p.id = e.records.counter Records.permissionCounter + 1 →
      ((e.records.allocate Records.permissionCounter).insert p).counter Records.permissionCounter =
          e.records.counter Records.permissionCounter + 1 ∧
        ∃ q, ((e.records.allocate Records.permissionCounter).insert p).get?
          (e.records.counter Records.permissionCounter + 1) = some q := by
    intro p hid
    refine ⟨Records.Sound.counter_allocate e.records, p, ?_⟩
    rw [Records.get?_insert, if_pos hid.symm]
  cases h with
  | start _ _ _ hid | createRoot _ hid | create _ hid =>
    obtain ⟨-, rfl⟩ := Records.nextId_eq_ok_iff.mp hid
    exact .inr (hnew _ rfl)
  | confirmTermination => exact .inl (Records.counter_terminated ..)
  | exchange _ _ _ hw =>
    obtain ⟨⟨g, hg⟩, -⟩ := (Transfer.settle_ok hw).2.2.world
    left
    rw [Engine.records_after, hg]
    rfl
  | _ => exact .inl rfl

theorem complete (hs : e.records.Sound) (hc : e.records.Complete) (h : Outcome e now m r e') :
    e'.records.Complete := by
  intro id hpos hle
  have hold : id ≤ e.records.counter Records.permissionCounter →
      ∃ q, e'.records.get? id = some q := by
    intro hle
    obtain ⟨p, hp⟩ := hc id hpos hle
    obtain ⟨q, hq, -⟩ := (h.develops hs).kept hp
    exact ⟨q, hq⟩
  rcases h.counter with heq | ⟨heq, hnew⟩
  · exact hold (heq ▸ hle)
  · rcases Nat.le_succ_iff.mp (heq ▸ hle) with hle | rfl
    · exact hold hle
    · exact hnew

/-- A confirmed termination leaves of each other row what is beside the one that ends. -/
theorem besides (hs : e.records.Sound) {signer : Address} {id : PermissionId}
    (h : Outcome e now ⟨signer, .confirmTermination id⟩ r e') :
    ∃ closing, e.records.get? id = some closing ∧
      ∀ other, other ≠ id → e'.records.get? other = (e.records.get? other).map closing.beside := by
  cases h with
  | confirmTermination ha =>
    obtain ⟨hp, -⟩ := World.admitTermination_eq_ok_iff.mp ha
    refine ⟨_, hp, ?_⟩
    intro other hne
    exact hs.get?_terminated_of_ne (hs.id_eq hp ▸ hne) signer now

/-- A message leaves a row that it does not name, but for what payouts and returned shares do to
it. -/
theorem bystands (hs : e.records.Sound) (hc : e.records.Covered) (h : Outcome e now m r e')
    {id : PermissionId} {p : Permission} (hp : e.records.get? id = some p)
    (ht : m.action.target? ≠ some id) :
    ∃ q, e'.records.get? id = some q ∧ p.Bystands e.records m.action q := by
  obtain rfl := hs.id_eq hp
  by_cases hm : ∃ closing, m.action = .confirmTermination closing
  · obtain ⟨signer, action⟩ := m
    obtain ⟨closed, rfl⟩ : ∃ closing, action = .confirmTermination closing := hm
    obtain ⟨closing, hr, hall⟩ := h.besides hs
    obtain rfl := hs.id_eq hr
    have hne : p.id ≠ closing.id := by
      intro he
      exact ht (by rw [he]; rfl)
    refine ⟨closing.beside p, ?_, .beside hc hp hr⟩
    rw [hall p.id hne, hp, Option.map_some]
  · have hnone : ∀ closing, m.action ≠ .confirmTermination closing := by
      intro closing ha
      exact hm ⟨closing, ha⟩
    obtain ⟨q, hq, hb⟩ := (h.develops hs).kept hp
    rcases hb.named with hnamed | ⟨n, rfl⟩ | ⟨closing, ha, -⟩
    · exact absurd hnamed ht
    · exact ⟨_, hq, .raiseDeposit hnone n⟩
    · exact absurd ha (hnone _)

end Outcome

namespace Engine

variable {e : Engine}

theorem run_complete (hs : e.records.Sound) (hc : e.records.Complete) (steps : List Step) :
    (e.run steps).records.Complete := by
  refine (run_invariant (P := fun e => e.records.Sound ∧ e.records.Complete) ⟨hs, hc⟩
    (step_invariant ?_ ?_) steps).2
  · rintro e e' now m r ⟨hs, hc⟩ h
    exact ⟨h.sound hs, h.complete hs hc⟩
  · intro e host h
    exact h

theorem new_complete {host : Host} {params : Params} {authority : Address}
    (h : new host params authority = .ok e) : e.records.Complete := by
  obtain ⟨-, rfl⟩ := new_eq_ok_iff.mp h
  intro id hpos hle
  have hzero : id ≤ 0 := hle
  exact absurd (hpos.trans hzero) (Nat.not_succ_le_zero 0)

end Engine

/-- After every run the rows have the ids up to the counter. An accepted message keeps every row and
its origin, and every row that it does not name but for the deposit and the validator's share: the
deposit grows, unless the message ends a row that it validated, whose share it gives back; the
validator's share stays, unless the message ends the validator, and then is gone. A refused message
changes nothing, the counter included. -/
theorem messages_keep_frame {host : Host} {params : Params} {authority : Address} {e : Engine}
    (hn : Engine.new host params authority = .ok e) (steps : List Step) :
    (∀ id, (∃ p, (e.run steps).records.get? id = some p) ↔
      1 ≤ id ∧ id ≤ (e.run steps).records.counter Records.permissionCounter) ∧
    (∀ now m r e', (e.run steps).deliver now m = (.ok r, e') →
      ∀ id p, (e.run steps).records.get? id = some p → ∃ q, e'.records.get? id = some q ∧
        p.SameOrigin q ∧
        (m.action.target? ≠ some id → p.Bystands (e.run steps).records m.action q)) ∧
    ∀ now m f e', (e.run steps).deliver now m = (.error f, e') → e' = e.run steps := by
  obtain ⟨hs, hcovered⟩ := Engine.run_covered hn steps
  refine ⟨?_, ?_, ?_⟩
  · have hcomplete := Engine.run_complete (Engine.new_sound hn) (Engine.new_complete hn) steps
    exact hcomplete.get?_iff hs
  · intro now m r e' hd id p hp
    have ho := Engine.deliver_ok hd
    obtain ⟨q, hq, hb⟩ := (ho.develops hs).kept hp
    refine ⟨q, hq, hb.sameOrigin, ?_⟩
    intro ht
    obtain ⟨q', hq', hby⟩ := ho.bystands hs hcovered hp ht
    cases hq.symm.trans hq'
    exact hby
  · intro now m f e' hd
    exact Engine.deliver_error hd

/-- The grantor lets one of its issuers go, and gives back what it earned by it. -/
theorem messages_keep_frame_departure :
    ∃ closing p q r e', (Sample.engine.run Sample.departures).deliver Sample.noon
        ⟨Sample.grantor, .confirmTermination 3⟩ = (.ok r, e') ∧
      (Sample.engine.run Sample.departures).records.get? 3 = some closing ∧
      closing.validatorShare ≠ 0 ∧
      (Sample.engine.run Sample.departures).records.get? 2 = some p ∧
      e'.records.get? 2 = some q ∧ q.deposit + closing.validatorShare = p.deposit := by
  have hclosing : ((Sample.engine.run Sample.departures).records.get? 3).map
      (fun p => (p.id, p.validator, p.validatorShare)) = some (3, some 2, 10) := by decide +kernel
  have hrow : ((Sample.engine.run Sample.departures).records.get? 2).map (·.id) = some 2 := by
    decide +kernel
  obtain ⟨closing, hc, hfacts⟩ := Option.map_eq_some_iff.mp hclosing
  obtain ⟨p, hp, hid⟩ := Option.map_eq_some_iff.mp hrow
  simp only [Prod.mk.injEq] at hfacts
  obtain ⟨hcid, hv, hshare⟩ := hfacts
  have ha : (Sample.engine.run Sample.departures).Accepts Sample.noon
      ⟨Sample.grantor, .confirmTermination 3⟩ := by decide +kernel
  obtain ⟨r, e', hd⟩ := Engine.accepts_iff.mp ha
  obtain ⟨q, hq, -, hby⟩ :=
    (messages_keep_frame Sample.engine_new Sample.departures).2.1 _ _ _ _ hd 2 p hp
  have hends : (⟨Sample.grantor, .confirmTermination 3⟩ : Message).action =
      .confirmTermination closing.id := by rw [hcid]
  have hreturns : q.deposit + closing.validatorShare = p.deposit := by
    apply (hby (by decide)).returns hends
    · rw [hcid, hc]
    · rw [hv, hid]
  have hshare' : closing.validatorShare ≠ 0 := by
    rw [hshare]
    decide
  exact ⟨closing, p, q, r, e', hd, hc, hshare', hp, hq, hreturns⟩

end TrustPermit
