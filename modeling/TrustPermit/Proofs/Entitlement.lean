import TrustPermit.Proofs.Hierarchy
import TrustPermit.Proofs.Stages

/-! # Who may act on a permission

A message that names a permission is signed by its grantee, by the authority over it or by an
account that may slash it; only a slash may be repaid by anyone. All of these are on the way from
the permission to its root, or control its registry. An outsider is neither, and can at most leave
a deposit behind.
-/

namespace TrustPermit

namespace Engine

inductive Entitles (e : Engine) (now : Instant) (p : Permission) : Address → Prop where

  | grantee : Entitles e now p p.grantee

  | authority {a : Address} : e.authorityOver p = .ok a → Entitles e now p a

  | slasher {a : Address} : e.checkSlasher a p now = .ok () → Entitles e now p a

end Engine

/-- A message that names a permission is a repayment, or its signer may act on the permission. -/
theorem Outcome.entitled {e e' : Engine} {now : Instant} {m : Message} {r : Response}
    (h : Outcome e now m r e') {id : PermissionId} (ht : m.action.target? = some id) :
    m.action = .repay id ∨ ∃ p, e.records.get? id = some p ∧ e.Entitles now p m.signer := by
  cases h with
  | renew ha =>
    cases ht
    obtain ⟨hp, rfl, -⟩ := World.admitRenewal_ok ha
    exact .inr ⟨_, hp, .grantee⟩
  | consent ha | paidConsent ha =>
    cases ht
    obtain ⟨hp, hv, -⟩ := World.admitConsent_ok ha
    exact .inr ⟨_, hp, .authority hv⟩
  | extend ha =>
    cases ht
    exact .inr ⟨_, (World.admitExtension_ok ha).1, .authority (World.admitExtension_authority ha)⟩
  | revoke ha =>
    cases ht
    exact .inr ⟨_, (World.admitRevocation_ok ha).1, .authority (World.admitRevocation_authority ha)⟩
  | cancel ha =>
    cases ht
    obtain ⟨hp, rfl, -⟩ := World.admitCancellation_eq_ok_iff.mp ha
    exact .inr ⟨_, hp, .grantee⟩
  | requestTermination ha =>
    cases ht
    obtain rfl := World.admitDeparture_grantee ha
    exact .inr ⟨_, (World.admitDeparture_ok ha).1, .grantee⟩
  | confirmTermination ha =>
    cases ht
    obtain ⟨hp, hv, -⟩ := World.admitTermination_eq_ok_iff.mp ha
    exact .inr ⟨_, hp, .authority hv⟩
  | slash ha =>
    cases ht
    exact .inr ⟨_, (Engine.admitSlash_ok ha).1, .slasher (Engine.admitSlash_slasher ha)⟩
  | repay =>
    cases ht
    exact .inl rfl
  | _ => cases ht

theorem Outcome.confirmer {e e' : Engine} {now : Instant} {m : Message} {r : Response}
    (h : Outcome e now m r e') {id : PermissionId} {p : Permission}
    (hm : m.action = .confirmTermination id) (hp : e.records.get? id = some p) :
    e.authorityOver p = .ok m.signer := by
  obtain ⟨signer, action⟩ := m
  obtain rfl : action = .confirmTermination id := hm
  cases h with
  | confirmTermination ha =>
    obtain ⟨hp', hv, -⟩ := World.admitTermination_eq_ok_iff.mp ha
    cases hp.symm.trans hp'
    exact hv

namespace Records.Chain

variable {r r' : Records} {start : Option PermissionId} {rows visited : List Permission}

theorem eq_of_chain (hs : r.Sound) {id : PermissionId} (h : r.Chain (some id) rows) {depth : Nat}
    (hc : r.chain id depth = .ok visited) : visited = rows := by
  simp only [Records.chain, h.walk hs] at hc
  split at hc
  · rename_i hf
    cases hc
    split at hf
    · exact List.take_of_length_le ‹_›
    · cases hf
  · cases hc

theorem eq_of_chainOption (hs : r.Sound) (h : r.Chain start rows) {depth : Nat}
    (hc : r.chainOption start depth = .ok visited) : visited = rows := by
  cases h with
  | done => exact (Except.ok.inj hc).symm
  | up hp hrest => exact (Chain.up hp hrest).eq_of_chain hs hc

theorem develops {m : Message} {now : Instant} (hd : r.Develops m now r')
    (h : r.Chain start rows) :
    ∃ rows', r'.Chain start rows' ∧ rows'.map (·.grantee) = rows.map (·.grantee) := by
  induction h with
  | done => exact ⟨[], .done, rfl⟩
  | up hp _ ih =>
    obtain ⟨q, hq, hb⟩ := hd.kept hp
    obtain ⟨rows', hc, hg⟩ := ih
    refine ⟨q :: rows', .up hq (hb.sameOrigin.validator ▸ hc), ?_⟩
    rw [List.map_cons, List.map_cons, hg, hb.sameOrigin.grantee]

end Records.Chain

namespace Engine

/-- An account that holds neither the permission nor one above it and does not control its
registry. -/
structure Outsider (e : Engine) (p : Permission) (x : Address) : Prop where
  holder : p.grantee ≠ x
  above : ∃ rows, e.records.Chain p.validator rows ∧ ∀ q ∈ rows, q.grantee ≠ x
  controller : e.host.controller p.schemaId ≠ .ok x

namespace Outsider

variable {e e' : Engine} {p q : Permission} {x : Address} {v : PermissionId}

theorem validator (hh : e.records.IsHierarchy) {id : PermissionId}
    (hp : e.records.get? id = some p) (h : e.Outsider p x) (hv : p.validator = some v)
    (hq : e.records.get? v = some q) : e.Outsider q x := by
  obtain ⟨rows, hc, hrows⟩ := h.above
  rw [hv] at hc
  cases hc with
  | up hq' hrest =>
    cases hq.symm.trans hq'
    refine ⟨hrows q List.mem_cons_self, ⟨_, hrest, ?_⟩, ?_⟩
    · intro b hb
      exact hrows b (.tail q hb)
    cases hh id p hp with
    | root hr => cases hr.symm.trans hv
    | under hv' hq' hsc =>
      cases hv.symm.trans hv'
      cases hq.symm.trans hq'
      rw [hsc]
      exact h.controller

theorem not_authority (h : e.Outsider p x) : e.authorityOver p ≠ .ok x := by
  intro ha
  cases hv : p.validator with
  | none =>
    simp only [World.authorityOver, hv] at ha
    exact h.controller ha
  | some v =>
    obtain ⟨q, hq, hg⟩ := (World.authorityOver_validated_iff hv).mp ha
    obtain ⟨rows, hc, hrows⟩ := h.above
    rw [hv] at hc
    cases hc with
    | up hq' _ =>
      cases hq.symm.trans hq'
      exact hrows q List.mem_cons_self hg

theorem not_slasher (hs : e.records.Sound) (h : e.Outsider p x) (now : Instant) :
    e.checkSlasher x p now ≠ .ok () := by
  intro hc
  simp only [checkSlasher, Guard.bind_eq_ok_iff] at hc
  obtain ⟨a, ha, hc⟩ := hc
  split at hc
  · rename_i he
    exact h.controller (he ▸ ha)
  · simp only [Guard.bind_eq_ok_iff, Guard.demand_eq_ok_iff] at hc
    obtain ⟨visited, hv, b, hb, hg, -⟩ := hc
    obtain ⟨rows, hchain, hrows⟩ := h.above
    rw [hchain.eq_of_chainOption hs hv] at hb
    exact hrows b hb hg

theorem not_entitled (hs : e.records.Sound) (h : e.Outsider p x) (now : Instant) :
    ¬ e.Entitles now p x := by
  intro he
  cases he with
  | grantee => exact h.holder rfl
  | authority ha => exact h.not_authority ha
  | slasher hc => exact h.not_slasher hs now hc

theorem develops {m : Message} {now : Instant} (h : e.Outsider p x) (ho : p.SameOrigin q)
    (hd : e.records.Develops m now e'.records) (ha : e.host.SameAround e'.host) :
    e'.Outsider q x := by
  obtain ⟨rows, hc, hrows⟩ := h.above
  obtain ⟨rows', hc', hg⟩ := hc.develops hd
  refine ⟨ho.grantee ▸ h.holder, ⟨rows', ho.validator ▸ hc', ?_⟩, ?_⟩
  · intro b hb hx
    have hm : x ∈ rows.map (·.grantee) := hg ▸ List.mem_map.mpr ⟨b, hb, hx⟩
    obtain ⟨b', hb', hx'⟩ := List.mem_map.mp hm
    exact hrows b' hb' hx'
  · rw [ha, ho.schemaId]
    exact h.controller

end Outsider

end Engine

namespace Permission

variable {r : Records} {m : Message} {now : Instant} {p q closing : Permission}

theorem beside_eq_self (hv : p.validator ≠ some closing.id) (hc : closing.validator ≠ some p.id) :
    closing.beside p = p := by
  simp [beside, shareUnder, hv, hc]

theorem Becomes.named (h : p.Becomes r m now q) : m.action.target? = some p.id ∨
    (∃ n, q = p.raiseDeposit n) ∨ ∃ closing : Permission,
      m.action = .confirmTermination closing.id ∧ r.get? closing.id = some closing ∧
        q = closing.beside p := by
  cases h with
  | raised n => exact .inr (.inl ⟨n, rfl⟩)
  | beside hm hc _ => exact .inr (.inr ⟨_, hm, hc, rfl⟩)
  | renewing hm _ | granted hm _ | extendedTo hm _ _ | withdrawn hm _ _ | cancelled hm _
  | leaving hm _ | closed hm _ | slashedFor hm _ | repaidInFull hm => exact .inl (by rw [hm]; rfl)

end Permission

/-- A message of an outsider raises the deposit of the row, or repays what was slashed of it. -/
theorem Outcome.spares {e e' : Engine} {now : Instant} {m : Message} {r : Response}
    (hs : e.records.Sound) (hh : e.records.IsHierarchy) (h : Outcome e now m r e')
    {id : PermissionId} {p : Permission} (hp : e.records.get? id = some p)
    (hx : e.Outsider p m.signer) :
    (m.action ≠ .repay id ∧ ∃ n, e'.records.get? id = some (p.raiseDeposit n)) ∨
      m.action = .repay id ∧ p.slashedDeposit ≠ 0 ∧
        e'.records.get? id = some (p.repaidInFull m.signer now) := by
  by_cases hr : m.action = .repay id
  · obtain ⟨signer, action⟩ := m
    obtain rfl : action = .repay id := hr
    cases h with
    | repay ha =>
      obtain ⟨hp', hn⟩ := Engine.admitRepayment_ok ha
      cases hp.symm.trans hp'
      refine .inr ⟨rfl, hn, ?_⟩
      simp [show (p.repaidInFull signer now).id = p.id from rfl, hs.id_eq hp]
  · refine .inl ⟨hr, ?_⟩
    obtain ⟨q, hq, hb⟩ := (h.develops hs).kept hp
    rcases hb.named with ht | ⟨n, rfl⟩ | ⟨closing, hm, hc, rfl⟩
    · rw [hs.id_eq hp] at ht
      rcases h.entitled ht with hm | ⟨p', hp', he⟩
      · exact absurd hm hr
      · cases hp.symm.trans hp'
        exact absurd he (hx.not_entitled hs now)
    · exact ⟨n, hq⟩
    · -- Whoever may end the row's validator or a row under it is no outsider.
      have ha := h.confirmer hm hc
      have hv : p.validator ≠ some closing.id := by
        intro hv
        exact (hx.validator hh hp hv hc).not_authority ha
      have hu : closing.validator ≠ some p.id := by
        intro hu
        obtain ⟨q', hq', hg⟩ := (World.authorityOver_validated_iff hu).mp ha
        rw [hs.id_eq hp, hp] at hq'
        cases hq'
        exact hx.holder hg
      exact ⟨0, by rw [hq, Permission.beside_eq_self hv hu]; rfl⟩

end TrustPermit
