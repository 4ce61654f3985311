import TrustPermit.Proofs.Eligibility
import TrustPermit.Proofs.Resolution

/-! # The validators of new permissions

A new permission gets its validator in one of two ways. An application names a permission, which
must be able to act. A permission that an account gives itself goes under the first root of the
schema that is in good standing, and nothing asks whether that root has started or has ended.
-/

namespace TrustPermit

theorem Permission.canActAt_iff_dates {p : Permission} {t : Instant} (h : p.isBarred = false) :
    p.canActAt t = true ↔ p.hasStarted t = true ∧ p.hasExpired t = false := by
  rw [canActAt, hasExpired_eq_false_iff, h]
  simp

theorem World.admitSelfGrant_root? {w : World} {g : SelfGrant} {now : Instant} {root : Permission}
    (h : w.admitSelfGrant g now = .ok root) : w.records.root? g.schemaId = some root := by
  simp only [admitSelfGrant, Guard.bind_eq_ok_iff, Guard.expect_eq_ok_iff] at h
  obtain ⟨_, -, _, -, _, -, hr⟩ := h
  exact hr

def Records.Sponsors (r : Records) (v : PermissionId) (q : Permission) (id : PermissionId) : Prop :=
  ∃ p, r.get? id = some p ∧ p.validator = some v ∧ r.get? v = some q

theorem Records.Sound.sponsors_stored {r : Records} (hs : r.Sound) {p q : Permission}
    {v : PermissionId} (hid : p.id = r.counter permissionCounter + 1) (hv : p.validator = some v)
    (hq : r.get? v = some q) : ((r.allocate permissionCounter).insert p).Sponsors v q p.id := by
  refine ⟨p, by simp, hv, ?_⟩
  have hlt : v < p.id := hid ▸ Nat.lt_succ_of_le (hs.id_le hq)
  simp [hlt.ne, hq]

namespace Outcome

variable {e e' : Engine} {now : Instant} {m : Message} {id : PermissionId}

theorem sponsor_of_start (hs : e.records.Sound) (h : Outcome e now m (.permissionCreated id) e')
    {a : Application} (hm : m.action = .start a) :
    ∃ q, e'.records.Sponsors a.validator q id ∧ q.canActAt now = true := by
  cases h with
  | start ha hq hb hid hw =>
    obtain rfl := Action.start.inj hm
    obtain ⟨-, rfl⟩ := Records.nextId_eq_ok_iff.mp hid
    exact ⟨_, hs.sponsors_stored rfl rfl (World.admitApplication_ok ha),
      (World.admitApplication_eligible ha).1⟩
  | createRoot | create => cases hm

/-- The validator of a permission that an account gives itself is the first root in good
standing. -/
theorem sponsor_of_create (hs : e.records.Sound) (h : Outcome e now m (.permissionCreated id) e')
    {g : SelfGrant} (hm : m.action = .create g) :
    ∃ v q, e'.records.Sponsors v q id ∧ e.records.IsRootOf g.schemaId v q ∧
      ∀ other s, e.records.IsRootOf g.schemaId other s → v ≤ other := by
  cases h with
  | create ha hid =>
    obtain rfl := Action.create.inj hm
    obtain ⟨-, rfl⟩ := Records.nextId_eq_ok_iff.mp hid
    obtain ⟨v, hroot, hfirst⟩ := Records.root?_eq_some (World.admitSelfGrant_root? ha)
    exact ⟨v, _, hs.sponsors_stored rfl (congrArg some (hs.id_eq hroot.row)) hroot.row, hroot,
      hfirst⟩
  | start | createRoot => cases hm

end Outcome

/-- The validator of a new permission is in good standing. The one that an application names can
act; the root of a permission that an account gives itself can act exactly if it has started and
has not ended. -/
theorem new_permissions_have_active_validators_iff {host : Host} {params : Params}
    {authority : Address} {e : Engine} (hn : Engine.new host params authority = .ok e)
    (steps : List Step) {now : Instant} {m : Message} {id : PermissionId} {e' : Engine}
    (hd : (e.run steps).deliver now m = (.ok (.permissionCreated id), e')) :
    (∀ a, m.action = .start a →
      ∃ q, e'.records.Sponsors a.validator q id ∧ q.canActAt now = true) ∧
    ∀ g, m.action = .create g →
      ∃ v q, e'.records.Sponsors v q id ∧ (e.run steps).records.IsRootOf g.schemaId v q ∧
        (∀ other s, (e.run steps).records.IsRootOf g.schemaId other s → v ≤ other) ∧
        (q.canActAt now = true ↔ q.hasStarted now = true ∧ q.hasExpired now = false) := by
  have hs := Engine.run_sound (Engine.new_sound hn) steps
  have ho := Engine.deliver_ok hd
  refine ⟨fun a => ho.sponsor_of_start hs, fun g hg => ?_⟩
  obtain ⟨v, q, hsp, hroot, hfirst⟩ := ho.sponsor_of_create hs hg
  exact ⟨v, q, hsp, hroot, hfirst, Permission.canActAt_iff_dates hroot.stands⟩

namespace Sample

def endingRoot : List Step :=
  [signed controller (.createRoot ⟨1, did, none, none, some (inDays 10), {}⟩)]

def upcomingRoot : List Step :=
  [signed controller (.createRoot ⟨1, did, none, some (inDays 1), none, {}⟩)]

def applyingToRoot : Message := ⟨grantor, .start ⟨.verifierGrantor, 1, did, none⟩⟩

def selfGranting : Message := ⟨issuer, .create ⟨1, .issuer, did, none, none, none, 0⟩⟩

end Sample

/-- Before the root ends it takes the grantor's application and the issuer's permission, and it can
act. -/
theorem new_permissions_have_active_validators_iff_ending :
    (∃ q, ((Sample.openEngine.run Sample.endingRoot).deliver Sample.noon
        Sample.applyingToRoot).2.records.Sponsors 1 q 2 ∧ q.canActAt Sample.noon = true) ∧
      ∃ v q, ((Sample.openEngine.run Sample.endingRoot).deliver Sample.noon
        Sample.selfGranting).2.records.Sponsors v q 2 ∧ q.canActAt Sample.noon = true := by
  have happly : ((Sample.openEngine.run Sample.endingRoot).deliver Sample.noon
      Sample.applyingToRoot).1 = .ok (.permissionCreated 2) := by decide +kernel
  have hgrant : ((Sample.openEngine.run Sample.endingRoot).deliver Sample.noon
      Sample.selfGranting).1 = .ok (.permissionCreated 2) := by decide +kernel
  have hrows : ∀ p ∈ (Sample.openEngine.run Sample.endingRoot).records.permissions.values,
      p.hasStarted Sample.noon = true ∧ p.hasExpired Sample.noon = false := by decide +kernel
  have h₁ := new_permissions_have_active_validators_iff Sample.openEngine_new Sample.endingRoot
    (Prod.ext happly rfl)
  have h₂ := new_permissions_have_active_validators_iff Sample.openEngine_new Sample.endingRoot
    (Prod.ext hgrant rfl)
  obtain ⟨v, q, hsp, hroot, -, hiff⟩ := h₂.2 _ rfl
  exact ⟨h₁.1 _ rfl, v, q, hsp, hiff.mpr (hrows q (Records.mem_rows_iff.mpr ⟨v, hroot.row⟩))⟩

/-- The issuer gives itself a permission under a root that has yet to start, and under one that has
ended. Neither can act, and the one that has ended takes no applications. -/
theorem inactive_roots_sponsor_permissions :
    Engine.new Sample.openHost .standard Sample.governor = .ok Sample.openEngine ∧
      ((Sample.openEngine.run Sample.upcomingRoot).deliver Sample.noon Sample.selfGranting).1 =
        .ok (.permissionCreated 2) ∧
      (((Sample.openEngine.run Sample.upcomingRoot).deliver Sample.noon
        Sample.selfGranting).2.records.get? 2).map (·.validator) = some (some 1) ∧
      (((Sample.openEngine.run Sample.upcomingRoot).deliver Sample.noon
        Sample.selfGranting).2.records.get? 1).map (·.canActAt Sample.noon) = some false ∧
      ((Sample.openEngine.run Sample.endingRoot).deliver (Sample.inDays 10)
        Sample.selfGranting).1 = .ok (.permissionCreated 2) ∧
      (((Sample.openEngine.run Sample.endingRoot).deliver (Sample.inDays 10)
        Sample.selfGranting).2.records.get? 2).map (·.validator) = some (some 1) ∧
      (((Sample.openEngine.run Sample.endingRoot).deliver (Sample.inDays 10)
        Sample.selfGranting).2.records.get? 1).map (·.canActAt (Sample.inDays 10)) = some false ∧
      ¬ (Sample.openEngine.run Sample.endingRoot).Accepts (Sample.inDays 10)
        Sample.applyingToRoot := by
  refine ⟨Sample.openEngine_new, ?_⟩
  decide +kernel

end TrustPermit
