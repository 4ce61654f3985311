import TrustPermit.Engine.Exchange
import TrustPermit.Engine.Lifecycle
import TrustPermit.Proofs.Records

/-! # What admissions establish

A handler works on the rows that its admission answered. They are rows of the records, in the
state that the handler expects, and the signer has the right to act on them.
-/

namespace TrustPermit

@[simp] theorem authorize_eq_ok_iff {caller expected : Address} {deed : Deed} {u : Unit} :
    authorize caller expected deed = .ok u ↔ caller = expected := by
  simp [authorize]

namespace Permission

variable {p : Permission} {u : Unit}

@[simp] theorem checkValidated_eq_ok_iff : p.checkValidated = .ok u ↔ p.state = .validated := by
  simp [checkValidated]

@[simp] theorem checkTransition_eq_ok_iff {source target : ValidationStage} :
    p.checkTransition source target = .ok u ↔ p.state = source := by
  simp [checkTransition]

@[simp] theorem checkUnrevoked_eq_ok_iff : p.checkUnrevoked = .ok u ↔ p.revoked = none := by
  simp [checkUnrevoked]

end Permission

theorem Records.validatorFor_ok {r : Records} {id : PermissionId} {country : Option Country}
    {now : Instant} {p : Permission} (h : r.validatorFor id country now = .ok p) :
    r.get? id = some p := by
  simp only [validatorFor, Guard.bind_eq_ok_iff, Guard.expect_eq_ok_iff,
    Guard.pure_eq_ok_iff] at h
  obtain ⟨_, hp, _, -, rfl⟩ := h
  exact hp

namespace World

variable {w : World} {signer : Address} {id : PermissionId} {p : Permission} {now : Instant}

theorem authorityOver_validated_iff {v : PermissionId} {a : Address} (hv : p.validator = some v) :
    w.authorityOver p = .ok a ↔ ∃ q, w.records.get? v = some q ∧ q.grantee = a := by
  simp [authorityOver, hv]

theorem loadAsValidator_eq_ok_iff {deed : Deed} :
    w.loadAsValidator id signer deed = .ok p ↔
      w.records.get? id = some p ∧ w.authorityOver p = .ok signer := by
  simp only [loadAsValidator, Guard.bind_eq_ok_iff, Records.require_eq_ok_iff,
    authorize_eq_ok_iff, Guard.pure_eq_ok_iff]
  constructor
  · rintro ⟨_, hp, _, ha, _, rfl, rfl⟩
    exact ⟨hp, ha⟩
  · rintro ⟨hp, ha⟩
    exact ⟨p, hp, signer, ha, (), rfl, rfl⟩

theorem loadAsGrantee_eq_ok_iff {deed : Deed} :
    w.loadAsGrantee id signer deed = .ok p ↔
      w.records.get? id = some p ∧ signer = p.grantee := by
  simp only [loadAsGrantee, Guard.bind_eq_ok_iff, Records.require_eq_ok_iff,
    authorize_eq_ok_iff, Guard.pure_eq_ok_iff]
  constructor
  · rintro ⟨_, hp, _, ha, rfl⟩
    exact ⟨hp, ha⟩
  · rintro ⟨hp, ha⟩
    exact ⟨p, hp, (), ha, rfl⟩

theorem admitApplication_ok {a : Application} {validator : Permission}
    {schema : CredentialSchema} (h : w.admitApplication a now = .ok (validator, schema)) :
    w.records.get? a.validator = some validator := by
  simp only [admitApplication, Guard.bind_eq_ok_iff, Guard.expect_eq_ok_iff,
    Guard.pure_eq_ok_iff, Prod.mk.injEq] at h
  obtain ⟨id, hid, _, hv, _, -, _, -, rfl, rfl⟩ := h
  have he : a.validator = id := by
    unfold PermissionId.given? at hid
    split at hid
    · cases hid
    · exact Option.some.inj hid
  exact he ▸ Records.validatorFor_ok hv

theorem admitRenewal_ok {validator : Permission}
    (h : w.admitRenewal signer id now = .ok (p, validator)) :
    w.records.get? id = some p ∧ signer = p.grantee ∧ p.state = .validated := by
  simp only [admitRenewal, Guard.bind_eq_ok_iff, loadAsGrantee_eq_ok_iff,
    Permission.checkValidated_eq_ok_iff, Guard.pure_eq_ok_iff, Prod.mk.injEq] at h
  obtain ⟨_, ⟨hp, hs⟩, _, hv, _, -, _, -, rfl, rfl⟩ := h
  exact ⟨hp, hs, hv⟩

theorem admitConsent_ok {terms : Terms} {windowEnd : Option Instant}
    (h : w.admitConsent signer id terms now = .ok (p, windowEnd)) :
    w.records.get? id = some p ∧ w.authorityOver p = .ok signer ∧ p.state = .pending := by
  simp only [admitConsent, Guard.bind_eq_ok_iff, loadAsValidator_eq_ok_iff,
    Permission.checkTransition_eq_ok_iff, Guard.pure_eq_ok_iff, Prod.mk.injEq] at h
  obtain ⟨_, ⟨hp, hs⟩, _, hv, _, -, _, -, _, -, _, -, _, -, rfl, -⟩ := h
  exact ⟨hp, hs, hv⟩

theorem admitExtension_eq_ok_iff {finish : Instant} :
    w.admitExtension signer id finish = .ok p ↔
      w.records.get? id = some p ∧ w.authorityOver p = .ok signer ∧ p.state = .validated ∧
        p.revoked = none ∧ p.checkForward finish = .ok () ∧ p.checkCeiling finish = .ok () := by
  simp only [admitExtension, Guard.bind_eq_ok_iff, loadAsValidator_eq_ok_iff,
    Permission.checkValidated_eq_ok_iff, Permission.checkUnrevoked_eq_ok_iff,
    Guard.pure_eq_ok_iff]
  constructor
  · rintro ⟨_, ⟨hp, ha⟩, _, hv, _, hr, _, hf, _, hc, rfl⟩
    exact ⟨hp, ha, hv, hr, hf, hc⟩
  · rintro ⟨hp, ha, hv, hr, hf, hc⟩
    exact ⟨p, ⟨hp, ha⟩, (), hv, (), hr, (), hf, (), hc, rfl⟩

theorem admitExtension_ok {finish : Instant} (h : w.admitExtension signer id finish = .ok p) :
    w.records.get? id = some p ∧ p.state = .validated ∧ p.revoked = none := by
  obtain ⟨hp, -, hv, hr, -⟩ := admitExtension_eq_ok_iff.mp h
  exact ⟨hp, hv, hr⟩

theorem admitExtension_authority {finish : Instant}
    (h : w.admitExtension signer id finish = .ok p) : w.authorityOver p = .ok signer :=
  (admitExtension_eq_ok_iff.mp h).2.1

theorem admitRevocation_ok (h : w.admitRevocation signer id = .ok p) :
    w.records.get? id = some p ∧ p.state = .validated ∧ p.revoked = none := by
  simp only [admitRevocation, Guard.bind_eq_ok_iff, loadAsValidator_eq_ok_iff,
    Permission.checkValidated_eq_ok_iff, Permission.checkUnrevoked_eq_ok_iff,
    Guard.pure_eq_ok_iff] at h
  obtain ⟨_, ⟨hp, -⟩, _, hv, _, hr, rfl⟩ := h
  exact ⟨hp, hv, hr⟩

theorem admitRevocation_authority (h : w.admitRevocation signer id = .ok p) :
    w.authorityOver p = .ok signer := by
  simp only [admitRevocation, Guard.bind_eq_ok_iff, loadAsValidator_eq_ok_iff,
    Guard.pure_eq_ok_iff] at h
  obtain ⟨_, ⟨-, ha⟩, _, -, _, -, rfl⟩ := h
  exact ha

theorem admitCancellation_eq_ok_iff :
    w.admitCancellation signer id = .ok p ↔
      w.records.get? id = some p ∧ signer = p.grantee ∧ p.state = .pending := by
  simp only [admitCancellation, Guard.bind_eq_ok_iff, loadAsGrantee_eq_ok_iff,
    Permission.checkTransition_eq_ok_iff, Guard.pure_eq_ok_iff]
  constructor
  · rintro ⟨_, ⟨hp, hs⟩, _, hv, rfl⟩
    exact ⟨hp, hs, hv⟩
  · rintro ⟨hp, hs, hv⟩
    exact ⟨p, ⟨hp, hs⟩, (), hv, rfl⟩

theorem admitCancellation_ok (h : w.admitCancellation signer id = .ok p) :
    w.records.get? id = some p ∧ p.state = .pending := by
  obtain ⟨hp, -, hv⟩ := admitCancellation_eq_ok_iff.mp h
  exact ⟨hp, hv⟩

theorem admitDeparture_ok (h : w.admitDeparture signer id = .ok p) :
    w.records.get? id = some p ∧ p.state = .validated := by
  simp only [admitDeparture, Guard.bind_eq_ok_iff, loadAsGrantee_eq_ok_iff,
    Permission.checkValidated_eq_ok_iff, Guard.pure_eq_ok_iff] at h
  obtain ⟨_, ⟨hp, -⟩, _, hv, rfl⟩ := h
  exact ⟨hp, hv⟩

theorem admitDeparture_grantee (h : w.admitDeparture signer id = .ok p) :
    signer = p.grantee := by
  simp only [admitDeparture, Guard.bind_eq_ok_iff, loadAsGrantee_eq_ok_iff,
    Guard.pure_eq_ok_iff] at h
  obtain ⟨_, ⟨-, hs⟩, _, -, rfl⟩ := h
  exact hs

theorem admitTermination_eq_ok_iff :
    w.admitTermination signer id = .ok p ↔ w.records.get? id = some p ∧
      w.authorityOver p = .ok signer ∧ p.state = .terminationRequested := by
  simp only [admitTermination, Guard.bind_eq_ok_iff, loadAsValidator_eq_ok_iff,
    Permission.checkTransition_eq_ok_iff, Guard.pure_eq_ok_iff]
  constructor
  · rintro ⟨_, ⟨hp, ha⟩, _, hs, rfl⟩
    exact ⟨hp, ha, hs⟩
  · rintro ⟨hp, ha, hs⟩
    exact ⟨p, ⟨hp, ha⟩, (), hs, rfl⟩

theorem admitSelfGrant_ok {g : SelfGrant} {root : Permission}
    (h : w.admitSelfGrant g now = .ok root) : ∃ id, w.records.get? id = some root := by
  simp only [admitSelfGrant, Guard.bind_eq_ok_iff, Guard.expect_eq_ok_iff] at h
  obtain ⟨_, -, _, -, _, -, hr⟩ := h
  have hm := List.mem_of_find?_eq_some hr
  exact Records.mem_rows_iff.mp (List.mem_of_mem_filter hm)

end World

namespace Records

variable {r : Records} {b : Permission}

theorem mem_walkFrom {stop : Fault} {hops : Nat} {seen : List PermissionId}
    {start : Option PermissionId} (h : b ∈ (r.walkFrom stop hops seen start).visited) :
    ∃ id, r.get? id = some b := by
  induction hops generalizing seen start with
  | zero => cases start <;> cases h
  | succ hops ih =>
    cases start with
    | none => cases h
    | some id =>
      simp only [walkFrom] at h
      split at h
      · cases h
      · split at h
        · cases h
        · rename_i p hp
          rcases List.mem_cons.mp h with rfl | h
          · exact ⟨id, hp⟩
          · exact ih h

theorem mem_chainOption {start : Option PermissionId} {maxDepth : Nat} {rows : List Permission}
    (h : r.chainOption start maxDepth = .ok rows) (hb : b ∈ rows) : ∃ id, r.get? id = some b := by
  cases start with
  | none =>
    cases h
    cases hb
  | some id =>
    simp only [chainOption, chain] at h
    split at h
    · cases h
      exact mem_walkFrom hb
    · cases h

theorem mem_firstOccurrences {rows : List Permission} (h : b ∈ firstOccurrences rows) :
    b ∈ rows := by
  induction rows with
  | nil => exact h
  | cons p rest ih =>
    rcases List.mem_cons.mp h with rfl | h
    · exact List.mem_cons_self
    · exact List.mem_cons_of_mem _ (ih (List.mem_of_mem_filter h))

theorem mem_beneficiaries {schemas : Table Nat CredentialSchema}
    {issuer verifier : Option PermissionId} {maxDepth : Nat} {rows : List Permission}
    (h : r.beneficiaries schemas issuer verifier maxDepth = .ok rows) (hb : b ∈ rows) :
    ∃ id, r.get? id = some b := by
  simp only [beneficiaries, Guard.bind_eq_ok_iff] at h
  obtain ⟨_, -, _, -, schemaId, -, _, -, h⟩ := h
  split at h
  · cases h
    have hm := List.mem_of_find?_eq_some (Option.mem_toList.mp hb)
    exact mem_rows_iff.mp (List.mem_of_mem_filter hm)
  · simp only [Guard.bind_eq_ok_iff, Guard.pure_eq_ok_iff] at h
    obtain ⟨_, hi, _, hv, rfl⟩ := h
    rcases List.mem_append.mp (List.mem_of_mem_filter (mem_firstOccurrences hb)) with hb | hb
    · exact mem_chainOption hi hb
    · exact mem_chainOption hv hb

end Records

namespace Engine

variable {e : Engine} {signer : Address} {id : PermissionId} {p : Permission}

theorem mem_admitPayment {x : Exchange} {rows : List Permission} {b : Permission}
    (h : e.admitPayment signer x = .ok rows) (hb : b ∈ rows) :
    ∃ id, e.records.get? id = some b := by
  simp only [admitPayment, Guard.bind_eq_ok_iff, Guard.pure_eq_ok_iff] at h
  obtain ⟨_, hr, _, -, _, -, rfl⟩ := h
  exact Records.mem_beneficiaries hr hb

theorem admitSlash_ok {amount : Nat} {now : Instant}
    (h : e.admitSlash signer id amount now = .ok p) :
    e.records.get? id = some p ∧ amount ≤ p.unslashed := by
  simp only [admitSlash, Guard.bind_eq_ok_iff, Records.require_eq_ok_iff,
    Guard.demand_eq_ok_iff, Guard.pure_eq_ok_iff] at h
  obtain ⟨_, hp, _, -, _, ha, rfl⟩ := h
  exact ⟨hp, ha⟩

theorem admitSlash_slasher {amount : Nat} {now : Instant}
    (h : e.admitSlash signer id amount now = .ok p) : e.checkSlasher signer p now = .ok () := by
  simp only [admitSlash, Guard.bind_eq_ok_iff, Guard.pure_eq_ok_iff] at h
  obtain ⟨_, -, _, hs, _, -, rfl⟩ := h
  exact hs

theorem admitRepayment_ok (h : e.admitRepayment signer id = .ok p) :
    e.records.get? id = some p ∧ p.slashedDeposit ≠ 0 := by
  simp only [admitRepayment, Guard.bind_eq_ok_iff, Records.require_eq_ok_iff,
    Guard.demand_eq_ok_iff, Guard.pure_eq_ok_iff] at h
  obtain ⟨_, hp, _, hs, _, -, rfl⟩ := h
  exact ⟨hp, hs⟩

end Engine

end TrustPermit
