import TrustPermit.Engine.Queries
import TrustPermit.Proofs.Eligibility
import TrustPermit.Proofs.Refusals
import TrustPermit.Proofs.Slashers

/-! # Looking up who can act

A client that looks up the permissions of a subject is shown those that can act. The handlers
agree: a start or a renewal refuses a validator as not eligible exactly if a look-up at that time
does not show it, and a permission may take part in an exchange exactly if one does.
-/

namespace TrustPermit

def Fault.isIneligibility : Fault → Bool
  | .validatorNotEligible _ _ => true
  | _ => false

namespace Permission

variable {p : Permission} {t : Instant} {id : PermissionId}

theorem inactivity?_eq_none_iff_activeAt : p.inactivity? t = none ↔ p.ActiveAt t :=
  inactivity?_eq_none_iff.trans canActAt_iff

theorem checkActive_eq_ok_iff {u : Unit} : p.checkActive id t = .ok u ↔ p.canActAt t = true := by
  rw [← inactivity?_eq_none_iff, checkActive]
  cases p.inactivity? t <;> simp

theorem checkEligible_eq_error (id : PermissionId) {country : Option Country}
    (h : ¬ (p.canActAt t = true ∧ p.serves country = true)) :
    ∃ why, p.checkEligible id country t = .error (.validatorNotEligible id why) := by
  rw [← inactivity?_eq_none_iff] at h
  unfold checkEligible
  split
  · exact ⟨_, rfl⟩
  · rename_i hnone
    exact ⟨_, Guard.demand_eq_error_iff.mpr ⟨fun hs => h ⟨hnone, hs⟩, rfl⟩⟩

@[simp] theorem serves_none (p : Permission) : p.serves none = true := by
  unfold serves
  cases p.country <;> rfl

end Permission

namespace Records

variable {r : Records} {id : PermissionId} {now : Instant} {q : Permission}

theorem checkParticipant_eq_ok_iff {kind : PermissionKind} {u : Unit} :
    r.checkParticipant kind now (some id) = .ok u ↔
      ∃ p, r.get? id = some p ∧ p.kind = kind ∧ p.canActAt now = true := by
  simp only [checkParticipant, Guard.bind_eq_ok_iff, require_eq_ok_iff, Guard.demand_eq_ok_iff,
    Permission.checkActive_eq_ok_iff]
  constructor
  · rintro ⟨p, hp, -, hkind, hact⟩
    exact ⟨p, hp, hkind, hact⟩
  · rintro ⟨p, hp, hkind, hact⟩
    exact ⟨p, hp, (), hkind, hact⟩

/-- A stored validator is refused for nothing but that it cannot take the applicant. -/
theorem validatorFor_eq_error {country : Option Country} (hq : r.get? id = some q)
    (h : ¬ (q.canActAt now = true ∧ q.serves country = true)) :
    ∃ why, r.validatorFor id country now = .error (.validatorNotEligible id why) := by
  obtain ⟨why, hwhy⟩ := q.checkEligible_eq_error id h
  refine ⟨why, ?_⟩
  rw [validatorFor, hq, expect, Guard.ok_bind, hwhy, Guard.error_bind]

end Records

namespace World

variable {w : World} {now : Instant} {p q : Permission}

theorem admitApplication_ineligible_iff {a : Application} (ha : a.validator ≠ 0)
    (hq : w.records.get? a.validator = some q) :
    (∃ why, w.admitApplication a now = .error (.validatorNotEligible a.validator why)) ↔
      ¬ (q.canActAt now = true ∧ q.serves a.country = true) := by
  have hid : PermissionId.given? a.validator = some a.validator := if_neg ha
  constructor
  · rintro ⟨why, h⟩ heligible
    rw [admitApplication, hid, expect, Guard.ok_bind,
      Records.validatorFor_eq_ok_iff.mpr ⟨hq, heligible⟩, Guard.ok_bind] at h
    have hout : Guard.RulesOut Fault.isIneligibility (do
        let schema ← w.host.schema q.schemaId
        schema.checkValidator q a.kind
        return (q, schema)) :=
      .bind (.expect rfl) fun schema => .bind (schema.checkValidator_rulesOut q a.kind
        (fun _ _ _ => rfl) fun _ _ _ _ => rfl) fun _ => .ok _
    cases hout.of_error h
  · intro h
    obtain ⟨why, hwhy⟩ := Records.validatorFor_eq_error hq h
    refine ⟨why, ?_⟩
    rw [admitApplication, hid, expect, Guard.ok_bind, hwhy, Guard.error_bind]

theorem admitRenewal_ineligible_iff {id v : PermissionId} (hp : w.records.get? id = some p)
    (hs : p.state = .validated) (hv : p.validator = some v) (hq : w.records.get? v = some q) :
    (∃ why, w.admitRenewal p.grantee id now = .error (.validatorNotEligible v why)) ↔
      ¬ (q.canActAt now = true ∧ q.serves p.country = true) := by
  have hload : w.loadAsGrantee id p.grantee .renew = .ok p :=
    loadAsGrantee_eq_ok_iff.mpr ⟨hp, rfl⟩
  have hvalidated : p.checkValidated = .ok () := Permission.checkValidated_eq_ok_iff.mpr hs
  have hrest : w.admitRenewal p.grantee id now = do
      let validator ← w.records.validatorFor v p.country now
      return (p, validator) := by
    rw [admitRenewal, hload, Guard.ok_bind, hvalidated, Guard.ok_bind, hv, expect, Guard.ok_bind]
  rw [hrest]
  constructor
  · rintro ⟨why, h⟩ heligible
    rw [Records.validatorFor_eq_ok_iff.mpr ⟨hq, heligible⟩] at h
    cases h
  · intro h
    obtain ⟨why, hwhy⟩ := Records.validatorFor_eq_error hq h
    refine ⟨why, ?_⟩
    rw [hwhy, Guard.error_bind]

end World

def SubjectFilter.Fits (f : SubjectFilter) (p : Permission) : Prop :=
  p.did = f.did ∧ p.kind = f.kind ∧ p.schemaId = f.schemaId

instance (f : SubjectFilter) (p : Permission) : Decidable (f.Fits p) :=
  inferInstanceAs (Decidable (_ ∧ _))

namespace Engine

variable {e : Engine} {f : SubjectFilter} {now t : Instant} {id : PermissionId} {p : Permission}

def found (e : Engine) (f : SubjectFilter) (now : Instant) : List (PermissionId × Permission) :=
  e.records.permissions.toList.filter fun x =>
    f.Fits x.2 && x.2.canActAt (f.at?.getD now) && x.2.serves f.country

theorem permissionsOf_eq_found (e : Engine) (f : SubjectFilter) (now : Instant) :
    e.permissionsOf f now = (e.found f now).map Prod.snd := by
  rw [found, permissionsOf, Records.ofSchema, Table.values, List.filter_filter, List.filter_map]
  congr 1
  refine List.filter_congr fun x _ => ?_
  rw [Bool.eq_iff_iff]
  simp only [Function.comp_apply, Bool.and_eq_true, decide_eq_true_eq]
  rw [SubjectFilter.Fits]
  tauto

theorem mem_found : (id, p) ∈ e.found f now ↔
    f.Fits p ∧ e.records.validatorFor id f.country (f.at?.getD now) = .ok p := by
  rw [found, List.mem_filter, Records.validatorFor_eq_ok_iff, Records.get?, Table.get?_eq_some_iff]
  simp only [Bool.and_eq_true, decide_eq_true_eq]
  tauto

theorem pairwise_found (e : Engine) (f : SubjectFilter) (now : Instant) :
    (e.found f now).Pairwise fun x y => x.1 < y.1 :=
  (e.records.permissions.sorted.filter _).imp fun h => Nat.compare_eq_lt.mp h

theorem mem_permissionsOf_iff : p ∈ e.permissionsOf f now ↔
    f.Fits p ∧ ∃ id, e.records.validatorFor id f.country (f.at?.getD now) = .ok p := by
  simp [permissionsOf_eq_found, mem_found]

/-- Whoever looks up the subject of a permission at an instant is shown it. -/
def Finds (e : Engine) (p : Permission) (country : Option Country) (t : Instant) : Prop :=
  p ∈ e.permissionsOf ⟨p.did, p.kind, p.schemaId, country, some t⟩ t

theorem finds_iff {country : Option Country} (hp : e.records.get? id = some p) :
    e.Finds p country t ↔ p.canActAt t = true ∧ p.serves country = true := by
  simp only [Finds, mem_permissionsOf_iff, Records.validatorFor_eq_ok_iff, Option.getD_some]
  constructor
  · rintro ⟨-, -, -, h⟩
    exact h
  · intro h
    exact ⟨⟨rfl, rfl, rfl⟩, id, hp, h⟩

/-- The handlers that ask whether a permission can act have the answer of a look-up. -/
structure HandlersAgree (e : Engine) : Prop where
  participant : ∀ kind id p t, e.records.get? id = some p →
    (e.records.checkParticipant kind t (some id) = .ok () ↔ p.kind = kind ∧ e.Finds p none t)
  start : ∀ a q t, a.validator ≠ 0 → e.records.get? a.validator = some q →
    ((∃ why, e.admitApplication a t = .error (.validatorNotEligible a.validator why)) ↔
      ¬ e.Finds q a.country t)
  renewal : ∀ id p v q t, e.records.get? id = some p → p.state = .validated →
    p.validator = some v → e.records.get? v = some q →
    ((∃ why, e.admitRenewal p.grantee id t = .error (.validatorNotEligible v why)) ↔
      ¬ e.Finds q p.country t)

theorem handlersAgree (e : Engine) : e.HandlersAgree where
  participant kind id p t hp := by
    rw [finds_iff hp, Records.checkParticipant_eq_ok_iff]
    constructor
    · rintro ⟨p', hp', hkind, hact⟩
      cases hp.symm.trans hp'
      exact ⟨hkind, hact, p.serves_none⟩
    · rintro ⟨hkind, hact, -⟩
      exact ⟨p, hp, hkind, hact⟩
  start a q t ha hq := by rw [finds_iff hq, World.admitApplication_ineligible_iff ha hq]
  renewal id p v q t hp hs hv hq := by
    rw [finds_iff hq, World.admitRenewal_ineligible_iff hp hs hv hq]

end Engine

/-- A look-up shows the permissions of a subject by id, each once: those of the kind and under the
schema asked for that a handler would take as a validator at that time. Starts and renewals refuse
every other validator, and exchanges every other participant. The dates that a look-up tests and the
reasons that a handler may give leave the same permissions active. -/
theorem lookups_agree_with_handlers (e : Engine) (f : SubjectFilter) (now : Instant) :
    (∃ found : List (PermissionId × Permission), e.permissionsOf f now = found.map Prod.snd ∧
      found.Pairwise (fun x y => x.1 < y.1) ∧ ∀ id p, (id, p) ∈ found ↔
        f.Fits p ∧ e.records.validatorFor id f.country (f.at?.getD now) = .ok p) ∧
    (e.records.permissions.Keyed (·.id) →
      (e.permissionsOf f now).Pairwise (fun p q => p.id < q.id) ∧
      ∀ p, p ∈ e.permissionsOf f now ↔
        f.Fits p ∧ e.records.validatorFor p.id f.country (f.at?.getD now) = .ok p) ∧
    e.HandlersAgree ∧
    ∀ (p : Permission) (t : Instant),
      (p.canActAt t = true ↔ p.ActiveAt t) ∧ (p.inactivity? t = none ↔ p.ActiveAt t) := by
  refine ⟨⟨e.found f now, e.permissionsOf_eq_found f now, e.pairwise_found f now,
    fun _ _ => Engine.mem_found⟩, fun hk => ⟨?_, fun p => ?_⟩, e.handlersAgree,
    fun _ _ => ⟨Permission.canActAt_iff, Permission.inactivity?_eq_none_iff_activeAt⟩⟩
  · rw [Engine.permissionsOf_eq_found, List.pairwise_map]
    refine (e.pairwise_found f now).imp_of_mem fun {x y} hx hy hlt => ?_
    have hid {z : PermissionId × Permission} (hz : z ∈ e.found f now) : z.2.id = z.1 :=
      hk _ _ (Records.validatorFor_eq_ok_iff.mp (Engine.mem_found.mp hz).2).1
    rwa [hid hx, hid hy]
  · rw [Engine.mem_permissionsOf_iff]
    refine and_congr_right fun _ => ⟨?_, fun h => ⟨p.id, h⟩⟩
    rintro ⟨id, h⟩
    have hid : p.id = id := hk id p (Records.validatorFor_eq_ok_iff.mp h).1
    rwa [hid]

namespace Sample

def grantorFilter : SubjectFilter := ⟨did, .issuerGrantor, 1, none, none⟩

end Sample

/-- The grantor is shown until it is slashed, and from then on applications to it are refused. -/
theorem lookups_agree_with_handlers_grantor :
    (∃ p, p ∈ (Sample.engine.run Sample.founding).permissionsOf Sample.grantorFilter Sample.noon ∧
      p.id = 2) ∧
    (Sample.engine.run Sample.slashedGrantor).permissionsOf Sample.grantorFilter Sample.noon = [] ∧
    ∃ why, (Sample.engine.run Sample.slashedGrantor).admitApplication ⟨.issuer, 2, Sample.did, none⟩
      Sample.noon = .error (.validatorNotEligible 2 why) := by
  have hs (steps : List Step) := Engine.run_sound (Engine.new_sound Sample.engine_new) steps
  have hgrantor : ((Sample.engine.run Sample.founding).records.get? 2).map (fun p =>
      (p.did, p.kind, p.schemaId, p.canActAt Sample.noon)) =
        some (Sample.did, .issuerGrantor, 1, true) := by decide +kernel
  have hslashed : ((Sample.engine.run Sample.slashedGrantor).records.get? 2).map
        (·.canActAt Sample.noon) = some false ∧
      ∀ p ∈ (Sample.engine.run Sample.slashedGrantor).records.permissions.values,
        p.kind = .issuerGrantor → p.canActAt Sample.noon = false := by decide +kernel
  obtain ⟨-, hbefore, -, -⟩ := lookups_agree_with_handlers
    (Sample.engine.run Sample.founding) Sample.grantorFilter Sample.noon
  obtain ⟨-, hafter, hagree, -⟩ := lookups_agree_with_handlers
    (Sample.engine.run Sample.slashedGrantor) Sample.grantorFilter Sample.noon
  obtain ⟨p, hp, hp'⟩ := Option.map_eq_some_iff.mp hgrantor
  simp only [Prod.mk.injEq] at hp'
  obtain ⟨hdid, hkind, hschema, hact⟩ := hp'
  obtain ⟨q, hq, hq'⟩ := Option.map_eq_some_iff.mp hslashed.1
  have hid : p.id = 2 := (hs _).id_eq hp
  have hnone : (Sample.engine.run Sample.slashedGrantor).permissionsOf Sample.grantorFilter
      Sample.noon = [] := by
    refine List.eq_nil_iff_forall_not_mem.mpr fun p hp => ?_
    obtain ⟨hfits, hok⟩ := ((hafter (hs _).keyed).2 p).mp hp
    obtain ⟨hrow, hact, -⟩ := Records.validatorFor_eq_ok_iff.mp hok
    have hinactive := hslashed.2 p (Records.mem_rows_iff.mpr ⟨_, hrow⟩) hfits.2.1
    cases hinactive.symm.trans hact
  refine ⟨⟨p, ((hbefore (hs _).keyed).2 p).mpr ⟨⟨hdid, hkind, hschema⟩, ?_⟩, hid⟩,
    hnone, (hagree.start _ q _ (by decide) hq).mpr fun hfinds => ?_⟩
  · rw [hid]
    exact Records.validatorFor_eq_ok_iff.mpr ⟨hp, hact, p.serves_none⟩
  · cases hq'.symm.trans ((Engine.finds_iff hq).mp hfinds).1

end TrustPermit
