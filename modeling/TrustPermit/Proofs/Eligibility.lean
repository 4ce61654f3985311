import TrustPermit.Proofs.Validity

/-! # Eligibility

A validator takes an applicant if it is in good standing and inside its validity. Its stage is not
asked for: a validator that awaits a renewal of its own, or that wants to leave, still takes
applicants, and these are the only ones that are not validated.
-/

namespace TrustPermit

namespace Permission

variable {p : Permission} {t : Instant}

theorem hasExpired_eq_false_iff :
    p.hasExpired t = false ↔ p.effectiveUntil.all (t < ·) = true := by
  rw [hasExpired]
  cases p.effectiveUntil <;> simp

theorem inactivity?_eq_none_iff : p.inactivity? t = none ↔ p.canActAt t = true := by
  unfold inactivity? canActAt isBarred
  constructor
  · intro h
    split_ifs at h with hr ht hs hb he
    rw [Bool.not_eq_true, hasExpired_eq_false_iff] at he
    simp_all
  · intro h
    simp only [Bool.and_eq_true, Bool.not_eq_true', Bool.or_eq_false_iff, bne_eq_false_iff_eq,
      ← hasExpired_eq_false_iff] at h
    obtain ⟨⟨⟨⟨hr, ht⟩, hs⟩, hb⟩, he⟩ := h
    simp [hr, ht, hs, hb, he]

theorem everValidated_of_canActAt (h : p.canActAt t = true) : p.everValidated = true := by
  unfold canActAt hasStarted at h
  simp only [Bool.and_eq_true] at h
  exact Option.isSome_of_any h.1.2

theorem terminated_of_canActAt (h : p.canActAt t = true) : p.terminated = none := by
  unfold canActAt isBarred at h
  simp only [Bool.and_eq_true, Bool.not_eq_true', Bool.or_eq_false_iff] at h
  simpa using h.1.1.1.2

theorem checkEligible_eq_ok_iff {id : PermissionId} {country : Option Country} {u : Unit} :
    p.checkEligible id country t = .ok u ↔ p.canActAt t = true ∧ p.serves country = true := by
  rw [← inactivity?_eq_none_iff, checkEligible]
  cases p.inactivity? t <;> simp

end Permission

theorem Records.validatorFor_eq_ok_iff {r : Records} {id : PermissionId}
    {country : Option Country} {now : Instant} {q : Permission} :
    r.validatorFor id country now = .ok q ↔
      r.get? id = some q ∧ q.canActAt now = true ∧ q.serves country = true := by
  simp only [validatorFor, Guard.bind_eq_ok_iff, Guard.expect_eq_ok_iff, Guard.pure_eq_ok_iff,
    Permission.checkEligible_eq_ok_iff]
  constructor
  · rintro ⟨_, hq, _, he, rfl⟩
    exact ⟨hq, he⟩
  · rintro ⟨hq, he⟩
    exact ⟨q, hq, (), he, rfl⟩

namespace World

variable {w : World} {now : Instant} {p validator : Permission}

theorem admitApplication_eligible {a : Application} {schema : CredentialSchema}
    (h : w.admitApplication a now = .ok (validator, schema)) :
    validator.canActAt now = true ∧ validator.serves a.country = true := by
  simp only [admitApplication, Guard.bind_eq_ok_iff, Guard.pure_eq_ok_iff, Prod.mk.injEq,
    Records.validatorFor_eq_ok_iff] at h
  obtain ⟨_, -, _, ⟨-, he⟩, _, -, _, -, rfl, rfl⟩ := h
  exact he

theorem admitRenewal_eligible {signer : Address} {id : PermissionId}
    (h : w.admitRenewal signer id now = .ok (p, validator)) :
    ∃ v, p.validator = some v ∧ w.records.get? v = some validator ∧
      validator.canActAt now = true ∧ validator.serves p.country = true := by
  simp only [admitRenewal, Guard.bind_eq_ok_iff, Guard.expect_eq_ok_iff, Guard.pure_eq_ok_iff,
    Prod.mk.injEq, Records.validatorFor_eq_ok_iff] at h
  obtain ⟨_, -, _, -, v, hv, _, hq, rfl, rfl⟩ := h
  exact ⟨v, hv, hq⟩

end World

/-- The validator to which an application or a request for renewal goes. -/
def Records.asked? (r : Records) : Action → Option PermissionId
  | .start a => some a.validator
  | .renew id => (r.get? id).bind (·.validator)
  | _ => none

theorem Outcome.asked {e e' : Engine} {now : Instant} {m : Message} {r : Response}
    (h : Outcome e now m r e') {v : PermissionId} (hv : e.records.asked? m.action = some v) :
    ∃ q, e.records.get? v = some q ∧ q.canActAt now = true := by
  cases h with
  | start ha =>
    obtain rfl := Option.some.inj hv
    exact ⟨_, World.admitApplication_ok ha, (World.admitApplication_eligible ha).1⟩
  | renew ha =>
    obtain ⟨hp, -, -⟩ := World.admitRenewal_ok ha
    obtain ⟨v', hv', hq, hact, -⟩ := World.admitRenewal_eligible ha
    rw [Records.asked?, hp, Option.bind_some, hv'] at hv
    obtain rfl := Option.some.inj hv
    exact ⟨_, hq, hact⟩
  | _ => cases hv

def Permission.IsLeaving (p : Permission) : Prop :=
  p.state = .terminationRequested ∨ p.state = .terminated

namespace Permission

variable {r : Records} {m : Message} {now : Instant} {p q : Permission}

theorem Moves.terminated {stage : ValidationStage} (h : p.Moves stage) (hp : p.IsLeaving) :
    stage = .terminated := by
  cases h with
  | close => rfl
  | grant hs | renew hs | drop hs | leave hs => simp [IsLeaving, hs] at hp

theorem Becomes.isLeaving (h : p.Becomes r m now q) (hp : p.IsLeaving) : q.IsLeaving := by
  by_cases hs : q.state = p.state
  · rwa [IsLeaving, hs]
  · exact .inr ((h.moves hs).2.terminated hp)

theorem Becomes.leaves (h : p.Becomes r m now q) (hp : p.state ≠ .terminationRequested)
    (hq : q.state = .terminationRequested) : ∃ signer, m = ⟨signer, .requestTermination p.id⟩ := by
  cases h with
  | leaving hm =>
    obtain ⟨signer, action⟩ := m
    cases hm
    exact ⟨signer, rfl⟩
  | renewing | granted | closed => cases hq
  | cancelled =>
    unfold Permission.cancelled at hq
    split at hq <;> cases hq
  | _ => exact absurd hq hp

theorem Created.state_ne_leaving (h : q.Created m now) : q.state ≠ .terminationRequested := by
  cases h <;> exact nofun

end Permission

namespace Engine

variable {e : Engine} {steps : List Step} {id : PermissionId} {p : Permission}

/-- The grantee of a row asked for its termination in the run, and was heard. -/
def Leaves (e : Engine) (steps : List Step) (id : PermissionId) : Prop :=
  ∃ earlier now signer, e.AcceptedAfter steps earlier now ⟨signer, .requestTermination id⟩

theorem leaves_concat {s : Step} : e.Leaves (steps ++ [s]) id ↔ e.Leaves steps id ∨
    ∃ now signer, s = .deliver now ⟨signer, .requestTermination id⟩ ∧
      (e.run steps).Accepts now ⟨signer, .requestTermination id⟩ := by
  constructor
  · rintro ⟨earlier, now, signer, h⟩
    rcases acceptedAfter_concat.mp h with h | ⟨-, hs, ha⟩
    · exact .inl ⟨earlier, now, signer, h⟩
    · exact .inr ⟨now, signer, hs, ha⟩
  · rintro (⟨earlier, now, signer, h⟩ | ⟨now, signer, hs, ha⟩)
    · exact ⟨earlier, now, signer, acceptedAfter_concat.mpr (.inl h)⟩
    · exact ⟨steps, now, signer, acceptedAfter_concat.mpr (.inr ⟨rfl, hs, ha⟩)⟩

theorem leaving_of_request {now : Instant} {signer : Address} (hs : e.records.Sound)
    (h : e.Accepts now ⟨signer, .requestTermination id⟩) :
    ∃ q, (e.step (.deliver now ⟨signer, .requestTermination id⟩)).records.get? id = some q ∧
      q.IsLeaving := by
  obtain ⟨r, e', hd⟩ := accepts_iff.mp h
  rw [step, hd]
  cases deliver_ok hd with
  | @requestTermination _ _ p ha =>
    obtain ⟨hp, -⟩ := World.admitDeparture_ok ha
    refine ⟨p.leaving now, ?_, .inl rfl⟩
    simp [Permission.leaving, Permission.enter, hs.id_eq hp]

/-- A row whose grantee asked to leave is leaving, or has left. -/
theorem Leaves.isLeaving (hs : e.records.Sound) (h : e.Leaves steps id) :
    ∃ q, (e.run steps).records.get? id = some q ∧ q.IsLeaving := by
  obtain ⟨earlier, now, signer, hpre, ha⟩ := h
  obtain ⟨q, hq, hl⟩ := leaving_of_request (run_sound hs earlier) ha
  rw [← run_concat] at hq
  have hstays : ∃ q', (e.run steps).records.get? id = some q' ∧ (q.IsLeaving → q'.IsLeaving) := by
    refine run_relates (R := fun p q => p.IsLeaving → q.IsLeaving) (fun _ h => h)
      (fun h h' => h' ∘ h) (fun hs₁ h hp₁ => ?_) hs hpre hq
    obtain ⟨q', hq', hb⟩ := (h.develops hs₁).kept hp₁
    exact ⟨q', hq', hb.isLeaving⟩
  obtain ⟨q', hq', hl'⟩ := hstays
  exact ⟨q', hq', hl' hl⟩

theorem leaves_of_state (hs : e.records.Sound) (hz : ∀ id, e.records.get? id = none)
    (hp : (e.run steps).records.get? id = some p) (hl : p.state = .terminationRequested) :
    e.Leaves steps id := by
  induction steps using List.reverseRecOn generalizing p with
  | nil => cases (hz id).symm.trans hp
  | append_singleton steps s ih =>
    rw [run_concat] at hp
    rw [leaves_concat]
    have hs' := run_sound hs steps
    rcases step_rows hs' hp with hp | ⟨now, m, rfl, ha, ⟨p₀, hp₀, hb⟩ | ⟨-, hc⟩⟩
    · exact .inl (ih hp hl)
    · by_cases hl₀ : p₀.state = .terminationRequested
      · exact .inl (ih hp₀ hl₀)
      · obtain ⟨signer, rfl⟩ := hb.leaves hl₀ hl
        rw [hs'.id_eq hp₀] at ha ⊢
        exact .inr ⟨now, signer, rfl, ha⟩
    · exact absurd hl hc.state_ne_leaving

end Engine

/-- Whichever validator takes an applicant or a renewal after a run can act at that moment, and is
not terminated. It is pending exactly if it awaits a renewal of its own, and about to leave exactly
if its grantee asked for that; it is validated exactly if neither is the case. -/
theorem asked_validators_validated_iff {host : Host} {params : Params} {authority : Address}
    {e : Engine} (hn : Engine.new host params authority = .ok e) (steps : List Step) {now : Instant}
    {m : Message} {v : PermissionId} (ha : (e.run steps).Accepts now m)
    (hv : (e.run steps).records.asked? m.action = some v) :
    ∃ q, (e.run steps).records.get? v = some q ∧ q.canActAt now = true ∧ q.state ≠ .terminated ∧
      (q.state = .pending ↔ e.AwaitsRenewal steps v) ∧
      (q.state = .terminationRequested ↔ e.Leaves steps v) ∧
      (q.state = .validated ↔ ¬ e.AwaitsRenewal steps v ∧ ¬ e.Leaves steps v) := by
  have hs := Engine.new_sound hn
  have hz := Engine.new_get? hn
  obtain ⟨r, e', hd⟩ := Engine.accepts_iff.mp ha
  obtain ⟨q, hq, hact⟩ := (Engine.deliver_ok hd).asked hv
  have hnt : q.state ≠ .terminated := by
    intro hst
    have hc := Engine.run_consistent hs (Engine.consistent_of_empty hz) steps v q hq
    have hmark := hc.ended.mpr hst
    simp [Permission.terminated_of_canActAt hact] at hmark
  have hpending : q.state = .pending ↔ e.AwaitsRenewal steps v := by
    constructor
    · intro hst
      exact (Engine.pending_iff hs hz hq hst).mp (Permission.everValidated_of_canActAt hact)
    · rintro ⟨_, _, _, hpre, -, hall⟩
      obtain ⟨q', hq', hst⟩ := hall steps hpre List.prefix_rfl
      cases hq.symm.trans hq'
      exact hst
  have hleaving : q.state = .terminationRequested ↔ e.Leaves steps v := by
    constructor
    · exact Engine.leaves_of_state hs hz hq
    · intro hl
      obtain ⟨q', hq', hst⟩ := hl.isLeaving hs
      cases hq.symm.trans hq'
      exact hst.resolve_right hnt
  refine ⟨q, hq, hact, hnt, hpending, hleaving, ?_⟩
  rw [← hpending, ← hleaving]
  cases hst : q.state <;> simp_all

namespace Sample

def joining : Message := ⟨issuer, .start ⟨.issuer, 2, did, none⟩⟩

def grantorRenewing : List Step := founding ++ [signed grantor (.renew 2)]

/-- The grantor takes an applicant, takes the request back and asks to leave. -/
def grantorLeaving : List Step :=
  grantorRenewing ++
    [.deliver noon joining, signed grantor (.cancel 2), signed grantor (.requestTermination 2)]

end Sample

theorem asked_validators_validated_iff_founding :
    Sample.engine.AwaitsRenewal Sample.grantorRenewing 2 ∧
      Sample.engine.Leaves Sample.grantorLeaving 2 ∧
      ¬ Sample.engine.AwaitsRenewal Sample.founding 2 ∧
      ¬ Sample.engine.Leaves Sample.founding 2 := by
  have hfounding : (Sample.engine.run Sample.founding).Accepts Sample.noon Sample.joining ∧
      ((Sample.engine.run Sample.founding).records.get? 2).map (·.state) = some .validated := by
    decide +kernel
  have hrenewing : (Sample.engine.run Sample.grantorRenewing).Accepts Sample.noon Sample.joining ∧
      ((Sample.engine.run Sample.grantorRenewing).records.get? 2).map (·.state) =
        some .pending := by decide +kernel
  have hleaving : (Sample.engine.run Sample.grantorLeaving).Accepts Sample.noon Sample.joining ∧
      ((Sample.engine.run Sample.grantorLeaving).records.get? 2).map (·.state) =
        some .terminationRequested := by decide +kernel
  obtain ⟨q₁, hq₁, -, -, -, -, hiff₁⟩ :=
    asked_validators_validated_iff Sample.engine_new Sample.founding hfounding.1 rfl
  obtain ⟨q₂, hq₂, -, -, hiff₂, -⟩ :=
    asked_validators_validated_iff Sample.engine_new Sample.grantorRenewing hrenewing.1 rfl
  obtain ⟨q₃, hq₃, -, -, -, hiff₃, -⟩ :=
    asked_validators_validated_iff Sample.engine_new Sample.grantorLeaving hleaving.1 rfl
  rw [hq₁, Option.map_some, Option.some.injEq] at hfounding
  rw [hq₂, Option.map_some, Option.some.injEq] at hrenewing
  rw [hq₃, Option.map_some, Option.some.injEq] at hleaving
  exact ⟨hiff₂.mp hrenewing.2, hiff₃.mp hleaving.2, hiff₁.mp hfounding.2⟩

/-- A grantor that is not validated takes an applicant and a renewal: once while it awaits a renewal
of its own, and once after it asked to leave. -/
theorem unvalidated_validator_takes_applicants :
    ((Sample.engine.run Sample.grantorRenewing).records.get? 2).map (·.state) = some .pending ∧
      (Sample.engine.run Sample.grantorRenewing).records.asked? (.renew 3) = some 2 ∧
      (Sample.engine.run Sample.grantorRenewing).Accepts Sample.noon Sample.joining ∧
      (Sample.engine.run Sample.grantorRenewing).Accepts Sample.noon ⟨Sample.issuer, .renew 3⟩ ∧
      ((Sample.engine.run Sample.grantorLeaving).records.get? 2).map (·.state) =
        some .terminationRequested ∧
      (Sample.engine.run Sample.grantorLeaving).records.asked? (.renew 3) = some 2 ∧
      (Sample.engine.run Sample.grantorLeaving).Accepts Sample.noon Sample.joining ∧
      (Sample.engine.run Sample.grantorLeaving).Accepts Sample.noon ⟨Sample.issuer, .renew 3⟩ := by
  decide +kernel

end TrustPermit
