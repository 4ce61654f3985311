import TrustPermit.Proofs.Validity

/-! # Prices

The fees and the country of a row are settled when its validity begins. A later consent must state
them again, and one that states others is refused with the first fee that differs, or else with the
country.
-/

namespace TrustPermit

attribute [ext] Fees

namespace Fees

variable {f g : Fees}

def differing? (f g : Fees) : Option FeeKind := FeeKind.all.find? fun kind => f.of kind ≠ g.of kind

theorem differing?_eq_none_iff : f.differing? g = none ↔ f = g := by
  constructor
  · intro h
    have hk : ∀ kind, f.of kind = g.of kind := by
      intro kind
      have hall : kind ∈ FeeKind.all := by cases kind <;> decide
      simpa using List.find?_eq_none.mp h kind hall
    ext
    · exact hk .validation
    · exact hk .issuance
    · exact hk .verification
  · rintro rfl
    exact List.find?_eq_none.mpr (by simp)

theorem exists_differing (h : f ≠ g) : ∃ kind, f.differing? g = some kind :=
  Option.ne_none_iff_exists'.mp (mt differing?_eq_none_iff.mp h)

end Fees

namespace Tenure

/-- A validity that has begun keeps its start and its price. -/
def Locked (t t' : Tenure) : Prop :=
  t.start.isSome = true → t'.start = t.start ∧ t'.fees = t.fees ∧ t'.country = t.country

theorem Locked.refl (t : Tenure) : t.Locked t := fun _ => ⟨rfl, rfl, rfl⟩

theorem Locked.trans {t t' t'' : Tenure} (h : t.Locked t') (h' : t'.Locked t'') : t.Locked t'' := by
  intro hs
  obtain ⟨hstart, hfees, hcountry⟩ := h hs
  obtain ⟨hstart', hfees', hcountry'⟩ := h' (hstart ▸ hs)
  exact ⟨hstart'.trans hstart, hfees'.trans hfees, hcountry'.trans hcountry⟩

end Tenure

namespace Permission

variable {p q : Permission} {terms : Terms}

theorem checkKept_eq (hv : p.everValidated = true) : p.checkKept terms =
    match p.fees.differing? terms.fees with
    | some kind => .error (.renewalFee p.id kind (p.fees.of kind) (terms.fees.of kind))
    | none => demand (terms.country = p.country) (.renewalCountry p.id) := by
  have hfees : p.checkKept terms = FeeKind.all.forM (p.checkKeptFee terms) >>= fun _ =>
      demand (terms.country = p.country) (.renewalCountry p.id) := by
    unfold checkKept
    rw [if_pos hv]
    simp [FeeKind.all]
  rw [hfees]
  unfold checkKeptFee
  rw [Guard.forM_demand, Fees.differing?]
  cases FeeKind.all.find? _ <;> rfl

theorem checkKept_ok (hv : p.everValidated = true) (h : p.checkKept terms = .ok ()) :
    terms.fees = p.fees ∧ terms.country = p.country := by
  rw [checkKept_eq hv] at h
  cases hd : p.fees.differing? terms.fees with
  | none =>
    rw [hd, Guard.demand_eq_ok_iff] at h
    exact ⟨(Fees.differing?_eq_none_iff.mp hd).symm, h⟩
  | some kind =>
    rw [hd] at h
    cases h

theorem Amends.locked {w : World} {m : Message} {now : Instant} (h : p.Amends w m now q) :
    p.tenure.Locked q.tenure := by
  cases h with
  | kept ht => exact ht ▸ .refl p.tenure
  | granted _ ha =>
    intro hv
    obtain ⟨hk, -⟩ := World.admitConsent_terms ha
    obtain ⟨hf, -⟩ := checkKept_ok hv hk
    exact ⟨if_pos hv, hf, if_pos hv⟩
  | extendedTo => exact fun _ => ⟨rfl, rfl, rfl⟩

end Permission

theorem World.admitConsent_eq_error {w : World} {signer : Address} {id : PermissionId}
    {p : Permission} {terms : Terms} {now : Instant} {f : Fault} (hp : w.records.get? id = some p)
    (ha : w.authorityOver p = .ok signer) (hs : p.state = .pending)
    (hk : p.checkKept terms = .error f) : w.admitConsent signer id terms now = .error f := by
  have hload : w.loadAsValidator id signer .validate = .ok p :=
    loadAsValidator_eq_ok_iff.mpr ⟨hp, ha⟩
  have hpending : p.checkTransition .pending .validated = .ok () :=
    Permission.checkTransition_eq_ok_iff.mpr hs
  simp only [admitConsent, hload, hpending, hk, Guard.ok_bind, Guard.error_bind]

namespace Engine

variable {signer : Address} {e : Engine} {now : Instant} {id : PermissionId} {p : Permission}

theorem deliver_unkept {terms : Terms} {f : Fault} (hp : e.records.get? id = some p)
    (ha : e.authorityOver p = .ok signer) (hs : p.state = .pending)
    (hc : Message.check ⟨signer, .validate id terms⟩ = .ok ())
    (hk : p.checkKept terms = .error f) :
    e.deliver now ⟨signer, .validate id terms⟩ = (.error f, e) := by
  have hadm : e.admitConsent signer id terms now = .error f :=
    World.admitConsent_eq_error hp ha hs hk
  have hperform : Transaction.perform ⟨signer, .validate id terms⟩ now e = .error f e :=
    Effect.bind_eq_error_iff.mpr (.inl (Effect.ask_eq_error_iff.mpr ⟨hadm, rfl⟩))
  exact deliver_eq_error hc hperform

theorem run_locked (hs : e.records.Sound) {earlier steps : List Step} (hpre : earlier <+: steps)
    (hp : (e.run earlier).records.get? id = some p) :
    ∃ q, (e.run steps).records.get? id = some q ∧ p.tenure.Locked q.tenure := by
  refine run_relates (R := fun p q => p.tenure.Locked q.tenure) (fun p => .refl p.tenure) .trans
    (fun hs₁ h hp₁ => ?_) hs hpre hp
  obtain ⟨q, hq, ha⟩ := h.amends hs₁ hp₁
  exact ⟨q, hq, ha.locked⟩

end Engine

/-- From its start on the validity of a row keeps its start, its fees and its country through every
run. A consent to a renewal, in order by itself and signed by the authority over the row, is refused
if it states other fees, with the first that differs, and if it states another country. -/
theorem prices_are_locked {host : Host} {params : Params} {authority : Address} {e : Engine}
    (hn : Engine.new host params authority = .ok e) (steps : List Step) :
    (∀ earlier, earlier <+: steps → ∀ id p, (e.run earlier).records.get? id = some p →
      p.effectiveFrom.isSome = true → ∃ q, (e.run steps).records.get? id = some q ∧
        q.effectiveFrom = p.effectiveFrom ∧ q.fees = p.fees ∧ q.country = p.country) ∧
    ∀ id p signer terms, (e.run steps).records.get? id = some p → p.state = .pending →
      p.effectiveFrom.isSome = true → (e.run steps).authorityOver p = .ok signer →
      Message.check ⟨signer, .validate id terms⟩ = .ok () → ∀ now,
        (p.fees ≠ terms.fees → ∃ kind, p.fees.differing? terms.fees = some kind ∧
          (e.run steps).deliver now ⟨signer, .validate id terms⟩ =
            (.error (.renewalFee id kind (p.fees.of kind) (terms.fees.of kind)), e.run steps)) ∧
        (p.fees = terms.fees → p.country ≠ terms.country →
          (e.run steps).deliver now ⟨signer, .validate id terms⟩ =
            (.error (.renewalCountry id), e.run steps)) := by
  have hs₀ := Engine.new_sound hn
  constructor
  · intro earlier hpre id p hp hv
    obtain ⟨q, hq, hl⟩ := Engine.run_locked hs₀ hpre hp
    exact ⟨q, hq, hl hv⟩
  · intro id p signer terms hp hst hv ha hc now
    obtain rfl := (Engine.run_sound hs₀ steps).id_eq hp
    have hkept : p.checkKept terms = _ := Permission.checkKept_eq hv
    constructor
    · intro hne
      obtain ⟨kind, hk⟩ := Fees.exists_differing hne
      rw [hk] at hkept
      exact ⟨kind, hk, Engine.deliver_unkept hp ha hst hc hkept⟩
    · intro hf hne
      rw [Fees.differing?_eq_none_iff.mpr hf] at hkept
      exact Engine.deliver_unkept hp ha hst hc
        (hkept.trans (Guard.demand_eq_error_iff.mpr ⟨Ne.symm hne, rfl⟩))

namespace Sample

def country : Country := ⟨"DE", by decide⟩

def renewing : List Step := founding ++ [signed issuer (.renew 3)]

end Sample

/-- The issuer keeps its price while a renewal is pending, and neither its fee for issuance nor its
country can be changed. -/
theorem prices_are_locked_renewing :
    ∃ p q, (Sample.engine.run Sample.founding).records.get? 3 = some p ∧
      p.effectiveFrom.isSome = true ∧
      (Sample.engine.run Sample.renewing).records.get? 3 = some q ∧
      q.effectiveFrom = p.effectiveFrom ∧ q.fees = p.fees ∧ q.country = p.country ∧
      (Sample.engine.run Sample.renewing).deliver Sample.noon
          ⟨Sample.grantor, .validate 3 (Sample.terms 0 7)⟩ =
        (.error (.renewalFee 3 .issuance 0 7), Sample.engine.run Sample.renewing) ∧
      (Sample.engine.run Sample.renewing).deliver Sample.noon
          ⟨Sample.grantor, .validate 3 { Sample.terms 0 0 with country := some Sample.country }⟩ =
        (.error (.renewalCountry 3), Sample.engine.run Sample.renewing) := by
  have hstart : ((Sample.engine.run Sample.founding).records.get? 3).map
      (·.effectiveFrom.isSome) = some true := by decide +kernel
  have hrow : ((Sample.engine.run Sample.renewing).records.get? 3).map
      (fun q => (q.state, q.effectiveFrom.isSome, q.validator)) =
        some (.pending, true, some 2) := by decide +kernel
  have hprice : ((Sample.engine.run Sample.renewing).records.get? 3).map
      (fun q => (q.fees, q.country)) = some ({}, none) := by decide +kernel
  have hvalidator : ((Sample.engine.run Sample.renewing).records.get? 2).map (·.grantee) =
      some Sample.grantor := by decide +kernel
  obtain ⟨p, hp, hp'⟩ := Option.map_eq_some_iff.mp hstart
  obtain ⟨hlock, hrefuse⟩ := prices_are_locked Sample.engine_new Sample.renewing
  obtain ⟨q, hq, hsame⟩ := hlock Sample.founding (List.prefix_append _ _) 3 p hp hp'
  rw [hq, Option.map_some, Option.some.injEq] at hrow hprice
  simp only [Prod.mk.injEq] at hrow hprice
  obtain ⟨hst, hv, hval⟩ := hrow
  obtain ⟨hfees, hcountry⟩ := hprice
  have ha : (Sample.engine.run Sample.renewing).authorityOver q = .ok Sample.grantor := by
    obtain ⟨v, hv', hg⟩ := Option.map_eq_some_iff.mp hvalidator
    exact (World.authorityOver_validated_iff hval).mpr ⟨v, hv', hg⟩
  refine ⟨p, q, hp, hp', hq, hsame.1, hsame.2.1, hsame.2.2, ?_, ?_⟩
  · obtain ⟨kind, hk, hd⟩ := (hrefuse 3 q _ (Sample.terms 0 7) hq hst hv ha rfl Sample.noon).1
      (by rw [hfees]; decide)
    rw [hfees] at hk hd
    cases hk
    exact hd
  · exact (hrefuse 3 q _ { Sample.terms 0 0 with country := some Sample.country } hq hst hv ha rfl
      Sample.noon).2 hfees (by rw [hcountry]; decide)

end TrustPermit
