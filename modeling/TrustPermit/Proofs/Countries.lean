import TrustPermit.Proofs.Eligibility
import TrustPermit.Proofs.Prices

/-! # Countries

A validator may be restricted to a country. It then serves applicants of this country, and those
who name none. The country of a row is what the applicant named until the first validation, and
what the validator named from then on; each renewal asks again whether the validator serves it.
-/

namespace TrustPermit

namespace Permission

variable {r : Records} {m : Message} {now : Instant} {p q : Permission}

theorem serves_iff {c : Country} (hc : p.country = some c) {country : Option Country} :
    p.serves country = true ↔ country = none ∨ country = some c := by
  cases country with
  | none => simp [serves]
  | some other => simp [serves, hc, eq_comm]

theorem serves_congr (h : q.country = p.country) (country : Option Country) :
    q.serves country = p.serves country := by
  unfold serves
  rw [h]

theorem Becomes.country (h : p.Becomes r m now q) :
    q.everValidated = p.everValidated ∧ q.country = p.country ∨
      p.everValidated = false ∧ ∃ terms, m.action = .validate p.id terms := by
  cases h with
  | @granted terms windowEnd share hm =>
    cases hv : p.everValidated with
    | true => exact .inl ⟨p.everValidated_granted terms windowEnd share now, if_pos hv⟩
    | false => exact .inr ⟨rfl, terms, hm⟩
  | cancelled =>
    left
    unfold Permission.cancelled
    split <;> exact ⟨rfl, rfl⟩
  | _ => exact .inl ⟨rfl, rfl⟩

end Permission

namespace Outcome

variable {e e' : Engine} {now : Instant} {r : Response} {signer : Address} {id : PermissionId}

theorem applied {a : Application}
    (h : Outcome e now ⟨signer, .start a⟩ (.permissionCreated id) e') :
    (∃ q, e.records.get? a.validator = some q ∧ q.everValidated = true ∧
      q.serves a.country = true) ∧
    ∃ p, e'.records.get? id = some p ∧ p.everValidated = false ∧ p.country = a.country ∧
      p.validator = some a.validator := by
  cases h with
  | @start _ _ validator schema cost _ windowEnd ha =>
    obtain ⟨hact, hserves⟩ := World.admitApplication_eligible ha
    constructor
    · exact ⟨validator, World.admitApplication_ok ha, Permission.everValidated_of_canActAt hact,
        hserves⟩
    · refine ⟨.applied id signer a validator.schemaId cost.fee cost.deposit windowEnd now, ?_, rfl,
        rfl, rfl⟩
      rw [Engine.records_after, Records.get?_insert]
      exact if_pos rfl

theorem renewed (h : Outcome e now ⟨signer, .renew id⟩ r e') :
    ∃ p v q, e.records.get? id = some p ∧ p.state = .validated ∧ p.validator = some v ∧
      e.records.get? v = some q ∧ q.everValidated = true ∧ q.serves p.country = true := by
  cases h with
  | renew ha =>
    obtain ⟨hp, -, hst⟩ := World.admitRenewal_ok ha
    obtain ⟨v, hv, hq, hact, hserves⟩ := World.admitRenewal_eligible ha
    exact ⟨_, v, _, hp, hst, hv, hq, Permission.everValidated_of_canActAt hact, hserves⟩

end Outcome

namespace Engine

variable {e : Engine} {steps earlier : List Step} {id v : PermissionId} {p q : Permission}

def AppliedFor (e : Engine) (steps : List Step) (id : PermissionId) (a : Application) : Prop :=
  ∃ earlier now signer, e.AcceptedAfter steps earlier now ⟨signer, .start a⟩ ∧
    ((e.run earlier).deliver now ⟨signer, .start a⟩).1 = .ok (.permissionCreated id)

/-- A row was validated for the first time in the run, on the given terms. -/
def FirstConsent (e : Engine) (steps : List Step) (id : PermissionId) (terms : Terms) : Prop :=
  ∃ earlier now signer, e.AcceptedAfter steps earlier now ⟨signer, .validate id terms⟩ ∧
    ∃ p, (e.run earlier).records.get? id = some p ∧ p.everValidated = false

def Renewed (e : Engine) (steps : List Step) (id : PermissionId) : Prop :=
  ∃ earlier now signer, e.AcceptedAfter steps earlier now ⟨signer, .renew id⟩

theorem FirstConsent.concat {terms : Terms} (h : e.FirstConsent steps id terms) (s : Step) :
    e.FirstConsent (steps ++ [s]) id terms := by
  obtain ⟨earlier, now, signer, ha, hrow⟩ := h
  exact ⟨earlier, now, signer, acceptedAfter_concat.mpr (.inl ha), hrow⟩

theorem validator_stays (hs : e.records.Sound) (hpre : earlier <+: steps)
    (hp : (e.run earlier).records.get? id = some p)
    (hq : (e.run steps).records.get? id = some q) : q.validator = p.validator := by
  obtain ⟨q', hq', horigin⟩ := run_origin hs hpre hp
  cases hq.symm.trans hq'
  exact horigin.validator

theorem country_stays (hs : e.records.Sound) (hpre : earlier <+: steps)
    (hp : (e.run earlier).records.get? id = some p) (hv : p.everValidated = true)
    (hq : (e.run steps).records.get? id = some q) : q.country = p.country := by
  obtain ⟨q', hq', hlocked⟩ := run_locked hs hpre hp
  cases hq.symm.trans hq'
  exact (hlocked hv).2.2

/-- The first consent sets the country of the row. -/
theorem FirstConsent.country (hs : e.records.Sound) {terms : Terms}
    (h : e.FirstConsent steps id terms) (hp : (e.run steps).records.get? id = some p) :
    p.everValidated = true ∧ p.country = terms.country := by
  obtain ⟨earlier, now, signer, ⟨hpre, ha⟩, p₀, hp₀, hn⟩ := h
  obtain ⟨r, e', hd⟩ := accepts_iff.mp ha
  obtain ⟨windowEnd, share, -, hq⟩ := (deliver_ok hd).granted (run_sound hs earlier) hp₀
  have hrun : e.run (earlier ++ [.deliver now ⟨signer, .validate id terms⟩]) = e' := by
    rw [run_concat, step, hd]
  have hv := p₀.everValidated_granted terms windowEnd share now
  have hc : (p₀.granted terms windowEnd share now).country = terms.country :=
    if_neg (Bool.eq_false_iff.mp hn)
  rw [← hrun] at hq
  obtain ⟨p', hp', hlater⟩ := run_kept hs hpre hq
  cases hp.symm.trans hp'
  exact ⟨hlater.everValidated hv, (country_stays hs hpre hq hv hp).trans hc⟩

theorem country_since (hs : e.records.Sound) (hp : (e.run earlier).records.get? id = some p)
    (hn : p.everValidated = false) (hpre : earlier <+: steps)
    (hq : (e.run steps).records.get? id = some q) :
    q.everValidated = false ∧ q.country = p.country ∨ ∃ terms, e.FirstConsent steps id terms := by
  obtain ⟨rest, rfl⟩ := hpre
  induction rest using List.reverseRecOn generalizing q with
  | nil =>
    rw [List.append_nil] at hq
    cases hp.symm.trans hq
    exact .inl ⟨hn, rfl⟩
  | append_singleton rest s ih =>
    obtain ⟨q₀, hq₀, -⟩ := run_kept hs (List.prefix_append earlier rest) hp
    rw [← List.append_assoc] at hq ⊢
    rw [run_concat] at hq
    rcases ih hq₀ with ⟨hv₀, hc₀⟩ | ⟨terms, hf⟩
    · rcases step_rows (run_sound hs _) hq with hq' | ⟨now, m, rfl, ha, ⟨q', hq', hb⟩ | ⟨hnone, -⟩⟩
      · cases hq₀.symm.trans hq'
        exact .inl ⟨hv₀, hc₀⟩
      · cases hq₀.symm.trans hq'
        rcases hb.country with ⟨hv, hc⟩ | ⟨-, terms, hm⟩
        · exact .inl ⟨hv.trans hv₀, hc.trans hc₀⟩
        · obtain ⟨signer, action⟩ := m
          rw [(run_sound hs _).id_eq hq₀] at hm
          obtain rfl : action = .validate id terms := hm
          exact .inr ⟨terms, _, now, signer, acceptedAfter_concat.mpr (.inr ⟨rfl, rfl, ha⟩), q₀,
            hq₀, hv₀⟩
      · cases hnone.symm.trans hq₀
    · exact .inr ⟨terms, hf.concat s⟩

/-- The country of a validator stays from the application on, so the validator still serves the
applicant. -/
theorem AppliedFor.row (hs : e.records.Sound) {a : Application} (h : e.AppliedFor steps id a)
    (hp : (e.run steps).records.get? id = some p) (hv : p.validator = some v)
    (hq : (e.run steps).records.get? v = some q) :
    q.serves a.country = true ∧ (p.everValidated = false ∧ p.country = a.country ∨
      ∃ terms, e.FirstConsent steps id terms) := by
  obtain ⟨earlier, now, signer, ⟨hpre, -⟩, hr⟩ := h
  rcases (e.run earlier).deliver_cases now ⟨signer, .start a⟩ with ⟨f, hd⟩ | ⟨r, e', hd, ho⟩
  · rw [hd] at hr
    cases hr
  · rw [hd] at hr
    cases hr
    obtain ⟨⟨q₀, hq₀, hv₀, hserves⟩, p₀, hp₀, hn, hc, hval⟩ := ho.applied
    have hrun : e.run (earlier ++ [.deliver now ⟨signer, .start a⟩]) = e' := by
      rw [run_concat, step, hd]
    rw [← hrun] at hp₀
    have hcountry := country_since hs hp₀ hn hpre hp
    rw [hc] at hcountry
    refine ⟨?_, hcountry⟩
    rw [validator_stays hs hpre hp₀ hp, hval] at hv
    cases hv
    have hsame := country_stays hs ((List.prefix_append _ _).trans hpre) hq₀ hv₀ hq
    rwa [Permission.serves_congr hsame]

theorem Renewed.row (hs : e.records.Sound) (hc : e.Consistent) (h : e.Renewed steps id)
    (hp : (e.run steps).records.get? id = some p) (hv : p.validator = some v)
    (hq : (e.run steps).records.get? v = some q) : q.serves p.country = true := by
  obtain ⟨earlier, now, signer, hacc⟩ := h
  obtain ⟨r, e', hd⟩ := accepts_iff.mp hacc.2
  obtain ⟨p₀, v₀, q₀, hp₀, hst, hv₀, hq₀, hvalidated, hserves⟩ := (deliver_ok hd).renewed
  rw [validator_stays hs hacc.before hp₀ hp, hv₀] at hv
  cases hv
  have hstarted := (run_consistent hs hc earlier id p₀ hp₀).started (.inl hst)
  have hqsame := country_stays hs hacc.before hq₀ hvalidated hq
  have hpsame := country_stays hs hacc.before hp₀ hstarted hp
  rwa [hpsame, Permission.serves_congr hqsame]

end Engine

/-- A row under a validator that is restricted to a country was applied for with this country or
none, and keeps it until its first consent. A first consent that names this country or none leaves
the row with it; and a row that was ever renewed has this country or none. -/
theorem restricted_validators_serve_own_country {host : Host} {params : Params}
    {authority : Address} {e : Engine} (hn : Engine.new host params authority = .ok e)
    (steps : List Step) {id v : PermissionId} {p q : Permission} {a : Application} {c : Country}
    (ha : e.AppliedFor steps id a) (hp : (e.run steps).records.get? id = some p)
    (hv : p.validator = some v) (hq : (e.run steps).records.get? v = some q)
    (hc : q.country = some c) :
    (a.country = none ∨ a.country = some c) ∧
    (p.effectiveFrom = none → p.country = a.country) ∧
    (p.effectiveFrom.isSome ↔ ∃ terms, e.FirstConsent steps id terms) ∧
    (∀ terms, e.FirstConsent steps id terms →
      (terms.country = none → p.country = none) ∧ (terms.country = some c → p.country = some c)) ∧
    (e.Renewed steps id → p.country = none ∨ p.country = some c) := by
  have hs := Engine.new_sound hn
  have hcon := Engine.consistent_of_empty (Engine.new_get? hn)
  obtain ⟨hserves, hrow⟩ := ha.row hs hp hv hq
  have hconsent : p.everValidated = true ↔ ∃ terms, e.FirstConsent steps id terms := by
    constructor
    · intro hvalidated
      rcases hrow with ⟨hunvalidated, -⟩ | hfirst
      · cases hunvalidated.symm.trans hvalidated
      · exact hfirst
    · rintro ⟨terms, hfirst⟩
      exact (hfirst.country hs hp).1
  refine ⟨(Permission.serves_iff hc).mp hserves, ?_, hconsent, ?_, ?_⟩
  · intro hnone
    rcases hrow with ⟨-, hsame⟩ | hfirst
    · exact hsame
    · have hvalidated := hconsent.mpr hfirst
      simp [Permission.everValidated, hnone] at hvalidated
  · intro terms hfirst
    obtain ⟨-, hset⟩ := hfirst.country hs hp
    exact ⟨hset.trans, hset.trans⟩
  · intro hr
    exact (Permission.serves_iff hc).mp (hr.row hs hcon hp hv hq)

namespace Sample

def abroad : Country := ⟨"FR", by decide⟩

def restricting : List Step :=
  [signed controller (.createRoot ⟨1, did, none, none, none, ⟨100, 50, 0⟩⟩),
    signed grantor (.start ⟨.issuerGrantor, 1, did, none⟩),
    signed controller (.validate 2 { terms 50 30 with country := some country })]

def applying : List Step := restricting ++ [signed issuer (.start ⟨.issuer, 2, did, none⟩)]

def applyingTwice : List Step :=
  applying ++ [signed issuer (.start ⟨.issuer, 2, did, some country⟩)]

/-- The first application is granted without a country, and renewed; the second is granted for
another country. -/
def restricted : List Step :=
  applyingTwice ++
    [signed grantor (.validate 3 (terms 0 0)),
      signed grantor (.validate 4 { terms 0 0 with country := some abroad }),
      signed issuer (.renew 3),
      signed grantor (.validate 3 (terms 0 0))]

theorem restricted_appliedFor :
    engine.AppliedFor restricted 3 ⟨.issuer, 2, did, none⟩ ∧
      engine.AppliedFor restricted 4 ⟨.issuer, 2, did, some country⟩ := by
  have hfirst : applying <+: restricted :=
    (List.prefix_append applying _).trans (List.prefix_append applyingTwice _)
  constructor
  · exact ⟨restricting, noon, issuer, ⟨hfirst, by decide +kernel⟩, by decide +kernel⟩
  · exact ⟨applying, noon, issuer, ⟨List.prefix_append applyingTwice _, by decide +kernel⟩,
      by decide +kernel⟩

end Sample

theorem restricted_validators_serve_own_country_renewed :
    ∃ p q, (Sample.engine.run Sample.restricted).records.get? 3 = some p ∧
      p.validator = some 2 ∧ (Sample.engine.run Sample.restricted).records.get? 2 = some q ∧
      q.country = some Sample.country ∧ Sample.engine.Renewed Sample.restricted 3 ∧
      (p.country = none ∨ p.country = some Sample.country) := by
  have hrow : ((Sample.engine.run Sample.restricted).records.get? 3).map (·.validator) =
      some (some 2) := by decide +kernel
  have hvalidator : ((Sample.engine.run Sample.restricted).records.get? 2).map (·.country) =
      some (some Sample.country) := by decide +kernel
  obtain ⟨p, hp, hv⟩ := Option.map_eq_some_iff.mp hrow
  obtain ⟨q, hq, hc⟩ := Option.map_eq_some_iff.mp hvalidator
  have hr : Sample.engine.Renewed Sample.restricted 3 :=
    ⟨Sample.applyingTwice ++ [Sample.signed Sample.grantor (.validate 3 (Sample.terms 0 0)),
      Sample.signed Sample.grantor
        (.validate 4 { Sample.terms 0 0 with country := some Sample.abroad })],
      Sample.noon, Sample.issuer,
      ⟨[Sample.signed Sample.grantor (.validate 3 (Sample.terms 0 0))], rfl⟩, by decide +kernel⟩
  exact ⟨p, q, hp, hv, hq, hc, hr,
    (restricted_validators_serve_own_country Sample.engine_new Sample.restricted
      Sample.restricted_appliedFor.1 hp hv hq hc).2.2.2.2 hr⟩

/-- A restricted validator has validated an applicant without a country, and one with another. -/
theorem restricted_validator_admits_others :
    ((Sample.engine.run Sample.restricted).records.get? 2).map (·.country) =
        some (some Sample.country) ∧
      Sample.engine.AppliedFor Sample.restricted 3 ⟨.issuer, 2, Sample.did, none⟩ ∧
      ((Sample.engine.run Sample.restricted).records.get? 3).map
          (fun p => (p.state, p.validator, p.country)) = some (.validated, some 2, none) ∧
      Sample.engine.AppliedFor Sample.restricted 4
        ⟨.issuer, 2, Sample.did, some Sample.country⟩ ∧
      ((Sample.engine.run Sample.restricted).records.get? 4).map
          (fun p => (p.state, p.validator, p.country)) =
        some (.validated, some 2, some Sample.abroad) := by
  obtain ⟨hfirst, hsecond⟩ := Sample.restricted_appliedFor
  refine ⟨?_, hfirst, ?_, hsecond, ?_⟩ <;> decide +kernel

end TrustPermit
