import TrustPermit.Proofs.Development

/-! # The stages of a permission

A permission moves along the stages of the validation process, one row with each message. The
marks on a row tell its past: a row has a start of validity if it was validated at some time, and
a mark of its end if it was terminated.
-/

namespace TrustPermit

def Action.target? : Action → Option PermissionId
  | renew id | validate id _ | extend id _ | revoke id | cancel id | requestTermination id
  | confirmTermination id | slash id _ | repay id => some id
  | start _ | createRoot _ | create _ | exchange _ | setParams _ => none

namespace Permission

/-- The stages to which a row can move. Only a request before any validation ends by its
cancellation. -/
inductive Moves (p : Permission) : ValidationStage → Prop where

  | grant : p.state = .pending → Moves p .validated

  | renew : p.state = .validated → Moves p .pending

  | drop : p.state = .pending → p.effectiveFrom = none → Moves p .terminated

  | leave : p.state = .validated → Moves p .terminationRequested

  | close : p.state = .terminationRequested → Moves p .terminated

/-- The marks on a row agree with its stage. -/
structure Consistent (p : Permission) : Prop where
  ended : p.terminated.isSome ↔ p.state = .terminated
  started : p.state = .validated ∨ p.state = .terminationRequested → p.everValidated = true

theorem Consistent.terminated_eq_none {p : Permission} (hp : p.Consistent)
    (hs : p.state ≠ .terminated) : p.terminated = none := by
  simpa using mt hp.ended.mp hs

@[simp] theorem everValidated_granted (p : Permission) (t : Terms) (windowEnd : Option Instant)
    (share : Nat) (now : Instant) : (p.granted t windowEnd share now).everValidated = true := by
  change (if p.everValidated then p.effectiveFrom else some now).isSome = true
  split
  · assumption
  · rfl

/-- What a row never loses. -/
structure Later (p q : Permission) : Prop where
  started {t} : p.effectiveFrom = some t → q.effectiveFrom = some t
  ended : p.state = .terminated → q.state = .terminated
  revoked {t} : p.revoked = some t → q.revoked = some t

theorem Later.refl (p : Permission) : p.Later p := ⟨fun h => h, fun h => h, fun h => h⟩

theorem Later.trans {p q s : Permission} (h₁ : p.Later q) (h₂ : q.Later s) : p.Later s :=
  ⟨fun h => h₂.started (h₁.started h), fun h => h₂.ended (h₁.ended h),
    fun h => h₂.revoked (h₁.revoked h)⟩

theorem Later.everValidated {p q : Permission} (h : p.Later q) (hp : p.everValidated = true) :
    q.everValidated = true := by
  obtain ⟨t, ht⟩ := Option.isSome_iff_exists.mp hp
  simp [Permission.everValidated, h.started ht]

namespace Becomes

variable {r : Records} {m : Message} {now : Instant} {p q : Permission}

theorem moves (h : p.Becomes r m now q) (hne : q.state ≠ p.state) :
    m.action.target? = some p.id ∧ p.Moves q.state := by
  cases h with
  | renewing hm hv => exact ⟨by rw [hm]; rfl, .renew hv⟩
  | granted hm hv => exact ⟨by rw [hm]; rfl, .grant hv⟩
  | cancelled hm hv =>
    refine ⟨by rw [hm]; rfl, ?_⟩
    unfold Permission.cancelled
    split
    · exact .grant hv
    · rename_i hn
      exact .drop hv (by simpa [everValidated] using hn)
  | leaving hm hv => exact ⟨by rw [hm]; rfl, .leave hv⟩
  | closed hm hv => exact ⟨by rw [hm]; rfl, .close hv⟩
  | _ => exact absurd rfl hne

theorem consistent (h : p.Becomes r m now q) (hp : p.Consistent) : q.Consistent := by
  cases h with
  | renewing hm hv =>
    have ht := hp.terminated_eq_none (by simp [hv])
    exact ⟨by simp [Permission.renewing, enter, ht], by simp [Permission.renewing, enter]⟩
  | granted hm hv =>
    have ht := hp.terminated_eq_none (by simp [hv])
    exact ⟨by simp [Permission.granted, enter, ht], fun _ => p.everValidated_granted _ _ _ _⟩
  | cancelled hm hv =>
    have ht := hp.terminated_eq_none (by simp [hv])
    unfold Permission.cancelled
    split
    · rename_i hs
      exact ⟨by simp [withoutRequest, enter, ht], fun _ => hs⟩
    · exact ⟨by simp [archived, enter], by simp [archived, enter]⟩
  | leaving hm hv =>
    have ht := hp.terminated_eq_none (by simp [hv])
    exact ⟨by simp [Permission.leaving, enter, ht], fun _ => hp.started (.inl hv)⟩
  | closed =>
    exact ⟨by simp [Permission.closed, archived, enter],
      by simp [Permission.closed, archived, enter]⟩
  | _ => exact ⟨hp.ended, hp.started⟩

theorem later (h : p.Becomes r m now q) : p.Later q := by
  cases h with
  | renewing hm hv => exact ⟨fun h => h, fun hs => by simp [hs] at hv, fun h => h⟩
  | granted hm hv =>
    refine ⟨fun {t} ht => ?_, fun hs => by simp [hs] at hv, fun h => h⟩
    simp [Permission.granted, enter, Permission.everValidated, ht]
  | withdrawn hm hv hr => exact ⟨fun h => h, fun h => h, fun ht => by simp [ht] at hr⟩
  | cancelled hm hv =>
    unfold Permission.cancelled
    split <;> exact ⟨fun h => h, fun hs => by simp [hs] at hv, fun h => h⟩
  | leaving hm hv => exact ⟨fun h => h, fun hs => by simp [hs] at hv, fun h => h⟩
  | closed hm hv => exact ⟨fun h => h, fun _ => rfl, fun h => h⟩
  | _ => exact ⟨fun h => h, fun h => h, fun h => h⟩

theorem validated_of_started (h : p.Becomes r m now q) (hp : p.everValidated = false)
    (hq : q.everValidated = true) : q.state = .validated := by
  cases h with
  | granted => rfl
  | cancelled =>
    unfold Permission.cancelled at hq
    split at hq <;> exact absurd (hp.symm.trans hq) Bool.false_ne_true
  | _ => exact absurd (hp.symm.trans hq) Bool.false_ne_true

theorem everValidated_of_pending (h : p.Becomes r m now q) (hq : q.state = .pending) :
    q.everValidated = p.everValidated := by
  cases h with
  | granted => cases hq
  | cancelled =>
    unfold Permission.cancelled at hq ⊢
    split <;> rfl
  | _ => rfl

theorem renews (h : p.Becomes r m now q) (hp : p.state ≠ .pending) (hq : q.state = .pending) :
    ∃ signer, m = ⟨signer, .renew p.id⟩ ∧ p.state = .validated := by
  cases h with
  | renewing hm hv =>
    obtain ⟨signer, action⟩ := m
    cases hm
    exact ⟨signer, rfl, hv⟩
  | granted => cases hq
  | cancelled hm hv => exact absurd hv hp
  | leaving => cases hq
  | closed => cases hq
  | _ => exact absurd hq hp

end Becomes

namespace Created

variable {m : Message} {now : Instant} {q : Permission}

theorem consistent (h : q.Created m now) : q.Consistent := by
  cases h with
  | applied => exact ⟨by simp [Permission.applied, fresh], by simp [Permission.applied, fresh]⟩
  | root => exact ⟨by simp [Permission.root, fresh, enter], fun _ => rfl⟩
  | selfGranted => exact ⟨by simp [Permission.selfGranted, fresh, enter], fun _ => rfl⟩

theorem validated_iff (h : q.Created m now) : q.state = .validated ↔ q.everValidated = true := by
  cases h with
  | applied => simp [Permission.applied, fresh, everValidated]
  | root => simp [Permission.root, fresh, enter, everValidated]
  | selfGranted => simp [Permission.selfGranted, fresh, enter, everValidated]

end Created

end Permission

namespace Engine

variable {e : Engine} {id : PermissionId} {p q : Permission}

/-- A row after a step was there before, or it comes from an accepted message. -/
theorem step_rows (hs : e.records.Sound) {s : Step} (h : (e.step s).records.get? id = some q) :
    e.records.get? id = some q ∨ ∃ now m, s = .deliver now m ∧ e.Accepts now m ∧
      ((∃ p, e.records.get? id = some p ∧ p.Becomes e.records m now q) ∨
        e.records.get? id = none ∧ q.Created m now) := by
  cases s using e.step_cases with
  | surround host => exact .inl h
  | refused now m _ hstep => exact .inl (hstep ▸ h)
  | accepted now m r e' hd hstep ho =>
    rw [hstep] at h
    exact .inr ⟨now, m, rfl, accepts_iff.mpr ⟨r, e', hd⟩, (ho.develops hs).row h⟩

/-- A relation between a row and what every message makes of it holds between the rows at two
points of a run, if it is reflexive and transitive. -/
theorem run_relates {R : Permission → Permission → Prop} (refl : ∀ p, R p p)
    (trans : ∀ {p q s}, R p q → R q s → R p s)
    (outcome : ∀ {e e' now m r id p}, e.records.Sound → Outcome e now m r e' →
      e.records.get? id = some p → ∃ q, e'.records.get? id = some q ∧ R p q)
    (hs : e.records.Sound) {earlier steps : List Step} (hpre : earlier <+: steps)
    (hp : (e.run earlier).records.get? id = some p) :
    ∃ q, (e.run steps).records.get? id = some q ∧ R p q := by
  obtain ⟨rest, rfl⟩ := hpre
  rw [run_append]
  refine (run_invariant (P := fun e' => e'.records.Sound ∧
    ∃ q, e'.records.get? id = some q ∧ R p q) ⟨run_sound hs earlier, p, hp, refl p⟩
    (step_invariant ?_ fun _ h => h) rest).2
  rintro e₁ e₂ now m r ⟨hs₁, q, hq, hr⟩ h
  obtain ⟨q', hq', hr'⟩ := outcome hs₁ h hq
  exact ⟨h.sound hs₁, q', hq', trans hr hr'⟩

theorem run_kept (hs : e.records.Sound) {earlier steps : List Step} (hpre : earlier <+: steps)
    (hp : (e.run earlier).records.get? id = some p) :
    ∃ q, (e.run steps).records.get? id = some q ∧ p.Later q := by
  refine run_relates .refl .trans (fun hs₁ h hp₁ => ?_) hs hpre hp
  obtain ⟨q, hq, hb⟩ := (h.develops hs₁).kept hp₁
  exact ⟨q, hq, hb.later⟩

theorem run_origin (hs : e.records.Sound) {earlier steps : List Step} (hpre : earlier <+: steps)
    (hp : (e.run earlier).records.get? id = some p) :
    ∃ q, (e.run steps).records.get? id = some q ∧ p.SameOrigin q := by
  refine run_relates .refl .trans (fun hs₁ h hp₁ => ?_) hs hpre hp
  obtain ⟨q, hq, hb⟩ := (h.develops hs₁).kept hp₁
  exact ⟨q, hq, hb.sameOrigin⟩

/-- The marks on every row agree with its stage. -/
def Consistent (e : Engine) : Prop := ∀ id p, e.records.get? id = some p → p.Consistent

theorem consistent_of_empty (hz : ∀ id, e.records.get? id = none) : e.Consistent := by
  intro id p hp
  cases (hz id).symm.trans hp

theorem run_consistent (hs : e.records.Sound) (hc : e.Consistent) (steps : List Step) :
    (e.run steps).Consistent := by
  refine (run_invariant (P := fun e => e.records.Sound ∧ e.Consistent) ⟨hs, hc⟩
    (fun e s ⟨hs, hc⟩ => ⟨step_sound hs, fun id q hq => ?_⟩) steps).2
  rcases step_rows hs hq with hq | ⟨now, m, -, -, ⟨p, hp, hb⟩ | ⟨-, hb⟩⟩
  · exact hc id q hq
  · exact hb.consistent (hc id p hp)
  · exact hb.consistent

def InStage (e : Engine) (steps : List Step) (id : PermissionId) (stage : ValidationStage) : Prop :=
  ∃ p, (e.run steps).records.get? id = some p ∧ p.state = stage

/-- The request that is pending on a row is a renewal: the row is pending ever since its renewal
was accepted. -/
def AwaitsRenewal (e : Engine) (steps : List Step) (id : PermissionId) : Prop :=
  ∃ earlier now signer, earlier ++ [.deliver now ⟨signer, .renew id⟩] <+: steps ∧
    (e.run earlier).Accepts now ⟨signer, .renew id⟩ ∧
    ∀ between, earlier ++ [.deliver now ⟨signer, .renew id⟩] <+: between → between <+: steps →
      e.InStage between id .pending

theorem started_iff (hs : e.records.Sound) (hz : ∀ id, e.records.get? id = none)
    {steps : List Step} (hp : (e.run steps).records.get? id = some p) :
    p.everValidated = true ↔ ∃ earlier, earlier <+: steps ∧ e.InStage earlier id .validated := by
  constructor
  · refine run_induction (P := fun steps e' => ∀ p, e'.records.get? id = some p →
      p.everValidated = true → ∃ earlier, earlier <+: steps ∧ e.InStage earlier id .validated)
      (fun p hp => by cases (hz id).symm.trans hp) (fun steps s ih q hq hv => ?_) steps p hp
    have hnow : q.state = .validated →
        ∃ earlier, earlier <+: steps ++ [s] ∧ e.InStage earlier id .validated :=
      fun hst => ⟨_, List.prefix_rfl, q, by rw [run_concat]; exact hq, hst⟩
    have hpast : ∀ p, (e.run steps).records.get? id = some p → p.everValidated = true →
        ∃ earlier, earlier <+: steps ++ [s] ∧ e.InStage earlier id .validated := by
      intro p hp hv
      obtain ⟨earlier, hpre, hst⟩ := ih p hp hv
      exact ⟨earlier, hpre.trans (List.prefix_append _ _), hst⟩
    rcases step_rows (run_sound hs steps) hq with hq | ⟨now, m, -, -, ⟨p, hp, hb⟩ | ⟨-, hb⟩⟩
    · exact hpast q hq hv
    · cases hpv : p.everValidated with
      | true => exact hpast p hp hpv
      | false => exact hnow (hb.validated_of_started hpv hv)
    · exact hnow (hb.validated_iff.mpr hv)
  · rintro ⟨earlier, hpre, p₀, hp₀, hst⟩
    have hc := run_consistent hs (consistent_of_empty hz) earlier id p₀ hp₀
    obtain ⟨q, hq, hl⟩ := run_kept hs hpre hp₀
    cases hp.symm.trans hq
    exact hl.everValidated (hc.started (.inl hst))

theorem validated_of_renew {now : Instant} {signer : Address}
    (h : e.Accepts now ⟨signer, .renew id⟩) :
    ∃ p, e.records.get? id = some p ∧ p.state = .validated := by
  obtain ⟨r, e', hd⟩ := accepts_iff.mp h
  cases deliver_ok hd with
  | renew ha =>
    obtain ⟨hp, -, hv⟩ := World.admitRenewal_ok ha
    exact ⟨_, hp, hv⟩

theorem awaitsRenewal_concat {steps : List Step} {s : Step} (hp : e.InStage steps id .pending)
    (hq : e.InStage (steps ++ [s]) id .pending) :
    e.AwaitsRenewal (steps ++ [s]) id ↔ e.AwaitsRenewal steps id := by
  constructor
  · rintro ⟨earlier, now, signer, hpre, ha, hall⟩
    rcases acceptedAfter_concat.mp ⟨hpre, ha⟩ with ⟨hpre, -⟩ | ⟨-, -, ha⟩
    · exact ⟨earlier, now, signer, hpre, ha, fun between h₁ h₂ =>
        hall between h₁ (h₂.trans (List.prefix_append _ _))⟩
    · obtain ⟨p, hp, hst⟩ := hp
      obtain ⟨q, hq, hv⟩ := validated_of_renew ha
      cases hp.symm.trans hq
      simp [hst] at hv
  · rintro ⟨earlier, now, signer, hpre, ha, hall⟩
    refine ⟨earlier, now, signer, hpre.trans (List.prefix_append _ _), ha,
      fun between h₁ h₂ => ?_⟩
    rcases List.prefix_concat_iff.mp h₂ with rfl | h₂
    · exact hq
    · exact hall between h₁ h₂

/-- A pending request is a renewal if the row was validated before. -/
theorem pending_iff (hs : e.records.Sound) (hz : ∀ id, e.records.get? id = none)
    {steps : List Step} (hp : (e.run steps).records.get? id = some p) (hv : p.state = .pending) :
    p.everValidated = true ↔ e.AwaitsRenewal steps id := by
  refine run_induction (P := fun steps e' => ∀ p, e'.records.get? id = some p →
    p.state = .pending → (p.everValidated = true ↔ e.AwaitsRenewal steps id))
    (fun p hp => by cases (hz id).symm.trans hp) (fun steps s ih q hq hv => ?_) steps p hp hv
  have hin : e.InStage (steps ++ [s]) id .pending := ⟨q, by rw [run_concat]; exact hq, hv⟩
  rcases step_rows (run_sound hs steps) hq with hq | ⟨now, m, rfl, ha, ⟨p, hp, hb⟩ | ⟨hn, hb⟩⟩
  · rw [awaitsRenewal_concat ⟨q, hq, hv⟩ hin]
    exact ih q hq hv
  · by_cases hpv : p.state = .pending
    · rw [awaitsRenewal_concat ⟨p, hp, hpv⟩ hin, hb.everValidated_of_pending hv]
      exact ih p hp hpv
    · -- The row was not pending before, so the message is its renewal.
      obtain ⟨signer, rfl, hst⟩ := hb.renews hpv hv
      rw [(run_sound hs steps).id_eq hp] at ha hin ⊢
      have hc := run_consistent hs (consistent_of_empty hz) steps id p hp
      have hstart := hc.started (.inl hst)
      refine iff_of_true ((hb.everValidated_of_pending hv).trans hstart)
        ⟨steps, now, signer, List.prefix_rfl, ha, fun between h₁ h₂ => ?_⟩
      obtain rfl := h₂.eq_of_length_le h₁.length_le
      exact hin
  · -- A row that was just created was never renewed.
    refine iff_of_false (fun h => ?_) ?_
    · simp [hb.validated_iff.mpr h] at hv
    · rintro ⟨earlier, now', signer, hpre, ha', -⟩
      obtain ⟨p, hp, -⟩ := validated_of_renew ha'
      have hle : earlier <+: steps := by
        rcases acceptedAfter_concat.mp ⟨hpre, ha'⟩ with h | ⟨rfl, -, -⟩
        · exact h.before
        · exact List.prefix_rfl
      obtain ⟨q', hq', -⟩ := run_kept hs hle hp
      cases hn.symm.trans hq'

end Engine

/-- A message moves at most the row that it names to another stage, and only along the validation
process. The marks on each row agree with its stage and with the past of the run, and neither the
end of a row nor its revocation is taken back. -/
theorem stages_follow_process {host : Host} {params : Params} {authority : Address} {e : Engine}
    (hn : Engine.new host params authority = .ok e) (steps : List Step) :
    (∀ now m r e', (e.run steps).deliver now m = (.ok r, e') →
      ∀ id p, (e.run steps).records.get? id = some p → ∃ q, e'.records.get? id = some q ∧
        (q.state ≠ p.state → m.action.target? = some id ∧ p.Moves q.state)) ∧
    (∀ id p, (e.run steps).records.get? id = some p →
      (p.state ≠ .pending → p.escrowedFees = 0 ∧ p.escrowedDeposit = 0) ∧
      (p.terminated.isSome ↔ p.state = .terminated) ∧
      (p.state = .validated ∨ p.state = .terminationRequested → p.effectiveFrom.isSome) ∧
      (p.effectiveFrom.isSome ↔
        ∃ earlier, earlier <+: steps ∧ e.InStage earlier id .validated) ∧
      (p.state = .pending → (p.everValidated ↔ e.AwaitsRenewal steps id))) ∧
    (∀ earlier, earlier <+: steps → ∀ id p, (e.run earlier).records.get? id = some p →
      ∃ q, (e.run steps).records.get? id = some q ∧
        (p.state = .terminated → q.state = .terminated) ∧
        ∀ t, p.revoked = some t → q.revoked = some t) := by
  have hs₀ := Engine.new_sound hn
  have hz : ∀ id, e.records.get? id = none := by
    obtain ⟨-, rfl⟩ := Engine.new_eq_ok_iff.mp hn
    exact fun _ => rfl
  have hs := Engine.run_sound hs₀ steps
  have hc := Engine.run_consistent hs₀ (fun id p hp => by cases (hz id).symm.trans hp) steps
  refine ⟨fun now m r e' hd id p hp => ?_, fun id p hp => ?_, fun earlier hpre id p hp => ?_⟩
  · obtain ⟨q, hq, hb⟩ := ((Engine.deliver_ok hd).develops hs).kept hp
    exact ⟨q, hq, fun hne => hs.id_eq hp ▸ hb.moves hne⟩
  · exact ⟨hs.idle hp, (hc id p hp).ended, (hc id p hp).started, Engine.started_iff hs₀ hz hp,
      Engine.pending_iff hs₀ hz hp⟩
  · obtain ⟨q, hq, hl⟩ := Engine.run_kept hs₀ hpre hp
    exact ⟨q, hq, hl.ended, fun _ => hl.revoked⟩

theorem stages_follow_process_renewal :
    ((Sample.engine.run (Sample.founding ++ [Sample.signed Sample.issuer (.renew 3)])).records.get?
        3).map (fun p => (p.state, p.everValidated)) = some (.pending, true) ∧
      Sample.engine.AwaitsRenewal (Sample.founding ++ [Sample.signed Sample.issuer (.renew 3)])
        3 := by
  have h : ((Sample.engine.run (Sample.founding ++
      [Sample.signed Sample.issuer (.renew 3)])).records.get? 3).map
        (fun p => (p.state, p.everValidated)) = some (.pending, true) := by decide +kernel
  refine ⟨h, ?_⟩
  obtain ⟨p, hp, hv⟩ := Option.map_eq_some_iff.mp h
  obtain ⟨hst, hev⟩ := Prod.mk.inj hv
  have hrow := (stages_follow_process Sample.engine_new _).2.1 3 p hp
  exact (hrow.2.2.2.2 hst).mp hev

end TrustPermit
