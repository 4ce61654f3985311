import TrustPermit.Proofs.Refunds

/-! # Repayments and ended permissions

A repayment puts back into the trust deposit what was slashed, so that it can be released with the
rest of the row. What was slashed outlives the deposit of a row, and a repayment does not ask
whether the row has ended: then the trust deposit is credited all the same, and nothing can be
released.
-/

namespace TrustPermit

namespace Permission

variable {r : Records} {m : Message} {now : Instant} {p q : Permission}

theorem Becomes.ends (h : p.Becomes r m now q) (hp : p.state ≠ .terminated)
    (hq : q.state = .terminated) : (∃ signer, m = ⟨signer, .confirmTermination p.id⟩) ∨
      p.everValidated = false ∧ ∃ signer, m = ⟨signer, .cancel p.id⟩ := by
  obtain ⟨signer, action⟩ := m
  cases h with
  | cancelled hm =>
    obtain rfl : action = .cancel p.id := hm
    cases hev : p.everValidated with
    | true =>
      rw [Permission.cancelled, if_pos hev] at hq
      cases hq
    | false => exact .inr ⟨rfl, signer, rfl⟩
  | closed hm =>
    obtain rfl : action = .confirmTermination p.id := hm
    exact .inl ⟨signer, rfl⟩
  | renewing | granted | leaving => cases hq
  | _ => exact absurd hq hp

theorem Created.state_ne_terminated (h : q.Created m now) : q.state ≠ .terminated := by
  cases h <;> exact nofun

theorem unslashed_repaidInFull (p : Permission) (actor : Address) (now : Instant) :
    (p.repaidInFull actor now).unslashed = p.unslashed + p.slashedPart :=
  p.unslashed_add_slashedPart.symm

end Permission

namespace Engine

variable {e e' : Engine} {now : Instant} {signer : Address} {id : PermissionId} {r : Response}
  {p : Permission} {steps : List Step}

/-- The termination of a row was confirmed in the run, or its first request was cancelled. -/
def Ends (e : Engine) (steps : List Step) (id : PermissionId) : Prop :=
  ∃ earlier now signer,
    e.AcceptedAfter steps earlier now ⟨signer, .confirmTermination id⟩ ∨
      e.AcceptedAfter steps earlier now ⟨signer, .cancel id⟩ ∧
        ∃ p, (e.run earlier).records.get? id = some p ∧ p.everValidated = false

theorem Ends.concat (h : e.Ends steps id) (s : Step) : e.Ends (steps ++ [s]) id := by
  obtain ⟨earlier, now, signer, h⟩ := h
  refine ⟨earlier, now, signer, ?_⟩
  simp only [acceptedAfter_concat]
  rcases h with h | ⟨h, hrow⟩
  · exact .inl (.inl h)
  · exact .inr ⟨.inl h, hrow⟩

theorem terminated_of_confirm (hs : e.records.Sound)
    (h : e.Accepts now ⟨signer, .confirmTermination id⟩) :
    ∃ q, (e.step (.deliver now ⟨signer, .confirmTermination id⟩)).records.get? id = some q ∧
      q.state = .terminated := by
  obtain ⟨r, e', hd⟩ := accepts_iff.mp h
  rw [step, hd]
  cases deliver_ok hd with
  | confirmTermination ha =>
    obtain ⟨hp, -, -⟩ := World.admitTermination_eq_ok_iff.mp ha
    obtain rfl := hs.id_eq hp
    exact ⟨_, Records.get?_terminated .., rfl⟩

theorem terminated_of_cancel (hs : e.records.Sound) (hp : e.records.get? id = some p)
    (hev : p.everValidated = false) (h : e.Accepts now ⟨signer, .cancel id⟩) :
    ∃ q, (e.step (.deliver now ⟨signer, .cancel id⟩)).records.get? id = some q ∧
      q.state = .terminated := by
  obtain ⟨r, e', hd⟩ := accepts_iff.mp h
  rw [step, hd]
  refine ⟨p.cancelled signer now, get?_of_cancel hs hp hd, ?_⟩
  rw [Permission.cancelled, hev]
  rfl

theorem terminated_iff (hs : e.records.Sound) (hz : ∀ id, e.records.get? id = none)
    (hp : (e.run steps).records.get? id = some p) : p.state = .terminated ↔ e.Ends steps id := by
  constructor
  · refine run_induction (P := fun steps e' => ∀ p, e'.records.get? id = some p →
      p.state = .terminated → e.Ends steps id)
      (fun p hp => by cases (hz id).symm.trans hp) (fun steps s ih q hq hv => ?_) steps p hp
    rcases step_rows (run_sound hs steps) hq with hq | ⟨now, m, rfl, ha, ⟨p, hp, hb⟩ | ⟨-, hb⟩⟩
    · exact (ih q hq hv).concat s
    · by_cases hpv : p.state = .terminated
      · exact (ih p hp hpv).concat _
      · obtain rfl := (run_sound hs steps).id_eq hp
        rcases hb.ends hpv hv with ⟨signer, rfl⟩ | ⟨hev, signer, rfl⟩
        · exact ⟨steps, now, signer, .inl ⟨List.prefix_rfl, ha⟩⟩
        · exact ⟨steps, now, signer, .inr ⟨⟨List.prefix_rfl, ha⟩, p, hp, hev⟩⟩
    · exact absurd hv hb.state_ne_terminated
  · -- The row was terminated when it was ended, and stays so.
    rintro ⟨earlier, now, signer, h⟩
    have hended : ∃ m q, earlier ++ [.deliver now m] <+: steps ∧
        (e.run (earlier ++ [.deliver now m])).records.get? id = some q ∧
        q.state = .terminated := by
      simp only [run_concat]
      rcases h with ⟨hpre, ha⟩ | ⟨⟨hpre, ha⟩, p₀, hp₀, hev⟩
      · obtain ⟨q, hq, hst⟩ := terminated_of_confirm (run_sound hs earlier) ha
        exact ⟨_, q, hpre, hq, hst⟩
      · obtain ⟨q, hq, hst⟩ := terminated_of_cancel (run_sound hs earlier) hp₀ hev ha
        exact ⟨_, q, hpre, hq, hst⟩
    obtain ⟨m, q, hpre, hq, hst⟩ := hended
    obtain ⟨p', hp', hl⟩ := run_kept hs hpre hq
    cases hp.symm.trans hp'
    exact hl.ended hst

theorem deliver_repay (hs : e.records.Sound)
    (hd : e.deliver now ⟨signer, .repay id⟩ = (.ok r, e')) :
    ∃ p, e.records.get? id = some p ∧ p.slashedDeposit ≠ 0 ∧
      e'.records.get? id = some (p.repaidInFull signer now) ∧
      e'.host.ledger.deposit p.grantee = e.host.ledger.deposit p.grantee + p.slashedDeposit := by
  cases deliver_ok hd with
  | @repay _ _ p ha hb hr =>
    obtain ⟨hp, hn⟩ := admitRepayment_ok ha
    have hid : id = (p.repaidInFull signer now).id := (hs.id_eq hp).symm
    refine ⟨p, hp, hn, ?_, by simp⟩
    rw [records_after, Records.get?_insert, if_pos hid]

/-- Of an ended row neither a cancellation nor a termination releases anything. -/
theorem not_released_of_terminated (hp : e.records.get? id = some p) (hv : p.state = .terminated)
    {m : Message} (h : e.Accepts now m) :
    m.action ≠ .cancel id ∧ m.action ≠ .confirmTermination id := by
  obtain ⟨r, e', hd⟩ := accepts_iff.mp h
  obtain ⟨signer, action⟩ := m
  constructor
  · rintro rfl
    cases deliver_ok hd with
    | cancel ha =>
      obtain ⟨hp', hs⟩ := World.admitCancellation_ok ha
      cases hp.symm.trans hp'
      cases hv.symm.trans hs
  · rintro rfl
    cases deliver_ok hd with
    | confirmTermination ha =>
      obtain ⟨hp', -, hs⟩ := World.admitTermination_eq_ok_iff.mp ha
      cases hp.symm.trans hp'
      cases hv.symm.trans hs

end Engine

/-- A repayment credits all that was slashed, and what can be released of the row grows by as much
as its deposit still holds of it. So the repaid units can be released exactly if the deposit holds
them and the row has not ended. It holds them in every run whose releases spare what was slashed.
Once the row has ended, no message releases its deposit any more. -/
theorem repaid_units_releasable_iff {host : Host} {params : Params} {authority : Address}
    {e : Engine} (hn : Engine.new host params authority = .ok e) (steps : List Step)
    {now : Instant} {payer : Address} {id : PermissionId} {r : Response} {e' : Engine}
    (hd : (e.run steps).deliver now ⟨payer, .repay id⟩ = (.ok r, e')) :
    ∃ p q, (e.run steps).records.get? id = some p ∧ e'.records.get? id = some q ∧
      p.slashedDeposit ≠ 0 ∧ e'.host.ledger.deposit p.grantee =
        (e.run steps).host.ledger.deposit p.grantee + p.slashedDeposit ∧
      q.unslashed = p.unslashed + min p.deposit p.slashedDeposit ∧
      (p.slashedDeposit ≤ q.deposit ∧ q.state ≠ .terminated ↔
        p.slashedDeposit ≤ p.deposit ∧ ¬ e.Ends steps id) ∧
      (e.Along Engine.SparesSlashed steps →
        (p.slashedDeposit ≤ q.deposit ∧ q.state ≠ .terminated ↔ ¬ e.Ends steps id)) ∧
      (e.Ends steps id → ∀ rest later m, (e'.run rest).Accepts later m →
        m.action ≠ .cancel id ∧ m.action ≠ .confirmTermination id) := by
  have hs := Engine.run_sound (Engine.new_sound hn) steps
  obtain ⟨p, hp, hslashed, hq, hcredit⟩ := Engine.deliver_repay hs hd
  have hended := Engine.terminated_iff (Engine.new_sound hn) (Engine.new_get? hn) hp
  have hiff : p.slashedDeposit ≤ (p.repaidInFull payer now).deposit ∧
      (p.repaidInFull payer now).state ≠ .terminated ↔
        p.slashedDeposit ≤ p.deposit ∧ ¬ e.Ends steps id :=
    and_congr_right fun _ => not_congr hended
  refine ⟨p, p.repaidInFull payer now, hp, hq, hslashed, hcredit,
    p.unslashed_repaidInFull payer now, hiff, ?_, ?_⟩
  · intro hspares
    rw [hiff, and_iff_right_iff_imp]
    intro hopen
    have hreleases := hspares.mono (Engine.new_sound hn) (fun _ _ => Engine.step_sound)
      fun _ _ hs => (Engine.releasesUnslashed_iff hs).mpr
    exact Engine.run_keepsSlashed (Engine.new_sound hn) (Engine.new_rows hn) hreleases id p hp
      (mt hended.mp hopen)
  · intro hends rest later m ha
    have hs' : e'.records.Sound := (Engine.deliver_ok hd).sound hs
    obtain ⟨q', hq', hl⟩ := Engine.run_kept hs' (List.prefix_append [] rest) hq
    exact Engine.not_released_of_terminated hq' (hl.ended (hended.mpr hends)) ha

def Sample.indebted : List Step := founding ++ [signed controller (.slash 3 4)]

/-- The debt is repaid while the issuer stays. -/
theorem repaid_units_releasable_iff_indebted :
    Sample.engine.Along Engine.SparesSlashed Sample.indebted ∧
      ∃ r e' p q, (Sample.engine.run Sample.indebted).deliver Sample.noon
          ⟨Sample.grantor, .repay 3⟩ = (.ok r, e') ∧
        (Sample.engine.run Sample.indebted).records.get? 3 = some p ∧
        p.slashedDeposit = 4 ∧ e'.records.get? 3 = some q ∧
        p.slashedDeposit ≤ q.deposit ∧ q.state ≠ .terminated := by
  have hspares : Sample.engine.Along Engine.SparesSlashed Sample.indebted := by decide +kernel
  have ha : (Sample.engine.run Sample.indebted).Accepts Sample.noon
      ⟨Sample.grantor, .repay 3⟩ := by decide +kernel
  have hrow : ((Sample.engine.run Sample.indebted).records.get? 3).map
      (fun p => (p.state, p.slashedDeposit)) = some (.validated, 4) := by decide +kernel
  obtain ⟨r, e', hd⟩ := Engine.accepts_iff.mp ha
  obtain ⟨p, q, hp, hq, -, -, -, -, hiff, -⟩ :=
    repaid_units_releasable_iff Sample.engine_new Sample.indebted hd
  simp only [hp, Option.map_some, Option.some.injEq, Prod.mk.injEq] at hrow
  obtain ⟨hst, hslashed⟩ := hrow
  have hopen : ¬ Sample.engine.Ends Sample.indebted 3 := by
    rw [← Engine.terminated_iff (Engine.new_sound Sample.engine_new)
      (Engine.new_get? Sample.engine_new) hp, hst]
    decide
  exact ⟨hspares, r, e', p, q, hd, hp, hslashed, hq, (hiff hspares).mpr hopen⟩

def Sample.departedDebtor : List Step :=
  indebted ++
    [signed issuer (.requestTermination 3), signed grantor (.confirmTermination 3)]

/-- The repayment is accepted and credits the trust deposit of the issuer, but no row of the issuer
holds a deposit any more. -/
theorem repayment_after_end_is_stranded :
    (Sample.engine.run Sample.departedDebtor).Accepts Sample.noon ⟨Sample.grantor, .repay 3⟩ ∧
      (Sample.engine.run Sample.departedDebtor).host.ledger.deposit Sample.issuer = 0 ∧
      ((Sample.engine.run (Sample.departedDebtor ++
          [Sample.signed Sample.grantor (.repay 3)])).records.ofGrantee Sample.issuer).map
          (fun p => (p.id, p.state, p.deposit, p.repaidDeposit)) = [(3, .terminated, 0, 4)] ∧
      (Sample.engine.run (Sample.departedDebtor ++
        [Sample.signed Sample.grantor (.repay 3)])).host.ledger.deposit Sample.issuer = 4 := by
  decide +kernel

end TrustPermit
