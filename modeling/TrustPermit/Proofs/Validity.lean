import Mathlib.Order.WithBot
import TrustPermit.Proofs.Stages

/-! # Validity

Consents start the validity of a row, set its price and move its end, and extensions move the end
further. Nothing else touches them. The end stays inside the window of the row. It moves forward,
except where a consent sets an end to a row without one, or leaves the end to a first window.
-/

namespace TrustPermit

namespace Instant

instance : LinearOrder Instant where
  le_refl a := le_refl a.rank
  le_trans a b c := le_trans (a := a.rank) (b := b.rank) (c := c.rank)
  lt_iff_le_not_ge a b := lt_iff_le_not_ge (a := a.rank) (b := b.rank)
  le_antisymm _ _ h₁ h₂ := rank_inj.mp (le_antisymm h₁ h₂)
  le_total a b := le_total a.rank b.rank
  toDecidableLE := inferInstance
  toDecidableLT := inferInstance
  toDecidableEq := inferInstance

theorem le_addDays? {t u : Instant} {days : Nat} (h : t.addDays? days = some u) : t ≤ u := by
  unfold addDays? at h
  split at h
  · cases h
    exact le_rfl
  · split at h
    · cases h
      change t.rank ≤ _
      simp only [rank, secondsPerDay, nanosPerSecond]
      omega
    · cases h

/-- When something ends that may never end. -/
def orNever (t : Option Instant) : WithTop Instant := t.elim ⊤ (↑)

variable {t : Option Instant} {u : Instant}

@[simp] theorem orNever_none : orNever none = ⊤ := rfl

@[simp] theorem orNever_some (u : Instant) : orNever (some u) = u := rfl

theorem orNever_le_coe_iff : orNever t ≤ u ↔ ∃ s, t = some s ∧ s ≤ u := by
  cases t <;> simp

theorem orNever_lt_coe_iff : orNever t < u ↔ ∃ s, t = some s ∧ s < u := by
  cases t <;> simp

theorem coe_le_orNever_iff : u ≤ orNever t ↔ ∀ s, t = some s → u ≤ s := by
  cases t <;> simp

end Instant

theorem le_of_validityWindow {base last : Instant} {days : Nat}
    (h : validityWindow base days = .ok (some last)) : base ≤ last := by
  unfold validityWindow at h
  split at h
  · cases h
  · simp only [Guard.exceptMap_eq_ok_iff, Guard.expect_eq_ok_iff, Option.some.injEq] at h
    obtain ⟨_, h, rfl⟩ := h
    exact Instant.le_addDays? h

/-- What consents and extensions decide about a row. -/
structure Tenure where
  start : Option Instant
  finish : Option Instant
  windowEnd : Option Instant
  fees : Fees
  country : Option Country

namespace Tenure

def expiry (t : Tenure) : WithTop Instant := Instant.orNever t.finish

def ceiling (t : Tenure) : WithTop Instant := Instant.orNever t.windowEnd

def InWindow (t : Tenure) : Prop := t.start.isSome = true → t.expiry ≤ t.ceiling

end Tenure

namespace Permission

variable {p q : Permission} {terms : Terms} {windowEnd : Option Instant} {finish now : Instant}
  {u : Unit}

def tenure (p : Permission) : Tenure :=
  ⟨p.effectiveFrom, p.effectiveUntil, p.windowEnd, p.fees, p.country⟩

@[simp] theorem tenure_cancelled (p : Permission) (actor : Address) (now : Instant) :
    (p.cancelled actor now).tenure = p.tenure := by
  unfold cancelled
  split <;> rfl

theorem checkAfter_eq_ok_iff {id : PermissionId} {floor : Option Instant} :
    checkAfter id finish floor = .ok u ↔ ∀ s, floor = some s → s < finish := by
  cases floor <;> simp [checkAfter]

theorem checkInWindow_eq_ok_iff {id : PermissionId} :
    checkInWindow id finish windowEnd = .ok u ↔ finish ≤ Instant.orNever windowEnd := by
  cases windowEnd <;> simp [checkInWindow]

theorem checkFinish_some_eq_ok_iff : p.checkFinish (some finish) windowEnd now = .ok u ↔
    (∀ s, p.finishFloor now = some s → s < finish) ∧ finish ≤ Instant.orNever windowEnd := by
  simp only [checkFinish, Guard.bind_eq_ok_iff, checkAfter_eq_ok_iff, checkInWindow_eq_ok_iff,
    exists_const]

theorem checkForward_eq_ok_iff : p.checkForward finish = .ok u ↔ p.tenure.expiry < finish := by
  simp only [checkForward, Guard.demand_eq_ok_iff, Tenure.expiry, tenure]
  cases p.effectiveUntil <;> simp

theorem checkCeiling_eq_ok_iff : p.checkCeiling finish = .ok u ↔ finish ≤ p.tenure.ceiling := by
  simp only [checkCeiling, Tenure.ceiling, tenure]
  cases p.windowEnd <;> simp

inductive Amends (w : World) (m : Message) (now : Instant) (p : Permission) :
    Permission → Prop where

  | kept {q : Permission} : q.tenure = p.tenure → Amends w m now p q

  | granted {terms : Terms} {windowEnd : Option Instant} {share : Nat} :
      m.action = .validate p.id terms →
      w.admitConsent m.signer p.id terms now = .ok (p, windowEnd) →
      Amends w m now p (p.granted terms windowEnd share now)

  | extendedTo {finish : Instant} : m.action = .extend p.id finish →
      w.admitExtension m.signer p.id finish = .ok p →
      Amends w m now p (p.extendedTo finish m.signer now)

end Permission

namespace World

variable {w : World} {signer : Address} {id : PermissionId} {p : Permission}

theorem admitConsent_terms {terms : Terms} {now : Instant} {windowEnd : Option Instant}
    (h : w.admitConsent signer id terms now = .ok (p, windowEnd)) :
    p.checkKept terms = .ok () ∧ p.checkFinish terms.effectiveUntil windowEnd now = .ok () ∧
      ∃ schema, w.host.schema p.schemaId = .ok schema ∧
        validityWindow (p.windowBase now) (schema.periodOf p.kind) = .ok windowEnd := by
  simp only [admitConsent, Guard.bind_eq_ok_iff, Guard.pure_eq_ok_iff, Prod.mk.injEq] at h
  obtain ⟨_, -, _, -, _, hk, _, -, schema, hs, _, hw, _, hf, rfl, rfl⟩ := h
  exact ⟨hk, hf, schema, hs, hw⟩

theorem admitExtension_finish {finish : Instant}
    (h : w.admitExtension signer id finish = .ok p) :
    p.tenure.expiry < finish ∧ finish ≤ p.tenure.ceiling := by
  obtain ⟨-, -, -, -, hf, hc⟩ := admitExtension_eq_ok_iff.mp h
  exact ⟨Permission.checkForward_eq_ok_iff.mp hf, Permission.checkCeiling_eq_ok_iff.mp hc⟩

end World

namespace Outcome

variable {e e' : Engine} {now : Instant} {m : Message} {r : Response} {signer : Address}
  {id : PermissionId} {p : Permission}

theorem granted {terms : Terms} (hs : e.records.Sound)
    (h : Outcome e now ⟨signer, .validate id terms⟩ r e') (hp : e.records.get? id = some p) :
    ∃ windowEnd share, e.admitConsent signer id terms now = .ok (p, windowEnd) ∧
      e'.records.get? id = some (p.granted terms windowEnd share now) := by
  obtain rfl := hs.id_eq hp
  cases h with
  | consent ha =>
    obtain ⟨hp', -⟩ := World.admitConsent_ok ha
    cases hp.symm.trans hp'
    exact ⟨_, 0, ha, by simp [Permission.granted, Permission.enter]⟩
  | @paidConsent _ _ _ _ _ _ _ line ha =>
    obtain ⟨hp', -⟩ := World.admitConsent_ok ha
    cases hp.symm.trans hp'
    exact ⟨_, line.split.share, ha, by simp [Permission.granted, Permission.enter]⟩

theorem extended {finish : Instant} (h : Outcome e now ⟨signer, .extend id finish⟩ r e')
    (hp : e.records.get? id = some p) : e.admitExtension signer id finish = .ok p := by
  cases h with
  | extend ha =>
    obtain ⟨hp', -⟩ := World.admitExtension_ok ha
    cases hp.symm.trans hp'
    exact ha

theorem amends (hs : e.records.Sound) (h : Outcome e now m r e')
    (hp : e.records.get? id = some p) :
    ∃ q, e'.records.get? id = some q ∧ p.Amends e.toWorld m now q := by
  obtain ⟨q, hq, hb⟩ := (h.develops hs).kept hp
  refine ⟨q, hq, ?_⟩
  obtain rfl := hs.id_eq hp
  obtain ⟨signer, action⟩ := m
  cases hb with
  | granted hm =>
    cases hm
    obtain ⟨windowEnd, share, ha, hq'⟩ := h.granted hs hp
    rw [Option.some.inj (hq.symm.trans hq')]
    exact .granted rfl ha
  | extendedTo hm =>
    cases hm
    exact .extendedTo rfl (h.extended hp)
  | cancelled => exact .kept (p.tenure_cancelled signer now)
  | _ => exact .kept rfl

end Outcome

def Engine.InWindow (e : Engine) : Prop :=
  ∀ id p, e.records.get? id = some p → p.tenure.InWindow

namespace Permission

variable {w : World} {m : Message} {now : Instant} {p q : Permission}

theorem inWindow_granted {terms : Terms} {windowEnd : Option Instant}
    (h : p.checkFinish terms.effectiveUntil windowEnd now = .ok ()) (share : Nat) :
    (p.granted terms windowEnd share now).tenure.InWindow := by
  intro _
  change Instant.orNever (terms.effectiveUntil.or windowEnd) ≤ Instant.orNever windowEnd
  cases hf : terms.effectiveUntil with
  | none => exact le_rfl
  | some finish =>
    rw [hf, checkFinish_some_eq_ok_iff] at h
    exact h.2

theorem Amends.inWindow (h : p.Amends w m now q) (hp : p.tenure.InWindow) :
    q.tenure.InWindow := by
  cases h with
  | kept ht => rwa [ht]
  | granted _ ha =>
    obtain ⟨-, hf, -⟩ := World.admitConsent_terms ha
    exact inWindow_granted hf _
  | extendedTo _ ha =>
    exact fun _ => (World.admitExtension_finish ha).2

theorem Created.inWindow (h : q.Created m now) : q.tenure.InWindow := by
  cases h with
  | applied => exact nofun
  | root => exact fun _ => le_top
  | selfGranted => exact fun _ => le_top

end Permission

theorem Outcome.inWindow {e e' : Engine} {now : Instant} {m : Message} {r : Response}
    (hs : e.records.Sound) (hw : e.InWindow) (h : Outcome e now m r e') : e'.InWindow := by
  intro id q hq
  cases hp : e.records.get? id with
  | none => exact ((h.develops hs).fresh hq hp).inWindow
  | some p =>
    obtain ⟨q', hq', ha⟩ := h.amends hs hp
    cases hq.symm.trans hq'
    exact ha.inWindow (hw id p hp)

namespace Engine

variable {host : Host} {params : Params} {authority signer : Address} {e : Engine}
  {id : PermissionId} {p : Permission}

theorem run_inWindow (hn : new host params authority = .ok e) (steps : List Step) :
    (e.run steps).InWindow :=
  (run_invariant (P := fun e => e.records.Sound ∧ e.InWindow) ⟨new_sound hn, new_rows hn⟩
    (step_invariant (fun ⟨hs, hw⟩ h => ⟨h.sound hs, h.inWindow hs hw⟩) fun _ h => h) steps).2

/-- The authority over a row in force extends it exactly to the ends after the one it has and
inside the window. -/
theorem accepts_extend_iff (hs : e.records.Sound) (hp : e.records.get? id = some p)
    (hv : p.state = .validated) (hr : p.revoked = none) (ha : e.authorityOver p = .ok signer)
    (now finish : Instant) : e.Accepts now ⟨signer, .extend id finish⟩ ↔
      p.tenure.expiry < finish ∧ finish ≤ p.tenure.ceiling := by
  constructor
  · intro hacc
    obtain ⟨r, e', hd⟩ := accepts_iff.mp hacc
    exact World.admitExtension_finish ((deliver_ok hd).extended hp)
  · rintro ⟨hf, hc⟩
    have hcheck : Message.check ⟨signer, .extend id finish⟩ = .ok () := by
      simp [Message.check, Message.requireGiven, hs.id_ne_zero hp]
    have hadm := World.admitExtension_eq_ok_iff.mpr ⟨hp, ha, hv, hr,
      Permission.checkForward_eq_ok_iff.mpr hf, Permission.checkCeiling_eq_ok_iff.mpr hc⟩
    exact accepts_iff.mpr ⟨.empty, _, deliver_eq_ok_iff.mpr ⟨hcheck,
      Transaction.extend_eq_ok_iff.mpr ⟨p, hadm, rfl, rfl⟩⟩⟩

end Engine

/-- After every run, whatever the periods of the schemas were in it, the validity of each row that
was validated ends inside its window. A row in force is extended by its authority exactly to an
end that is later than its own and lies inside its window, so never if it has no end. -/
theorem validity_stays_in_window {host : Host} {params : Params} {authority : Address} {e : Engine}
    (hn : Engine.new host params authority = .ok e) (steps : List Step) :
    (∀ id p, (e.run steps).records.get? id = some p → p.effectiveFrom.isSome = true →
      ∀ last, p.windowEnd = some last → ∃ finish, p.effectiveUntil = some finish ∧ finish ≤ last) ∧
    ∀ id p signer, (e.run steps).records.get? id = some p → p.state = .validated →
      p.revoked = none → (e.run steps).authorityOver p = .ok signer → ∀ now finish,
        ((e.run steps).Accepts now ⟨signer, .extend id finish⟩ ↔
          (∃ current, p.effectiveUntil = some current ∧ current < finish) ∧
            ∀ last, p.windowEnd = some last → finish ≤ last) := by
  constructor
  · intro id p hp hv last hw
    have hin := Engine.run_inWindow hn steps id p hp hv
    rw [Tenure.ceiling, Permission.tenure, hw] at hin
    exact Instant.orNever_le_coe_iff.mp hin
  · intro id p signer hp hv hr ha now finish
    rw [Engine.accepts_extend_iff (Engine.run_sound (Engine.new_sound hn) steps) hp hv hr ha]
    exact and_congr Instant.orNever_lt_coe_iff Instant.coe_le_orNever_iff

namespace Sample

def inDays (days : Nat) : Instant := (noon.addDays? days).getD noon

def eve : Instant := ⟨1699913600, 0, by decide, by decide⟩

def openSchema : CredentialSchema :=
  { schema with
    issuerMode := .selfCreation
    periods := { schema.periods with issuer := 30 } }

def openHost : Host := { host with schemas := .ofList [(1, openSchema)] }

def openEngine : Engine := ⟨⟨.empty, openHost⟩, .standard, governor, []⟩

/-- An issuer asks for the renewal of two permissions. The first has no end, the second ends in 60
days. -/
def renewals : List Step :=
  [signed controller (.createRoot ⟨1, did, none, none, none, {}⟩),
    signed issuer (.create ⟨1, .issuer, did, none, none, none, 0⟩),
    signed issuer (.create ⟨1, .issuer, did, none, none, some (inDays 60), 0⟩),
    signed issuer (.renew 2),
    signed issuer (.renew 3)]

def termsUntil (finish : Instant) : Terms := { terms 0 0 with effectiveUntil := some finish }

def renewed : List Step :=
  renewals ++ [signed controller (.validate 2 (termsUntil (inDays 10)))]

def renewedTwice : List Step := renewed ++ [signed issuer (.renew 2)]

theorem openEngine_new : Engine.new openHost .standard governor = .ok openEngine := rfl

end Sample

/-- Of a window of 30 days the consent grants 10, and an extension may add 10 more. -/
theorem validity_stays_in_window_renewals :
    ∃ p, (Sample.openEngine.run Sample.renewed).records.get? 2 = some p ∧
      p.effectiveFrom.isSome = true ∧ p.windowEnd = some (Sample.inDays 30) ∧
      (∃ finish, p.effectiveUntil = some finish ∧ finish ≤ Sample.inDays 30) ∧
      (Sample.openEngine.run Sample.renewed).Accepts Sample.noon
        ⟨Sample.controller, .extend 2 (Sample.inDays 20)⟩ := by
  have hrow : ((Sample.openEngine.run Sample.renewed).records.get? 2).map
      (fun p => (p.state, p.revoked, p.validator)) = some (.validated, none, some 1) := by
    decide +kernel
  have hdates : ((Sample.openEngine.run Sample.renewed).records.get? 2).map
      (fun p => (p.effectiveFrom, p.effectiveUntil, p.windowEnd)) =
        some (some Sample.noon, some (Sample.inDays 10), some (Sample.inDays 30)) := by
    decide +kernel
  have hroot : ((Sample.openEngine.run Sample.renewed).records.get? 1).map (·.grantee) =
      some Sample.controller := by decide +kernel
  obtain ⟨p, hp, hp'⟩ := Option.map_eq_some_iff.mp hrow
  rw [hp, Option.map_some, Option.some.injEq] at hdates
  simp only [Prod.mk.injEq] at hp' hdates
  obtain ⟨hv, hr, hval⟩ := hp'
  obtain ⟨hstart, hfinish, hwindow⟩ := hdates
  obtain ⟨hin, hext⟩ := validity_stays_in_window Sample.openEngine_new Sample.renewed
  have hstarted : p.effectiveFrom.isSome = true := by rw [hstart]; rfl
  have ha : (Sample.openEngine.run Sample.renewed).authorityOver p = .ok Sample.controller := by
    obtain ⟨q, hq, hq'⟩ := Option.map_eq_some_iff.mp hroot
    exact (World.authorityOver_validated_iff hval).mpr ⟨q, hq, hq'⟩
  refine ⟨p, hp, hstarted, hwindow, hin 2 p hp hstarted _ hwindow, ?_⟩
  refine (hext 2 p _ hp hv hr ha _ _).mpr ⟨⟨_, hfinish, by decide +kernel⟩, fun last hl => ?_⟩
  rw [← Option.some.inj (hwindow.symm.trans hl)]
  decide +kernel

/-- The terms of a consent move the end of a row back: they set an end where there was none, or
they leave the end to a first window that is shorter. -/
inductive World.Curtails (w : World) (now : Instant) (p : Permission) (terms : Terms) : Prop where

  | endless {finish : Instant} : p.effectiveUntil = none → terms.effectiveUntil = some finish →
      Curtails w now p terms

  | firstWindow {schema : CredentialSchema} {last : Instant} :
      p.windowEnd = none → terms.effectiveUntil = none →
      w.host.schema p.schemaId = .ok schema →
      validityWindow now (schema.periodOf p.kind) = .ok (some last) → last < p.tenure.expiry →
      Curtails w now p terms

namespace Permission

variable {w : World} {signer : Address} {now last : Instant} {p : Permission} {terms : Terms}
  {windowEnd : Option Instant}

theorem expiry_granted (share : Nat) : (p.granted terms windowEnd share now).tenure.expiry =
    Instant.orNever (terms.effectiveUntil.or windowEnd) := rfl

theorem windowBase_of_none (hw : p.windowEnd = none) (now : Instant) : p.windowBase now = now := by
  simp [windowBase, hw]

theorem expiry_le_window {days : Nat} (hv : p.everValidated = true) (hin : p.tenure.InWindow)
    (hw : p.windowEnd ≠ none) (h : validityWindow (p.windowBase now) days = .ok (some last)) :
    p.tenure.expiry ≤ last := by
  obtain ⟨first, hfirst⟩ := Option.ne_none_iff_exists'.mp hw
  have hle : p.tenure.expiry ≤ first := by
    have hceiling := hin hv
    rwa [Tenure.ceiling, tenure, hfirst] at hceiling
  rw [windowBase, if_pos hv, hfirst] at h
  exact hle.trans (WithTop.coe_le_coe.mpr (le_of_validityWindow h))

theorem granted_expiry_lt (ha : w.admitConsent signer p.id terms now = .ok (p, windowEnd))
    (hc : w.Curtails now p terms) (share : Nat) :
    (p.granted terms windowEnd share now).tenure.expiry < p.tenure.expiry := by
  rw [expiry_granted]
  cases hc with
  | endless hu ht =>
    rw [ht, Tenure.expiry, tenure, hu]
    exact WithTop.coe_lt_top _
  | firstWindow hw ht hs hwin hlt =>
    obtain ⟨-, -, schema, hs', hwin'⟩ := World.admitConsent_terms ha
    cases hs.symm.trans hs'
    rw [windowBase_of_none hw] at hwin'
    cases hwin.symm.trans hwin'
    rw [ht]
    exact hlt

theorem expiry_le_granted (ha : w.admitConsent signer p.id terms now = .ok (p, windowEnd))
    (hv : p.everValidated = true) (hin : p.tenure.InWindow) (hc : ¬ w.Curtails now p terms)
    (share : Nat) : p.tenure.expiry ≤ (p.granted terms windowEnd share now).tenure.expiry := by
  obtain ⟨-, hf, schema, hs, hwin⟩ := World.admitConsent_terms ha
  rw [expiry_granted]
  cases ht : terms.effectiveUntil with
  | some finish =>
    rw [ht, checkFinish_some_eq_ok_iff, finishFloor, if_pos hv] at hf
    cases hu : p.effectiveUntil with
    | none => exact absurd (.endless hu ht) hc
    | some s =>
      rw [Tenure.expiry, tenure, hu]
      exact WithTop.coe_le_coe.mpr (hf.1 s hu).le
  | none =>
    cases windowEnd with
    | none => exact le_top
    | some last =>
      by_cases hw : p.windowEnd = none
      · by_contra hlt
        rw [windowBase_of_none hw] at hwin
        exact hc (.firstWindow hw ht hs hwin (not_le.mp hlt))
      · exact expiry_le_window hv hin hw hwin

/-- A consent to a renewal that is admitted moves the end forward, unless it curtails the row. -/
theorem expiry_le_granted_iff (ha : w.admitConsent signer p.id terms now = .ok (p, windowEnd))
    (hv : p.everValidated = true) (hin : p.tenure.InWindow) (share : Nat) :
    p.tenure.expiry ≤ (p.granted terms windowEnd share now).tenure.expiry ↔
      ¬ w.Curtails now p terms := by
  constructor
  · intro hle hc
    exact (granted_expiry_lt ha hc share).not_ge hle
  · intro hc
    exact expiry_le_granted ha hv hin hc share

end Permission

/-- After every run, a message that succeeds moves the end of every row that was validated forward,
except exactly where a consent to a renewal curtails it. -/
theorem validity_moves_forward_iff {host : Host} {params : Params} {authority : Address}
    {e e' : Engine} (hn : Engine.new host params authority = .ok e) (steps : List Step)
    {now : Instant} {m : Message} {r : Response} {id : PermissionId} {p : Permission}
    (hd : (e.run steps).deliver now m = (.ok r, e'))
    (hp : (e.run steps).records.get? id = some p) (hv : p.effectiveFrom.isSome = true) :
    ∃ q, e'.records.get? id = some q ∧
      (p.tenure.expiry ≤ q.tenure.expiry ↔
        ∀ terms, m.action = .validate id terms → ¬ (e.run steps).Curtails now p terms) := by
  have hs := Engine.run_sound (Engine.new_sound hn) steps
  have hw := Engine.run_inWindow hn steps id p hp
  have h := Engine.deliver_ok hd
  obtain rfl := hs.id_eq hp
  by_cases hm : ∃ terms, m.action = .validate p.id terms
  · obtain ⟨signer, action⟩ := m
    obtain ⟨terms, rfl⟩ := hm
    obtain ⟨windowEnd, share, ha, hq⟩ := h.granted hs hp
    refine ⟨_, hq, (Permission.expiry_le_granted_iff ha hv hw share).trans ?_⟩
    constructor
    · rintro hc _ ⟨⟩
      exact hc
    · intro hc
      exact hc terms rfl
  · obtain ⟨q, hq, ha⟩ := h.amends hs hp
    refine ⟨q, hq, iff_of_true ?_ fun terms ht => absurd ⟨terms, ht⟩ hm⟩
    cases ha with
    | kept ht => rw [ht]
    | granted he _ => exact absurd ⟨_, he⟩ hm
    | extendedTo _ ha => exact (World.admitExtension_finish ha).1.le

/-- A second renewal, with a window of 30 more days, curtails nothing. -/
theorem validity_moves_forward_iff_renewed :
    ∃ p q, (Sample.openEngine.run Sample.renewedTwice).records.get? 2 = some p ∧
      p.effectiveFrom.isSome = true ∧
      ((Sample.openEngine.run Sample.renewedTwice).deliver Sample.noon
        ⟨Sample.controller, .validate 2 (Sample.terms 0 0)⟩).2.records.get? 2 = some q ∧
      p.tenure.expiry ≤ q.tenure.expiry := by
  have hacc : (Sample.openEngine.run Sample.renewedTwice).Accepts Sample.noon
      ⟨Sample.controller, .validate 2 (Sample.terms 0 0)⟩ := by decide +kernel
  have hdates : ((Sample.openEngine.run Sample.renewedTwice).records.get? 2).map
      (fun p => (p.effectiveFrom, p.windowEnd)) =
        some (some Sample.noon, some (Sample.inDays 30)) := by decide +kernel
  obtain ⟨p, hp, hp'⟩ := Option.map_eq_some_iff.mp hdates
  obtain ⟨hstart, hwindow⟩ := Prod.mk.inj hp'
  have hstarted : p.effectiveFrom.isSome = true := by rw [hstart]; rfl
  obtain ⟨r, e', hd⟩ := Engine.accepts_iff.mp hacc
  obtain ⟨q, hq, hiff⟩ :=
    validity_moves_forward_iff Sample.openEngine_new Sample.renewedTwice hd hp hstarted
  refine ⟨p, q, hp, hstarted, by rw [hd, hq], hiff.mpr ?_⟩
  rintro _ ⟨⟩ (⟨-, hf⟩ | ⟨hw, -⟩)
  · cases hf
  · cases hwindow.symm.trans hw

/-- Schemas stay as they are, and yet the controller's consents move two ends back: a permission
that never ended ends before it began, and one that ended in 60 days ends in 30. -/
theorem renewals_move_validity_back :
    Engine.new Sample.openHost .standard Sample.governor = .ok Sample.openEngine ∧
      ((Sample.openEngine.run Sample.renewals).records.get? 2).map
          (fun p => (p.effectiveFrom, p.effectiveUntil)) = some (some Sample.noon, none) ∧
      (Sample.openEngine.run Sample.renewals).Accepts Sample.noon
        ⟨Sample.controller, .validate 2 (Sample.termsUntil Sample.eve)⟩ ∧
      (((Sample.openEngine.run Sample.renewals).deliver Sample.noon
          ⟨Sample.controller, .validate 2 (Sample.termsUntil Sample.eve)⟩).2.records.get? 2).map
          (fun p => (p.effectiveFrom, p.effectiveUntil)) =
        some (some Sample.noon, some Sample.eve) ∧
      Sample.eve < Sample.noon ∧
      ((Sample.openEngine.run Sample.renewals).records.get? 3).map
          (fun p => (p.effectiveFrom, p.effectiveUntil)) =
        some (some Sample.noon, some (Sample.inDays 60)) ∧
      (Sample.openEngine.run Sample.renewals).Accepts Sample.noon
        ⟨Sample.controller, .validate 3 (Sample.terms 0 0)⟩ ∧
      (((Sample.openEngine.run Sample.renewals).deliver Sample.noon
          ⟨Sample.controller, .validate 3 (Sample.terms 0 0)⟩).2.records.get? 3).map
          (fun p => (p.effectiveFrom, p.effectiveUntil)) =
        some (some Sample.noon, some (Sample.inDays 30)) ∧
      Sample.inDays 30 < Sample.inDays 60 := by
  refine ⟨Sample.openEngine_new, ?_⟩
  decide +kernel

end TrustPermit
