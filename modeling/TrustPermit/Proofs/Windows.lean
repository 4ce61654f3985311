import TrustPermit.Proofs.Countries
import TrustPermit.Proofs.Entitlement
import TrustPermit.Proofs.Instants

/-! # Windows

The window of a row that was applied for begins anew with the first consent, and every consent
after it adds one period to the end of the window, whenever it is given. So the end of the window
tells the number of consents. The end of validity is what the last consent or extension made it.
-/

namespace TrustPermit

namespace Instant

variable {t u v : Instant} {m n : Nat}

/-- The clock shows the same as at `t`, on the date that is `days` days later. -/
structure DaysAfter (t : Instant) (days : Nat) (u : Instant) : Prop where
  date : u.date.dayNumber = t.date.dayNumber + days
  clock : u.clockTime = t.clockTime

theorem seconds_of_addDays? (h : t.addDays? n = some u) :
    u.seconds = t.seconds + secondsPerDay * n ∧ u.nanos = t.nanos := by
  unfold addDays? at h
  split at h
  · rename_i hn
    cases h
    exact ⟨by simp [hn], rfl⟩
  · split at h
    · cases h
      exact ⟨rfl, rfl⟩
    · cases h

theorem daysAfter_of_addDays? (h : t.addDays? n = some u) : t.DaysAfter n u := by
  obtain ⟨hsec, hnanos⟩ := seconds_of_addDays? h
  constructor
  · simp only [Instant.date, Date.dayNumber_ofDayNumber, hsec, secondsPerDay]
    omega
  · have hday : u.seconds % secondsPerDay = t.seconds % secondsPerDay := by
      rw [hsec, Int.add_mul_emod_self_left]
    simp [clockTime, isLeap, hday, hnanos]

theorem addDays?_add (hu : t.addDays? m = some u) (hv : u.addDays? n = some v) :
    t.addDays? (m + n) = some v := by
  obtain ⟨hsec, hnanos⟩ := seconds_of_addDays? hu
  rcases Nat.eq_zero_or_pos n with rfl | hn
  · rw [← hv, Nat.add_zero, hu]
    exact (if_pos rfl).symm
  · have hsum : u.seconds + secondsPerDay * n = t.seconds + secondsPerDay * (m + n : Nat) := by
      simp only [hsec, secondsPerDay]
      omega
    simp only [addDays?, if_neg hn.ne', hsum, hnanos] at hv
    rw [addDays?, if_neg (by omega), hv]

end Instant

theorem validityWindow_eq_ok_iff {base : Instant} {days : Nat} {windowEnd : Option Instant} :
    validityWindow base days = .ok windowEnd ↔ days = 0 ∧ windowEnd = none ∨
      days ≠ 0 ∧ ∃ last, base.addDays? days = some last ∧ windowEnd = some last := by
  unfold validityWindow
  split
  · simp [*, eq_comm]
  · simp only [Guard.exceptMap_eq_ok_iff, Guard.expect_eq_ok_iff]
    simp [*, eq_comm]

theorem eq_none_of_validityWindow {base : Instant} {days : Nat} {windowEnd : Option Instant}
    (hz : days = 0) (h : validityWindow base days = .ok windowEnd) : windowEnd = none := by
  rcases validityWindow_eq_ok_iff.mp h with ⟨-, hnone⟩ | ⟨hn, -⟩
  · exact hnone
  · exact absurd hz hn

theorem validityWindow_succ {base now : Instant} {n period : Nat} {current next : Option Instant}
    (hn : n ≠ 0) (hc : validityWindow base (n * period) = .ok current)
    (hx : validityWindow (current.getD now) period = .ok next) :
    validityWindow base ((n + 1) * period) = .ok next := by
  rcases validityWindow_eq_ok_iff.mp hx with ⟨rfl, rfl⟩ | ⟨hp, last, hlast, rfl⟩
  · rfl
  · rcases validityWindow_eq_ok_iff.mp hc with ⟨hz, -⟩ | ⟨-, first, hfirst, rfl⟩
    · exact absurd hz (Nat.mul_ne_zero hn hp)
    · refine validityWindow_eq_ok_iff.mpr (.inr ⟨Nat.mul_ne_zero n.succ_ne_zero hp, last, ?_, rfl⟩)
      rw [Nat.succ_mul]
      exact Instant.addDays?_add hfirst hlast

/-- What sets the end of validity of a row: a consent or an extension. -/
inductive Decision where
  | consent (now : Instant) (terms : Terms)
  | extension (finish : Instant)
  deriving DecidableEq

namespace Decision

def consentTime? : Decision → Option Instant
  | consent now _ => some now
  | extension _ => none

def consentTimes (ds : List Decision) : List Instant := ds.filterMap (·.consentTime?)

theorem consentTimes_concat_consent (ds : List Decision) (now : Instant) (terms : Terms) :
    consentTimes (ds ++ [.consent now terms]) = consentTimes ds ++ [now] := by
  simp [consentTimes, consentTime?]

theorem consentTimes_concat_extension (ds : List Decision) (finish : Instant) :
    consentTimes (ds ++ [.extension finish]) = consentTimes ds := by
  simp [consentTimes, consentTime?]

def finish (windowEnd : Option Instant) : Decision → Option Instant
  | consent _ terms => terms.effectiveUntil.or windowEnd
  | extension finish => some finish

end Decision

def Action.decision? (id : PermissionId) (now : Instant) : Action → Option Decision
  | validate row terms => if row = id then some (.consent now terms) else none
  | extend row finish => if row = id then some (.extension finish) else none
  | _ => none

namespace Action

variable {id : PermissionId} {now : Instant} {a : Action} {d : Decision}

theorem decision?_eq_some_iff : a.decision? id now = some d ↔
    (∃ terms, a = .validate id terms ∧ d = .consent now terms) ∨
      ∃ finish, a = .extend id finish ∧ d = .extension finish := by
  cases a <;> simp [decision?, eq_comm (a := d), and_assoc]

theorem target?_of_decision? (h : a.decision? id now = some d) :
    a.target? = some id ∧ a ≠ .repay id := by
  rcases decision?_eq_some_iff.mp h with ⟨_, rfl, -⟩ | ⟨_, rfl, -⟩ <;> simp [target?]

end Action

namespace Engine

def decision? (e : Engine) (id : PermissionId) : Step → Option Decision
  | .deliver now m => if e.Accepts now m then m.action.decision? id now else none
  | .surround _ => none

def decisions (e : Engine) (id : PermissionId) : List Step → List Decision
  | [] => []
  | s :: rest => (e.decision? id s).toList ++ (e.step s).decisions id rest

variable {e : Engine} {id : PermissionId}

theorem decisions_concat (e : Engine) (id : PermissionId) (steps : List Step) (s : Step) :
    e.decisions id (steps ++ [s]) =
      e.decisions id steps ++ ((e.run steps).decision? id s).toList := by
  induction steps generalizing e with
  | nil => simp [decisions, run]
  | cons s' rest ih => simp [decisions, ih, run]

theorem decision?_eq_none (hn : e.records.get? id = none) (s : Step) :
    e.decision? id s = none := by
  cases s with
  | surround host => rfl
  | deliver now m =>
    rw [decision?]
    split
    · rename_i hacc
      obtain ⟨r, e', hd⟩ := accepts_iff.mp hacc
      by_contra hdec
      obtain ⟨d, hdec⟩ := Option.ne_none_iff_exists'.mp hdec
      obtain ⟨ht, hne⟩ := Action.target?_of_decision? hdec
      rcases (deliver_ok hd).entitled ht with hr | ⟨p, hp, -⟩
      · exact hne hr
      · cases hn.symm.trans hp
    · rfl

theorem decisions_eq_nil (hs : e.records.Sound) {steps : List Step}
    (hn : (e.run steps).records.get? id = none) : e.decisions id steps = [] := by
  induction steps using List.reverseRecOn with
  | nil => rfl
  | append_singleton steps s ih =>
    have hbefore : (e.run steps).records.get? id = none := by
      by_contra hp
      obtain ⟨p, hp⟩ := Option.ne_none_iff_exists'.mp hp
      obtain ⟨q, hq, -⟩ := run_kept hs (List.prefix_append steps [s]) hp
      cases hn.symm.trans hq
    rw [decisions_concat, ih hbefore, decision?_eq_none hbefore]
    rfl

end Engine

/-- A tenure is what a list of decisions made of it. With the `n`-th consent the window ends `n`
periods after the first one. -/
structure Tenure.Follows (t : Tenure) (period : Nat) (ds : List Decision) : Prop where
  started : t.start.isSome = true ↔ Decision.consentTimes ds ≠ []
  windowless : period = 0 → t.windowEnd = none
  window {first later} : Decision.consentTimes ds = first :: later →
    validityWindow first ((later.length + 1) * period) = .ok t.windowEnd
  finish {d} : ds.getLast? = some d → t.finish = d.finish t.windowEnd

namespace Permission

variable {p : Permission} {period : Nat} {ds : List Decision} {now finish : Instant}
  {windowEnd : Option Instant}

theorem follows_applied {id : PermissionId} {applicant : Address} {a : Application}
    {schemaId fee deposit : Nat} (hw : validityWindow now period = .ok windowEnd) :
    (applied id applicant a schemaId fee deposit windowEnd now).tenure.Follows period [] where
  started := iff_of_false nofun (not_not.mpr rfl)
  windowless hz := eq_none_of_validityWindow hz hw
  window := nofun
  finish := nofun

theorem follows_granted (h : p.tenure.Follows period ds) {terms : Terms}
    (hw : validityWindow (p.windowBase now) period = .ok windowEnd) (share : Nat) :
    (p.granted terms windowEnd share now).tenure.Follows period (ds ++ [.consent now terms]) where
  started := by
    rw [Decision.consentTimes_concat_consent]
    exact iff_of_true (p.everValidated_granted terms windowEnd share now)
      (List.concat_ne_nil _ _)
  windowless hz := eq_none_of_validityWindow hz hw
  window {first later} hc := by
    change validityWindow first _ = .ok windowEnd
    have hv : p.everValidated = true ↔ Decision.consentTimes ds ≠ [] := h.started
    rw [windowBase] at hw
    rw [Decision.consentTimes_concat_consent] at hc
    cases ht : Decision.consentTimes ds with
    | nil =>
      rw [if_neg fun hp => hv.mp hp ht] at hw
      rw [ht] at hc
      cases hc
      simpa using hw
    | cons first' earlier =>
      rw [if_pos (hv.mpr (by simp [ht]))] at hw
      rw [ht, List.cons_append] at hc
      obtain ⟨rfl, rfl⟩ := List.cons.inj hc
      rw [List.length_append]
      exact validityWindow_succ (Nat.succ_ne_zero _) (h.window ht) hw
  finish hd := by
    rw [List.getLast?_concat] at hd
    cases hd
    rfl

theorem follows_extendedTo (h : p.tenure.Follows period ds) (actor : Address) :
    (p.extendedTo finish actor now).tenure.Follows period (ds ++ [.extension finish]) where
  started := by
    rw [Decision.consentTimes_concat_extension]
    exact h.started
  windowless := h.windowless
  window hc := by
    rw [Decision.consentTimes_concat_extension] at hc
    exact h.window hc
  finish hd := by
    rw [List.getLast?_concat] at hd
    cases hd
    rfl

end Permission

theorem Outcome.get?_extended {e e' : Engine} {now finish : Instant} {signer : Address}
    {r : Response} (hs : e.records.Sound) {id : PermissionId} {p : Permission}
    (h : Outcome e now ⟨signer, .extend id finish⟩ r e') (hp : e.records.get? id = some p) :
    e'.records.get? id = some (p.extendedTo finish signer now) := by
  cases h with
  | extend ha =>
    obtain ⟨hp', -⟩ := World.admitExtension_ok ha
    cases hp.symm.trans hp'
    rw [Engine.records_after, Records.get?_insert]
    exact if_pos (hs.id_eq hp).symm

/-- A message makes of a row what it decides about it. -/
theorem Outcome.follows {e e' : Engine} {now : Instant} {m : Message} {r : Response}
    (hs : e.records.Sound) (h : Outcome e now m r e') {id : PermissionId} {p : Permission}
    (hp : e.records.get? id = some p) {schema : CredentialSchema}
    (hsc : e.host.schemas.get? p.schemaId = some schema) {ds : List Decision}
    (hf : p.tenure.Follows (schema.periodOf p.kind) ds) :
    ∃ q, e'.records.get? id = some q ∧ p.SameOrigin q ∧
      q.tenure.Follows (schema.periodOf p.kind) (ds ++ (m.action.decision? id now).toList) := by
  obtain ⟨q, hq, hb⟩ := (h.develops hs).kept hp
  refine ⟨q, hq, hb.sameOrigin, ?_⟩
  obtain rfl := hs.id_eq hp
  obtain ⟨signer, action⟩ := m
  -- A consent may leave the tenure as it was, so the amendment does not tell whether one was given.
  cases hd : action.decision? p.id now with
  | none =>
    obtain ⟨q', hq', ha⟩ := h.amends hs hp
    cases hq.symm.trans hq'
    cases ha with
    | kept ht =>
      rw [ht]
      simpa using hf
    | granted hm =>
      obtain rfl : action = _ := hm
      simp [Action.decision?] at hd
    | extendedTo hm =>
      obtain rfl : action = _ := hm
      simp [Action.decision?] at hd
  | some d =>
    rcases Action.decision?_eq_some_iff.mp hd with ⟨terms, rfl, rfl⟩ | ⟨finish, rfl, rfl⟩
    · obtain ⟨windowEnd, share, ha, hq'⟩ := h.granted hs hp
      cases hq.symm.trans hq'
      obtain ⟨-, -, schema', hsc', hw⟩ := World.admitConsent_terms ha
      rw [Host.schema, hsc] at hsc'
      cases hsc'
      exact Permission.follows_granted hf hw share
    · cases hq.symm.trans (h.get?_extended hs hp)
      exact Permission.follows_extendedTo hf signer

theorem Outcome.begins {e e' : Engine} {now : Instant} {signer : Address} {id : PermissionId}
    {a : Application} (hs : e.records.Sound)
    (h : Outcome e now ⟨signer, .start a⟩ (.permissionCreated id) e') :
    e.records.get? id = none ∧ ∃ p schema, e'.records.get? id = some p ∧ p.kind = a.kind ∧
      e.host.schemas.get? p.schemaId = some schema ∧
      p.tenure.Follows (schema.periodOf a.kind) [] := by
  cases h with
  | @start _ _ _ _ cost _ windowEnd ha _ _ hid hw =>
    obtain ⟨-, hnext⟩ := Records.nextId_eq_ok_iff.mp hid
    refine ⟨hs.get?_fresh (hnext ▸ Nat.lt_succ_self _), ?_⟩
    simp only [World.admitApplication, Guard.bind_eq_ok_iff, Guard.pure_eq_ok_iff,
      Prod.mk.injEq, Host.schema, Guard.expect_eq_ok_iff] at ha
    obtain ⟨_, -, validator, -, schema, hsc, _, -, rfl, rfl⟩ := ha
    refine ⟨.applied id signer a validator.schemaId cost.fee cost.deposit windowEnd now, schema, ?_,
      rfl, hsc, Permission.follows_applied hw⟩
    rw [Engine.records_after, Records.get?_insert]
    exact if_pos rfl

namespace Engine

variable {e : Engine} {steps : List Step} {id : PermissionId} {a : Application}

def KeepsSchemas (e : Engine) : Step → Prop
  | .deliver .. => True
  | .surround host => host.schemas = e.host.schemas

instance (e : Engine) (s : Step) : Decidable (e.KeepsSchemas s) :=
  match s with
  | .deliver .. => inferInstanceAs (Decidable True)
  | .surround host => inferInstanceAs (Decidable (host.schemas = e.host.schemas))

theorem step_schemas {s : Step} (hk : e.KeepsSchemas s) :
    (e.step s).host.schemas = e.host.schemas := by
  cases s using e.step_cases with
  | surround host => exact hk
  | refused now m _ hstep => rw [hstep]
  | accepted now m r e' _ hstep h =>
    rw [hstep, h.around]
    rfl

theorem run_schemas (hk : e.Along KeepsSchemas steps) :
    (e.run steps).host.schemas = e.host.schemas :=
  run_along (P := fun e' => e'.host.schemas = e.host.schemas) rfl
    (fun _ _ h hk => (step_schemas hk).trans h) hk

theorem AppliedFor.of_concat {s : Step} (h : e.AppliedFor (steps ++ [s]) id a) :
    e.AppliedFor steps id a ∨ ∃ now signer, s = .deliver now ⟨signer, .start a⟩ ∧
      ((e.run steps).deliver now ⟨signer, .start a⟩).1 = .ok (.permissionCreated id) := by
  obtain ⟨earlier, now, signer, ha, hr⟩ := h
  rcases acceptedAfter_concat.mp ha with ha | ⟨rfl, hs, -⟩
  · exact .inl ⟨earlier, now, signer, ha, hr⟩
  · exact .inr ⟨now, signer, hs, hr⟩

theorem step_follows (hs : e.records.Sound) {p : Permission} (hp : e.records.get? id = some p)
    {schema : CredentialSchema} (hsc : e.host.schemas.get? p.schemaId = some schema)
    {ds : List Decision} (hf : p.tenure.Follows (schema.periodOf p.kind) ds) (s : Step) :
    ∃ q, (e.step s).records.get? id = some q ∧ p.SameOrigin q ∧
      q.tenure.Follows (schema.periodOf p.kind) (ds ++ (e.decision? id s).toList) := by
  cases s using e.step_cases with
  | surround host => exact ⟨p, hp, .refl p, by simpa [decision?] using hf⟩
  | refused now m hn hstep =>
    rw [hstep, decision?, if_neg hn]
    exact ⟨p, hp, .refl p, by simpa using hf⟩
  | accepted now m r e' hd hstep ho =>
    rw [hstep, decision?, if_pos (accepts_iff.mpr ⟨r, e', hd⟩)]
    exact ho.follows hs hp hsc hf

/-- A row that was applied for is what the decisions of the run made of it. -/
theorem run_follows (hs : e.records.Sound) (hk : e.Along KeepsSchemas steps)
    (ha : e.AppliedFor steps id a) :
    ∃ p schema, (e.run steps).records.get? id = some p ∧ p.kind = a.kind ∧
      e.host.schemas.get? p.schemaId = some schema ∧
      p.tenure.Follows (schema.periodOf a.kind) (e.decisions id steps) := by
  induction steps using List.reverseRecOn with
  | nil =>
    obtain ⟨_, _, _, hacc, -⟩ := ha
    exact absurd hacc not_acceptedAfter_nil
  | append_singleton steps s ih =>
    have hpre := hk.earlier (List.prefix_append steps [s])
    have hschemas := run_schemas hpre
    rw [run_concat, decisions_concat]
    rcases ha.of_concat with ha | ⟨now, signer, rfl, hr⟩
    · obtain ⟨p, schema, hp, hkind, hsc, hf⟩ := ih hpre ha
      rw [← hkind] at hf
      obtain ⟨q, hq, horigin, hf'⟩ := step_follows (run_sound hs steps) hp (hschemas ▸ hsc) hf s
      exact ⟨q, schema, hq, horigin.kind.trans hkind, horigin.schemaId ▸ hsc, hkind ▸ hf'⟩
    · -- The step that creates the row finds none, so nothing was decided about it yet.
      have hd : (e.run steps).deliver now ⟨signer, .start a⟩ =
          (.ok (.permissionCreated id), (e.run steps).step (.deliver now ⟨signer, .start a⟩)) :=
        Prod.ext hr rfl
      obtain ⟨hn, p, schema, hp, hkind, hsc, hf⟩ := (deliver_ok hd).begins (run_sound hs steps)
      refine ⟨p, schema, hp, hkind, hschemas ▸ hsc, ?_⟩
      rw [decisions_eq_nil hs hn, decision?_eq_none hn]
      exact hf

end Engine

/-- A row that was applied for in a run under the same schemas has no window if its kind has no
validity period. Otherwise its window ends, after the `k`-th consent to the row, `k` periods after
the first one, whatever was requested, cancelled or extended in between. Its validity ends as the
last consent or extension says, or with the window if the last one is a consent that names no
end. -/
theorem validation_windows_add_up {host : Host} {params : Params} {authority : Address}
    {e : Engine} (hn : Engine.new host params authority = .ok e) {steps : List Step}
    (hk : e.Along Engine.KeepsSchemas steps) {id : PermissionId} {a : Application}
    (ha : e.AppliedFor steps id a) :
    ∃ p schema, (e.run steps).records.get? id = some p ∧ p.kind = a.kind ∧
      host.schemas.get? p.schemaId = some schema ∧
      (schema.periodOf a.kind = 0 → p.windowEnd = none) ∧
      (schema.periodOf a.kind ≠ 0 → ∀ first later,
        Decision.consentTimes (e.decisions id steps) = first :: later →
          ∃ last, p.windowEnd = some last ∧
            first.addDays? ((later.length + 1) * schema.periodOf a.kind) = some last ∧
            first.DaysAfter ((later.length + 1) * schema.periodOf a.kind) last) ∧
      (∀ now terms, (e.decisions id steps).getLast? = some (.consent now terms) →
        p.effectiveUntil = terms.effectiveUntil.or p.windowEnd) ∧
      ∀ finish, (e.decisions id steps).getLast? = some (.extension finish) →
        p.effectiveUntil = some finish := by
  obtain ⟨p, schema, hp, hkind, hsc, hf⟩ := Engine.run_follows (Engine.new_sound hn) hk ha
  obtain ⟨-, rfl⟩ := Engine.new_eq_ok_iff.mp hn
  refine ⟨p, schema, hp, hkind, hsc, hf.windowless, ?_, fun _ _ hd => hf.finish hd,
    fun _ hd => hf.finish hd⟩
  intro hperiod first later hc
  rcases validityWindow_eq_ok_iff.mp (hf.window hc) with ⟨hz, -⟩ | ⟨-, last, hlast, hw⟩
  · exact absurd hz (Nat.mul_ne_zero (Nat.succ_ne_zero _) hperiod)
  · exact ⟨last, hw, hlast, Instant.daysAfter_of_addDays? hlast⟩

namespace Sample

def monthlySchema : CredentialSchema :=
  { schema with periods := { schema.periods with issuer := 30 } }

def monthlyHost : Host := { host with schemas := .ofList [(1, monthlySchema)] }

def monthlyEngine : Engine := ⟨⟨.empty, monthlyHost⟩, .standard, governor, []⟩

def monthlyFounding : List Step :=
  [signed controller (.createRoot ⟨1, did, none, none, none, ⟨100, 50, 0⟩⟩),
    signed grantor (.start ⟨.issuerGrantor, 1, did, none⟩),
    signed controller (.validate 2 (terms 50 30))]

/-- An issuer applies and is validated on day 2. It takes one renewal back and has another granted
on day 40, with an end that is moved on the next day. -/
def monthly : List Step :=
  monthlyFounding ++
    [signed issuer (.start ⟨.issuer, 2, did, none⟩),
      .deliver (inDays 2) ⟨grantor, .validate 3 (terms 0 0)⟩,
      .deliver (inDays 5) ⟨issuer, .renew 3⟩,
      .deliver (inDays 6) ⟨issuer, .cancel 3⟩,
      .deliver (inDays 20) ⟨issuer, .renew 3⟩,
      .deliver (inDays 40) ⟨grantor, .validate 3 (termsUntil (inDays 50))⟩,
      .deliver (inDays 41) ⟨grantor, .extend 3 (inDays 60)⟩]

theorem monthlyEngine_new :
    Engine.new monthlyHost .standard governor = .ok monthlyEngine := rfl

theorem monthly_appliedFor : monthlyEngine.AppliedFor monthly 3 ⟨.issuer, 2, did, none⟩ :=
  ⟨monthlyFounding, noon, issuer, ⟨⟨_, rfl⟩, by decide +kernel⟩, by decide +kernel⟩

theorem monthly_decisions : monthlyEngine.decisions 3 monthly =
    [.consent (inDays 2) (terms 0 0), .consent (inDays 40) (termsUntil (inDays 50)),
      .extension (inDays 60)] := by decide +kernel

end Sample

/-- The window ends 60 days after the first consent. -/
theorem validation_windows_add_up_monthly :
    ∃ p last, (Sample.monthlyEngine.run Sample.monthly).records.get? 3 = some p ∧
      p.windowEnd = some last ∧ (Sample.inDays 2).DaysAfter 60 last ∧
      p.effectiveUntil = some (Sample.inDays 60) := by
  have hk : Sample.monthlyEngine.Along Engine.KeepsSchemas Sample.monthly := by decide +kernel
  have hid : ((Sample.monthlyEngine.run Sample.monthly).records.get? 3).map (·.schemaId) =
      some 1 := by decide +kernel
  obtain ⟨p, schema, hp, -, hsc, -, hw, -, hx⟩ :=
    validation_windows_add_up Sample.monthlyEngine_new hk Sample.monthly_appliedFor
  rw [hp, Option.map_some, Option.some.injEq] at hid
  rw [hid] at hsc
  obtain rfl : Sample.monthlySchema = schema := Option.some.inj hsc
  rw [Sample.monthly_decisions] at hw hx
  obtain ⟨last, hlast, -, hdays⟩ := hw (by decide) _ _ rfl
  exact ⟨p, last, hp, hlast, hdays, hx _ rfl⟩

end TrustPermit
