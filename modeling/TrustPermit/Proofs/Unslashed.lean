import TrustPermit.Proofs.Run

/-! # Runs without a slash

While nothing is slashed, every row either comes from one of before, of the same origin, or is
new. So no row has a slashed deposit, and a root keeps the controller that created it as long as
schemas and registries stay.
-/

namespace TrustPermit

def Action.isSlash : Action → Bool
  | .slash .. => true
  | _ => false

namespace Engine

def slashes (e : Engine) : Step → Bool
  | .deliver now m => m.action.isSlash && (e.deliver now m).1.isOk
  | .surround _ => false

def SlashFree (e : Engine) (steps : List Step) : Prop :=
  e.Along (fun e s => e.slashes s = false) steps

end Engine

/-- A row becomes another of the same origin, without being slashed. -/
structure Permission.Evolves (p q : Permission) : Prop extends p.SameOrigin q where
  slashed : q.slashedDeposit ≤ p.slashedDeposit

namespace Permission

theorem Evolves.refl (p : Permission) : p.Evolves p := ⟨.refl p, le_rfl⟩

structure Fresh (h : Host) (p : Permission) : Prop where
  unslashed : p.slashedDeposit = 0
  rooted : p.validator = none → ∃ a, h.controller p.schemaId = .ok a

end Permission

namespace Records

/-- Every row of the second records evolved from one of the first, or is new. -/
def Evolves (h : Host) (r r' : Records) : Prop :=
  ∀ id q, r'.get? id = some q → (∃ p, r.get? id = some p ∧ p.Evolves q) ∨ q.Fresh h

namespace Evolves

variable {h : Host} {r r' : Records} {p q : Permission}

theorem refl (h : Host) (r : Records) : r.Evolves h r :=
  fun _ q hq => .inl ⟨q, hq, .refl q⟩

theorem insert_over (hp : r.get? p.id = some p) (ho : p.Evolves q) : r.Evolves h (r.insert q) := by
  intro id q' hq
  simp only [get?_insert] at hq
  split at hq
  · rename_i he
    cases hq
    exact .inl ⟨p, by rw [he, ho.id, hp], ho⟩
  · exact .inl ⟨q', hq, .refl q'⟩

theorem insert_new (hp : p.Fresh h) :
    r.Evolves h ((r.allocate permissionCounter).insert p) := by
  intro id q hq
  rcases get?_stored hq with ⟨-, rfl⟩ | hq
  · exact .inr hp
  · exact .inl ⟨q, hq, .refl q⟩

theorem raisedBy (g : PermissionId → Nat) : r.Evolves h (r.raisedBy g) := by
  intro id q hq
  simp only [get?_raisedBy, Option.map_eq_some_iff] at hq
  obtain ⟨p, hp, rfl⟩ := hq
  exact .inl ⟨p, hp, .raiseDeposit p _, le_rfl⟩

theorem trans {r'' : Records} (h₁ : r.Evolves h r') (h₂ : r'.Evolves h r'') : r.Evolves h r'' := by
  intro id q hq
  rcases h₂ id q hq with ⟨p, hp, ho⟩ | hf
  · rcases h₁ id p hp with ⟨p₀, hp₀, ho₀⟩ | hf
    · exact .inl ⟨p₀, hp₀, ⟨ho.id.trans ho₀.id, ho.schemaId.trans ho₀.schemaId,
        ho.kind.trans ho₀.kind, ho.did.trans ho₀.did, ho.grantee.trans ho₀.grantee,
        ho.validator.trans ho₀.validator, ho.created.trans ho₀.created,
        ho.createdBy.trans ho₀.createdBy⟩, ho.slashed.trans ho₀.slashed⟩
    · exact .inr ⟨Nat.le_zero.mp (hf.unslashed ▸ ho.slashed), fun hv => by
        rw [ho.schemaId]
        exact hf.rooted (ho.validator ▸ hv)⟩
  · exact .inr hf

theorem terminated (hs : r.Sound) {id : PermissionId} (hp : r.get? id = some p) (actor : Address)
    (now : Instant) : r.Evolves h (r.terminated p actor now) := by
  have hrest : r.Evolves h ((r.clearShares p.id).shareReturned p) := by
    intro id q hq
    simp only [get?_shareReturned, get?_clearShares, Option.map_map, Option.map_eq_some_iff,
      Function.comp_apply] at hq
    obtain ⟨p', hp, rfl⟩ := hq
    refine .inl ⟨p', hp, ?_⟩
    by_cases h₁ : p'.validator = some p.id <;> by_cases h₂ : p.validator = some id <;>
      simp only [h₁, h₂, if_true, if_false] <;>
        exact ⟨⟨rfl, rfl, rfl, rfl, rfl, rfl, rfl, rfl⟩, le_rfl⟩
  exact hrest.trans (.insert_over (hs.get?_settled hp) ⟨.closed p actor now, le_rfl⟩)

end Evolves

end Records

theorem Outcome.around {e e' : Engine} {now : Instant} {m : Message} {r : Response}
    (h : Outcome e now m r e') : e.host.SameAround e'.host := by
  cases h <;> rfl

/-- A message other than a slash evolves the rows. -/
theorem Outcome.evolves {e e' : Engine} {now : Instant} {m : Message} {r : Response}
    (hs : e.records.Sound) (hm : m.action.isSlash = false) (h : Outcome e now m r e') :
    e.records.Evolves e.host e'.records := by
  cases h with
  | start => exact .insert_new ⟨rfl, fun hv => by cases hv⟩
  | renew ha =>
    obtain ⟨hp, -, -⟩ := World.admitRenewal_ok ha
    exact .insert_over (hs.get?_id hp) ⟨.renewing _ _ _ _, le_rfl⟩
  | consent ha =>
    obtain ⟨hp, -, -⟩ := World.admitConsent_ok ha
    exact .insert_over (hs.get?_id hp) ⟨.granted _ _ _ _ _, le_rfl⟩
  | paidConsent ha _ hv hg =>
    obtain ⟨hp, -, -⟩ := World.admitConsent_ok ha
    exact .trans (.raisedBy _)
      (.insert_over (hs.get?_paid hp hv hg rfl _) ⟨.granted _ _ _ _ _, le_rfl⟩)
  | extend ha =>
    obtain ⟨hp, -⟩ := World.admitExtension_ok ha
    exact .insert_over (hs.get?_id hp) ⟨.extendedTo _ _ _ _, le_rfl⟩
  | revoke ha =>
    obtain ⟨hp, -⟩ := World.admitRevocation_ok ha
    exact .insert_over (hs.get?_id hp) ⟨.withdrawn _ _ _, le_rfl⟩
  | @cancel signer id p ha =>
    obtain ⟨hp, -⟩ := World.admitCancellation_ok ha
    exact .insert_over (hs.get?_id hp)
      ⟨.cancelled _ _ _, (p.cancelled_slashedDeposit signer now).le⟩
  | requestTermination ha =>
    obtain ⟨hp, -⟩ := World.admitDeparture_ok ha
    exact .insert_over (hs.get?_id hp) ⟨.leaving _ _, le_rfl⟩
  | confirmTermination ha =>
    obtain ⟨hp, -, -⟩ := World.admitTermination_eq_ok_iff.mp ha
    exact .terminated hs hp _ _
  | createRoot ha =>
    refine .insert_new ⟨rfl, fun _ => ?_⟩
    simp only [World.admitRoot, Guard.bind_eq_ok_iff] at ha
    obtain ⟨a, hc, -⟩ := ha
    exact ⟨a, hc⟩
  | create => exact .insert_new ⟨rfl, fun hv => by cases hv⟩
  | @exchange signer x s beneficiaries receipt w ha hx hb hw =>
    obtain ⟨⟨g, hg⟩, -⟩ := (Transfer.settle_ok hw).2.2.world
    have hr : e.records.Evolves e.host w.records := hg ▸ .raisedBy g
    exact hr
  | slash => cases hm
  | repay ha =>
    obtain ⟨hp, -⟩ := Engine.admitRepayment_ok ha
    exact .insert_over (hs.get?_id hp) ⟨.repaidInFull _ _ _, Nat.zero_le _⟩
  | setParams => exact .refl _ _

def Records.Unslashed (r : Records) : Prop := ∀ id p, r.get? id = some p → p.slashedDeposit = 0

def World.Rooted (w : World) : Prop :=
  ∀ id p, w.records.get? id = some p → p.validator = none →
    ∃ a, w.host.controller p.schemaId = .ok a

theorem Records.Unslashed.unslashed_eq {r : Records} (hu : r.Unslashed) {id : PermissionId}
    {p : Permission} (hp : r.get? id = some p) : p.unslashed = p.deposit := by
  rw [Permission.unslashed, hu id p hp, Nat.sub_zero]

theorem World.Rooted.authority {w : World} (hw : w.Rooted) (hs : w.records.Sound)
    {id : PermissionId} {p : Permission} (hp : w.records.get? id = some p) :
    ∃ a, w.authorityOver p = .ok a := by
  cases hv : p.validator with
  | none => simpa [World.authorityOver, hv] using hw id p hp hv
  | some v =>
    obtain ⟨q, hq⟩ := hs.validator_some hp hv
    exact ⟨q.grantee, (World.authorityOver_validated_iff hv).mpr ⟨q, hq, rfl⟩⟩

namespace Records.Evolves

variable {h : Host} {r r' : Records}

theorem unslashed (hr : r.Evolves h r') (hu : r.Unslashed) : r'.Unslashed := by
  intro id q hq
  rcases hr id q hq with ⟨p, hp, ho⟩ | hf
  · exact Nat.le_zero.mp (hu id p hp ▸ ho.slashed)
  · exact hf.unslashed

theorem rooted {w w' : World} (hr : w.records.Evolves w.host w'.records)
    (hc : ∀ n, w'.host.controller n = w.host.controller n) (hw : w.Rooted) : w'.Rooted := by
  intro id q hq hv
  rw [hc]
  rcases hr id q hq with ⟨p, hp, ho⟩ | hf
  · rw [ho.schemaId]
    exact hw id p hp (ho.validator ▸ hv)
  · exact hf.rooted hv

end Records.Evolves

namespace Engine

variable {e : Engine} {steps : List Step}

def KeepsDirectory (e : Engine) : Step → Prop
  | .deliver .. => True
  | .surround host => host.schemas = e.host.schemas ∧ host.registries = e.host.registries

instance (e : Engine) (s : Step) : Decidable (e.KeepsDirectory s) :=
  match s with
  | .deliver .. => inferInstanceAs (Decidable True)
  | .surround host => inferInstanceAs
      (Decidable (host.schemas = e.host.schemas ∧ host.registries = e.host.registries))

instance (e : Engine) (steps : List Step) : Decidable (e.SlashFree steps) :=
  inferInstanceAs (Decidable (e.Along _ steps))

theorem new_unslashed {host : Host} {params : Params} {authority : Address}
    (h : new host params authority = .ok e) : e.records.Unslashed :=
  new_rows h

theorem new_rooted {host : Host} {params : Params} {authority : Address}
    (h : new host params authority = .ok e) : e.Rooted :=
  new_rows h

theorem step_evolves (hs : e.records.Sound) {s : Step} (hn : e.slashes s = false) :
    e.records.Evolves e.host (e.step s).records := by
  cases s using e.step_cases with
  | surround host => exact .refl _ _
  | refused now m _ hstep =>
    rw [hstep]
    exact .refl _ _
  | accepted now m r e' hd hstep h =>
    have hm : m.action.isSlash = false := by
      simpa [slashes, hd, Except.isOk, Except.toBool] using hn
    rw [hstep]
    exact h.evolves hs hm

theorem run_unslashed (hs : e.records.Sound) (hu : e.records.Unslashed)
    (hn : e.SlashFree steps) : (e.run steps).records.Unslashed := by
  refine (run_along (P := fun e => e.records.Sound ∧ e.records.Unslashed) ⟨hs, hu⟩
    (fun e s he hn => ⟨step_sound he.1, ?_⟩) hn).2
  exact (step_evolves he.1 hn).unslashed he.2

theorem step_controller {s : Step} (hd : e.KeepsDirectory s) (n : Nat) :
    (e.step s).host.controller n = e.host.controller n := by
  cases s using e.step_cases with
  | surround host =>
    simp only [Host.controller, Host.schema, step]
    change (expect (host.schemas.get? n) _ >>= fun schema =>
      expect (host.registries.get? schema.registryId) _ >>= _) = _
    rw [hd.1, hd.2]
  | refused now m _ hstep => rw [hstep]
  | accepted now m r e' _ hstep h =>
    rw [hstep, h.around]
    rfl

theorem run_rooted (hs : e.records.Sound) (hr : e.Rooted) (hn : e.SlashFree steps)
    (hd : e.Along KeepsDirectory steps) : (e.run steps).Rooted := by
  refine (run_along (P := fun e => e.records.Sound ∧ e.Rooted) ⟨hs, hr⟩
    (fun e s he hq => ⟨step_sound he.1, ?_⟩) (hn.and hd)).2
  exact (step_evolves he.1 hq.1).rooted (step_controller hq.2) he.2

end Engine

end TrustPermit
