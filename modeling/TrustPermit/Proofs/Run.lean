import Mathlib.Data.List.Induction
import TrustPermit.Proofs.Admission
import TrustPermit.Proofs.Atomicity

/-! # Runs

An engine receives messages, and between them the host changes around it: accounts are funded,
prices move, schemas are published, deposits are frozen. What every step preserves holds after
every run, and what steps add up is a tally of the run.
-/

namespace TrustPermit

structure Ledger.HoldsOnlyBalances (l : Ledger) : Prop where
  modules : l.modules = ∅
  deposits : l.deposits = ∅
  claimable : l.claimable = ∅
  burned : l.burned = 0

/-- The host of before in new surroundings, of which only the balances belong to the ledger. -/
def Host.surroundedBy (h other : Host) : Host :=
  other.withLedger { h.ledger with balances := other.ledger.balances }

inductive Step where
  | deliver (now : Instant) (m : Message)
  | surround (host : Host)

namespace Engine

def step (e : Engine) : Step → Engine
  | .deliver now m => (e.deliver now m).2
  | .surround host => e.withWorld (e.toWorld.withHost (e.host.surroundedBy host))

def run (e : Engine) (steps : List Step) : Engine := steps.foldl step e

def Accepts (e : Engine) (now : Instant) (m : Message) : Prop := (e.deliver now m).1.isOk = true

instance (e : Engine) (now : Instant) (m : Message) : Decidable (e.Accepts now m) :=
  inferInstanceAs (Decidable (_ = true))

/-- The sum of what each step of a run contributes. -/
def tally {M : Type} [Zero M] [Add M] (f : Engine → Step → M) (e : Engine) : List Step → M
  | [] => 0
  | s :: rest => f e s + tally f (e.step s) rest

def accepted {M : Type} [Zero M] (f : Engine → Message → M) (e : Engine) : Step → M
  | .deliver now m => if (e.deliver now m).1.isOk then f e m else 0
  | .surround _ => 0

def Along (P : Engine → Step → Prop) (e : Engine) : List Step → Prop
  | [] => True
  | s :: rest => P e s ∧ Along P (e.step s) rest

instance decidableAlong {P : Engine → Step → Prop} [∀ e s, Decidable (P e s)] (e : Engine)
    (steps : List Step) : Decidable (e.Along P steps) :=
  match steps with
  | [] => isTrue trivial
  | s :: rest =>
    have := decidableAlong (P := P) (e.step s) rest
    inferInstanceAs (Decidable (P e s ∧ (e.step s).Along P rest))

variable {e : Engine}

theorem run_concat (e : Engine) (steps : List Step) (s : Step) :
    e.run (steps ++ [s]) = (e.run steps).step s := by
  simp [run]

theorem tally_concat {M : Type} [AddMonoid M] (f : Engine → Step → M) (e : Engine)
    (steps : List Step) (s : Step) :
    e.tally f (steps ++ [s]) = e.tally f steps + f (e.run steps) s := by
  induction steps generalizing e with
  | nil => simp [tally, run]
  | cons t rest ih => simp [tally, ih, run, add_assoc]

theorem Along.mono {P Q : Engine → Step → Prop} {I : Engine → Prop} {steps : List Step} (he : I e)
    (hi : ∀ e s, I e → I (e.step s)) (hpq : ∀ e s, I e → P e s → Q e s) (hp : e.Along P steps) :
    e.Along Q steps := by
  induction steps generalizing e with
  | nil => trivial
  | cons s rest ih => exact ⟨hpq e s he hp.1, ih (hi e s he) hp.2⟩

theorem Along.earlier {P : Engine → Step → Prop} {earlier steps : List Step}
    (hpre : earlier <+: steps) (hp : e.Along P steps) : e.Along P earlier := by
  induction earlier generalizing e steps with
  | nil => trivial
  | cons s rest ih =>
    obtain ⟨later, rfl⟩ := hpre
    exact ⟨hp.1, ih (List.prefix_append rest later) hp.2⟩

theorem Along.and {P Q : Engine → Step → Prop} {steps : List Step} (hp : e.Along P steps)
    (hq : e.Along Q steps) : e.Along (fun e s => P e s ∧ Q e s) steps := by
  induction steps generalizing e with
  | nil => trivial
  | cons s rest ih => exact ⟨⟨hp.1, hq.1⟩, ih hp.2 hq.2⟩

theorem run_append (e : Engine) (steps rest : List Step) :
    e.run (steps ++ rest) = (e.run steps).run rest :=
  List.foldl_append

/-- A property of runs is proved from the empty run, one step at a time at the end. -/
theorem run_induction {P : List Step → Engine → Prop} (nil : P [] e)
    (concat : ∀ steps s, P steps (e.run steps) → P (steps ++ [s]) ((e.run steps).step s))
    (steps : List Step) : P steps (e.run steps) := by
  induction steps using List.reverseRecOn with
  | nil => exact nil
  | append_singleton steps s ih =>
    rw [run_concat]
    exact concat steps s ih

theorem run_along {P : Engine → Prop} {Q : Engine → Step → Prop} {steps : List Step} (h₀ : P e)
    (hs : ∀ e s, P e → Q e s → P (e.step s)) (h : e.Along Q steps) : P (e.run steps) := by
  induction steps generalizing e with
  | nil => exact h₀
  | cons s rest ih => exact ih (hs e s h₀ h.1) h.2

theorem run_invariant {P : Engine → Prop} (h₀ : P e) (hs : ∀ e s, P e → P (e.step s))
    (steps : List Step) : P (e.run steps) :=
  run_induction (P := fun _ => P) h₀ (fun _ s => hs _ s) steps

theorem deliver_cases (e : Engine) (now : Instant) (m : Message) :
    (∃ f, e.deliver now m = (.error f, e)) ∨
      ∃ r e', e.deliver now m = (.ok r, e') ∧ Outcome e now m r e' := by
  rcases hd : e.deliver now m with ⟨f | r, e'⟩
  · exact .inl ⟨f, by rw [deliver_error hd]⟩
  · exact .inr ⟨r, e', rfl, deliver_ok hd⟩

theorem accepts_iff {now : Instant} {m : Message} :
    e.Accepts now m ↔ ∃ r e', e.deliver now m = (.ok r, e') := by
  rcases hd : e.deliver now m with ⟨f | r, e'⟩ <;> simp [Accepts, hd, Except.isOk, Except.toBool]

/-- A message is accepted in a run, right after a part of it. -/
def AcceptedAfter (e : Engine) (steps earlier : List Step) (now : Instant) (m : Message) : Prop :=
  earlier ++ [.deliver now m] <+: steps ∧ (e.run earlier).Accepts now m

theorem not_acceptedAfter_nil {earlier : List Step} {now : Instant} {m : Message} :
    ¬ e.AcceptedAfter [] earlier now m := by
  rintro ⟨hpre, -⟩
  simpa using hpre.length_le

theorem AcceptedAfter.before {steps earlier : List Step} {now : Instant} {m : Message}
    (h : e.AcceptedAfter steps earlier now m) : earlier <+: steps :=
  (List.prefix_append _ _).trans h.1

theorem acceptedAfter_concat {steps earlier : List Step} {s : Step} {now : Instant} {m : Message} :
    e.AcceptedAfter (steps ++ [s]) earlier now m ↔ e.AcceptedAfter steps earlier now m ∨
      earlier = steps ∧ s = .deliver now m ∧ (e.run steps).Accepts now m := by
  constructor
  · rintro ⟨hpre, ha⟩
    rcases List.prefix_concat_iff.mp hpre with heq | hpre
    · obtain ⟨rfl, hs⟩ := List.append_inj' heq rfl
      exact .inr ⟨rfl, (List.singleton_inj.mp hs).symm, ha⟩
    · exact .inl ⟨hpre, ha⟩
  · rintro (⟨hpre, ha⟩ | ⟨rfl, rfl, ha⟩)
    · exact ⟨hpre.trans (List.prefix_append _ _), ha⟩
    · exact ⟨List.prefix_rfl, ha⟩

/-- A step brings new surroundings, or a message that is refused and changes nothing, or one that
has one of the outcomes. -/
theorem step_cases (e : Engine) {motive : Step → Prop} (s : Step)
    (surround : ∀ host, motive (.surround host))
    (refused : ∀ now m, ¬ e.Accepts now m → e.step (.deliver now m) = e → motive (.deliver now m))
    (accepted : ∀ now m r e', e.deliver now m = (.ok r, e') → e.step (.deliver now m) = e' →
      Outcome e now m r e' → motive (.deliver now m)) : motive s := by
  cases s with
  | surround host => exact surround host
  | deliver now m =>
    rcases e.deliver_cases now m with ⟨f, hd⟩ | ⟨r, e', hd, h⟩
    · refine refused now m ?_ (by rw [step, hd])
      simp [Accepts, hd, Except.isOk, Except.toBool]
    · exact accepted now m r e' hd (by rw [step, hd]) h

theorem step_invariant {P : Engine → Prop}
    (ho : ∀ {e e' now m r}, P e → Outcome e now m r e' → P e')
    (hh : ∀ {e} host, P e → P (e.withWorld (e.toWorld.withHost (e.host.surroundedBy host))))
    (e : Engine) (s : Step) (he : P e) : P (e.step s) := by
  cases s using e.step_cases with
  | surround host => exact hh host he
  | refused now m _ hstep => rwa [hstep]
  | accepted now m r e' _ hstep h =>
    rw [hstep]
    exact ho he h

/-- A quantity that changes by what successful messages contribute is the tally of a run. -/
theorem run_balance {I : Engine → Prop} {q : Engine → Int} {f : Engine → Message → Int}
    (h₀ : I e) (hi : ∀ e s, I e → I (e.step s))
    (ho : ∀ {e e' now m r}, I e → Outcome e now m r e' → q e' = q e + f e m)
    (hh : ∀ e host, q (e.withWorld (e.toWorld.withHost (e.host.surroundedBy host))) = q e)
    (steps : List Step) : q (e.run steps) = q e + e.tally (accepted f) steps := by
  have hstep : ∀ e s, I e → q (e.step s) = q e + accepted f e s := by
    intro e s he
    cases s with
    | surround host => exact (hh e host).trans (add_zero _).symm
    | deliver now m =>
      rcases e.deliver_cases now m with ⟨_, hd⟩ | ⟨_, e', hd, h⟩
      · simp [step, accepted, hd, Except.isOk, Except.toBool]
      · simpa [step, accepted, hd, Except.isOk, Except.toBool] using ho he h
  refine run_induction (P := fun steps e' => q e' = q e + e.tally (accepted f) steps)
    (by simp [tally]) (fun steps s h => ?_) steps
  rw [tally_concat, hstep _ s (run_invariant h₀ hi steps), h, add_assoc]

end Engine

namespace Permission

variable {p : Permission}

theorem EscrowIdle.cancelled (actor : Address) (now : Instant) :
    (p.cancelled actor now).EscrowIdle := by
  unfold Permission.cancelled
  split <;> exact fun _ => ⟨rfl, rfl⟩

theorem EscrowIdle.leaving (hi : p.EscrowIdle) (hs : p.state = .validated) (now : Instant) :
    (p.leaving now).EscrowIdle :=
  fun _ => hi (by simp [hs])

theorem EscrowIdle.closed (hi : p.EscrowIdle) (hs : p.state = .terminationRequested)
    (actor : Address) (now : Instant) : (p.closed actor now).EscrowIdle :=
  fun _ => hi (by simp [hs])

@[simp] theorem raiseDeposit_zero (p : Permission) : p.raiseDeposit 0 = p := rfl

end Permission

namespace Records.Sound

variable {r : Records} {id v : PermissionId} {p : Permission}

theorem validator_ne (hs : r.Sound) (hp : r.get? id = some p) : p.validator ≠ some p.id := by
  rw [hs.id_eq hp]
  exact fun hv => Nat.lt_irrefl id (hs.validator_lt hp hv)

theorem get?_id (hs : r.Sound) (hp : r.get? id = some p) : r.get? p.id = some p := by
  rw [hs.id_eq hp, hp]

theorem get?_settled (hs : r.Sound) (hp : r.get? id = some p) :
    ((r.clearShares p.id).shareReturned p).get? p.id = some p := by
  simp [get?_shareReturned, hs.get?_id hp, hs.validator_ne hp]

theorem get?_paid {w : World} (hs : w.records.Sound) (hp : w.records.get? id = some p)
    (hv : p.validator = some v) {validator : Permission} (hq : w.records.get? v = some validator)
    {t : SettlementTerms} (hx : t.executor = none) (split : FeeShares) :
    (w.paid t validator split).records.get? p.id = some p := by
  have hne : p.id ≠ validator.id := by
    rw [hs.id_eq hp, hs.id_eq hq]
    exact (hs.validator_lt hp hv).ne'
  simp [World.paid, World.shared, t.credits_none _ _ hx, hs.get?_id hp, hne]

end Records.Sound

theorem Settles.sound {t : SettlementTerms} {bs : List Permission} {w w' : World}
    {lines : List Payout} (h : Settles t bs w lines w') (hs : w.records.Sound) :
    w'.records.Sound := by
  obtain ⟨⟨g, hg⟩, -⟩ := h.world
  exact hg ▸ hs.raisedBy g

theorem Records.nextId_eq_ok_iff {r : Records} {id : PermissionId} :
    r.nextId permissionCounter = .ok id ↔
      r.counter permissionCounter + 1 < amountBound ∧ r.counter permissionCounter + 1 = id := by
  simp [nextId]

theorem Outcome.sound {e e' : Engine} {now : Instant} {m : Message} {r : Response}
    (hs : e.records.Sound) (h : Outcome e now m r e') : e'.records.Sound := by
  cases h with
  | start ha hq hb hid hw =>
    obtain ⟨-, rfl⟩ := Records.nextId_eq_ok_iff.mp hid
    refine hs.insert_new rfl (fun v hv => ?_) fun hn => absurd rfl hn
    cases hv
    exact ⟨_, World.admitApplication_ok ha⟩
  | renew ha hq hb hd =>
    obtain ⟨hp, -, -⟩ := World.admitRenewal_ok ha
    exact hs.insert_over (hs.get?_id hp) (.renewing _ _ _ _) fun hn => absurd rfl hn
  | consent ha hz hd =>
    obtain ⟨hp, -, -⟩ := World.admitConsent_ok ha
    exact hs.insert_over (hs.get?_id hp) (.granted _ _ _ _ _) fun _ => ⟨rfl, rfl⟩
  | paidConsent ha hn hv hg hb hf hc hd =>
    obtain ⟨hp, -, -⟩ := World.admitConsent_ok ha
    exact (hs.raisedBy _).insert_over (hs.get?_paid hp hv hg rfl _) (.granted _ _ _ _ _)
      fun _ => ⟨rfl, rfl⟩
  | extend ha =>
    obtain ⟨hp, -⟩ := World.admitExtension_ok ha
    exact hs.insert_over (hs.get?_id hp) (.extendedTo _ _ _ _) (hs.idle hp :)
  | revoke ha =>
    obtain ⟨hp, -⟩ := World.admitRevocation_ok ha
    exact hs.insert_over (hs.get?_id hp) (.withdrawn _ _ _) (hs.idle hp :)
  | cancel ha hf hd =>
    obtain ⟨hp, -⟩ := World.admitCancellation_ok ha
    exact hs.insert_over (hs.get?_id hp) (.cancelled _ _ _) (.cancelled _ _)
  | requestTermination ha =>
    obtain ⟨hp, hv⟩ := World.admitDeparture_ok ha
    exact hs.insert_over (hs.get?_id hp) (.leaving _ _) ((hs.idle hp).leaving hv _)
  | confirmTermination ha hd =>
    obtain ⟨hp, -, ht⟩ := World.admitTermination_eq_ok_iff.mp ha
    exact ((hs.clearShares _).shareReturned _).insert_over (hs.get?_settled hp)
      (.closed _ _ _) ((hs.idle hp).closed ht _ _)
  | createRoot ha hid =>
    obtain ⟨-, rfl⟩ := Records.nextId_eq_ok_iff.mp hid
    exact hs.insert_new rfl (fun v hv => by cases hv) fun _ => ⟨rfl, rfl⟩
  | create ha hid =>
    obtain ⟨-, rfl⟩ := Records.nextId_eq_ok_iff.mp hid
    obtain ⟨root, hr⟩ := World.admitSelfGrant_ok ha
    refine hs.insert_new rfl (fun v hv => ?_) fun _ => ⟨rfl, rfl⟩
    cases hv
    exact ⟨_, hs.get?_id hr⟩
  | exchange ha hx hb hw =>
    exact ((Transfer.settle_ok hw).2.2.sound hs).insertSession _
  | slash ha hn hb =>
    obtain ⟨hp, -⟩ := Engine.admitSlash_ok ha
    exact hs.insert_over (hs.get?_id hp) (.slashedFor _ _ _ _) (hs.idle hp :)
  | repay ha hb hr =>
    obtain ⟨hp, -⟩ := Engine.admitRepayment_ok ha
    exact hs.insert_over (hs.get?_id hp) (.repaidInFull _ _ _) (hs.idle hp :)
  | setParams ha hp => exact hs

namespace Engine

variable {host : Host} {params : Params} {authority : Address} {e : Engine}

theorem new_eq_ok_iff : new host params authority = .ok e ↔
    params.check = .ok () ∧ ⟨⟨.empty, host⟩, params, authority, []⟩ = e := by
  simp only [new, Guard.bind_eq_ok_iff, Guard.mapError_eq_ok_iff, Guard.pure_eq_ok_iff]
  constructor
  · rintro ⟨_, hp, rfl⟩
    exact ⟨hp, rfl⟩
  · rintro ⟨hp, rfl⟩
    exact ⟨(), hp, rfl⟩

theorem step_sound {s : Step} (hs : e.records.Sound) : (e.step s).records.Sound :=
  step_invariant (P := fun e => e.records.Sound) Outcome.sound (fun _ hs => hs) e s hs

theorem run_sound (hs : e.records.Sound) (steps : List Step) : (e.run steps).records.Sound :=
  run_invariant (P := fun e => e.records.Sound) hs (fun _ _ => step_sound) steps

theorem new_sound (h : new host params authority = .ok e) : e.records.Sound := by
  obtain ⟨-, rfl⟩ := new_eq_ok_iff.mp h
  exact Records.empty_sound

theorem new_get? (h : new host params authority = .ok e) (id : PermissionId) :
    e.records.get? id = none := by
  obtain ⟨-, rfl⟩ := new_eq_ok_iff.mp h
  rfl

theorem new_rows {P : PermissionId → Permission → Prop} (h : new host params authority = .ok e) :
    ∀ id p, e.records.get? id = some p → P id p := by
  intro id p hp
  cases (new_get? h id).symm.trans hp

end Engine

namespace Sample

def governor : Address := ⟨"verana1mmmmmmmm", by decide⟩

def controller : Address := ⟨"verana1cccccccc", by decide⟩

def grantor : Address := ⟨"verana1gggggggg", by decide⟩

def issuer : Address := ⟨"verana1ssssssss", by decide⟩

def noon : Instant := ⟨1700000000, 0, by decide, by decide⟩

def did : Did := ⟨"did:web:sample", by decide⟩

def schema : CredentialSchema where
  id := 1
  registryId := 1
  issuerMode := .grantorValidation
  verifierMode := .grantorValidation
  periods := ⟨0, 0, 0, 0, 0⟩

def host : Host :=
  { ((Host.empty "uvna" 1).fund grantor 1000).fund issuer 1000 with
    schemas := .ofList [(1, schema)]
    registries := .ofList [(1, ⟨1, controller⟩)] }

def engine : Engine := ⟨⟨.empty, host⟩, .standard, governor, []⟩

def terms (validation issuance : Nat) : Terms where
  effectiveUntil := none
  fees := { validation := validation, issuance := issuance }
  country := none
  issuanceDiscount := .zero
  verificationDiscount := .zero
  summaryDigest := none

def signed (signer : Address) (action : Action) : Step := .deliver noon ⟨signer, action⟩

/-- A root validates a grantor, who validates an issuer. -/
def founding : List Step :=
  [signed controller (.createRoot ⟨1, did, none, none, none, ⟨100, 50, 0⟩⟩),
    signed grantor (.start ⟨.issuerGrantor, 1, did, none⟩),
    signed controller (.validate 2 (terms 50 30)),
    signed issuer (.start ⟨.issuer, 2, did, none⟩),
    signed grantor (.validate 3 (terms 0 0))]

def newParams : Params :=
  { Params.standard with
    depositRate := ⟨500000000000000000, by decide⟩
    moduleAccount := "vault" }

/-- The grantor is slashed and leaves while a renewal is pending, which is granted afterwards.
Then the parameters and the price change, and a cancellation fails. -/
def history : List Step :=
  founding ++
    [signed issuer (.exchange ⟨"s", 3, 0, 3, 0⟩),
      signed issuer (.renew 3),
      signed controller (.slash 2 10),
      signed grantor (.requestTermination 2),
      signed controller (.confirmTermination 2),
      signed grantor (.validate 3 (terms 0 0)),
      signed issuer (.start ⟨.issuerGrantor, 1, did, none⟩),
      signed governor (.setParams newParams),
      signed issuer (.cancel 4),
      .surround { host with unitPrice := 3 },
      signed grantor (.start ⟨.issuerGrantor, 1, did, none⟩)]

/-- The root, its grantor and one of the grantor's two issuers want to leave. -/
def departures : List Step :=
  founding ++
    [signed grantor (.start ⟨.issuer, 2, did, none⟩),
      signed grantor (.validate 4 (terms 0 0)),
      signed issuer (.exchange ⟨"s", 3, 0, 3, 0⟩),
      signed controller (.requestTermination 1),
      signed grantor (.requestTermination 2),
      signed issuer (.requestTermination 3)]

theorem engine_new : Engine.new host .standard governor = .ok engine := rfl

theorem host_holds : host.ledger.HoldsOnlyBalances := ⟨rfl, rfl, rfl, rfl⟩

end Sample

end TrustPermit
