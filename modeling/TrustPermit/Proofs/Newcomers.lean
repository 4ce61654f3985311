import TrustPermit.Proofs.Eligibility
import TrustPermit.Proofs.Reach

/-! # Before the first validation

Whoever validates was validated before, or is a root and valid from the start. So a permission that
was never validated validates no other, takes part in no exchange and is on nobody's way up: no fee
is paid to it, and its deposit stays what its request committed.
-/

namespace TrustPermit

/-- A root is valid from the start, and every other permission was asked for from a validator that
was validated before. -/
inductive Permission.Founded (r : Records) (p : Permission) : Prop where

  | root : p.validator = none → p.everValidated = true → Founded r p

  | under {v : PermissionId} {q : Permission} : p.validator = some v → r.get? v = some q →
      q.everValidated = true → Founded r p

def Records.AllFounded (r : Records) : Prop := ∀ id p, r.get? id = some p → p.Founded r

namespace Permission.Founded

variable {r r' : Records} {p q : Permission} {v : PermissionId}

theorem validator (h : p.Founded r) (hv : p.validator = some v) (hq : r.get? v = some q) :
    q.everValidated = true := by
  cases h with
  | root hn => cases hn.symm.trans hv
  | under hv' hq' hev =>
    cases hv.symm.trans hv'
    cases hq.symm.trans hq'
    exact hev

theorem develops {m : Message} {now : Instant} (h : p.Founded r) (hd : r.Develops m now r')
    (hb : p.Becomes r m now q) : q.Founded r' := by
  cases h with
  | root hn hev => exact .root (hb.sameOrigin.validator.trans hn) (hb.later.everValidated hev)
  | under hv hw hev =>
    obtain ⟨w', hw', hb'⟩ := hd.kept hw
    exact .under (hb.sameOrigin.validator.trans hv) hw' (hb'.later.everValidated hev)

end Permission.Founded

namespace Records

variable {r : Records} {p : Permission} {id : PermissionId}

theorem IsHierarchy.validator_of_ecosystem (hh : r.IsHierarchy) (hp : r.get? id = some p)
    (hk : p.kind = .ecosystem) : p.validator = none := by
  cases hh id p hp with
  | root hv => exact hv
  | under _ _ _ hpair =>
    have hlt := PermissionKind.level_lt hpair
    rw [hk] at hlt
    exact absurd hlt (Nat.not_lt_zero _)

theorem AllFounded.root (hf : r.AllFounded) (hh : r.IsHierarchy) (hp : r.get? id = some p)
    (hk : p.kind = .ecosystem) : p.everValidated = true := by
  cases hf id p hp with
  | root _ hev => exact hev
  | under hv => cases (hh.validator_of_ecosystem hp hk).symm.trans hv

end Records

theorem Outcome.founded {e e' : Engine} {now : Instant} {m : Message} {r : Response}
    (hs : e.records.Sound) (hh : e.records.IsHierarchy) (hf : e.records.AllFounded)
    (h : Outcome e now m r e') {id : PermissionId} {q : Permission}
    (hq : e'.records.get? id = some q) (hn : e.records.get? id = none) :
    q.Founded e.records := by
  have hnew := (h.develops hs).fresh hq hn
  -- A row stored under an id that had none is the one stored last.
  have hlast : ∀ {p}, ((e.records.allocate Records.permissionCounter).insert p).get? id = some q →
      q = p := by
    intro p hp
    rcases Records.get?_stored hp with ⟨-, hq⟩ | hp
    · exact hq
    · cases hn.symm.trans hp
  cases h with
  | start ha =>
    obtain rfl := hlast hq
    exact .under rfl (World.admitApplication_ok ha)
      (Permission.everValidated_of_canActAt (World.admitApplication_eligible ha).1)
  | createRoot =>
    obtain rfl := hlast hq
    exact .root rfl rfl
  | create ha =>
    obtain rfl := hlast hq
    obtain ⟨v, hv⟩ := World.admitSelfGrant_ok ha
    exact .under rfl (hs.get?_id hv) (hf.root hh hv (World.admitSelfGrant_root ha).1)
  | _ => rcases hnew with hm | hm | hm <;> cases hm

namespace Engine

variable {e : Engine}

/-- What is needed of the rows for fees to go to validated permissions only. -/
structure Established (e : Engine) : Prop where
  sound : e.records.Sound
  covered : e.records.Covered
  hierarchy : e.records.IsHierarchy
  founded : e.records.AllFounded

theorem Established.step (h : e.Established) (s : Step) : (e.step s).Established := by
  refine ⟨step_sound h.sound, (step_covered ⟨h.sound, h.covered⟩).2,
    step_hierarchy h.sound h.hierarchy s, ?_⟩
  cases s using e.step_cases with
  | surround host => exact h.founded
  | refused now m _ hstep => exact hstep.symm ▸ h.founded
  | accepted now m r e' _ hstep ho =>
    rw [hstep]
    have hdev := ho.develops h.sound
    intro id q hq
    rcases hdev.row hq with ⟨p, hp, hb⟩ | ⟨hn, -⟩
    · exact (h.founded id p hp).develops hdev hb
    · exact (ho.founded h.sound h.hierarchy h.founded hq hn).develops hdev .same

theorem Established.run (h : e.Established) (steps : List Step) : (e.run steps).Established :=
  run_invariant h (fun _ s h => h.step s) steps

theorem new_established {host : Host} {params : Params} {authority : Address}
    (h : new host params authority = .ok e) : e.Established :=
  ⟨new_sound h, (new_covered h).2, new_hierarchy h, new_rows h⟩

end Engine

namespace Records

variable {r : Records} {b p : Permission} {id : PermissionId}

theorem everValidated_of_participant {kind : PermissionKind} {now : Instant} {u : Unit}
    (h : r.checkParticipant kind now (some id) = .ok u) (hp : r.get? id = some p) :
    p.everValidated = true := by
  simp only [checkParticipant, Guard.bind_eq_ok_iff, require_eq_ok_iff] at h
  obtain ⟨p', hp', _, -, ha⟩ := h
  cases hp.symm.trans hp'
  unfold Permission.checkActive at ha
  split at ha
  · cases ha
  · rename_i hi
    exact Permission.everValidated_of_canActAt (Permission.inactivity?_eq_none_iff.mp hi)

/-- Above a validated permission all are validated. -/
theorem AllFounded.everValidated_of_mem_walk (hf : r.AllFounded) {stop : Fault} {hops : Nat}
    {seen : List PermissionId} {start : Option PermissionId}
    (hstart : ∀ id p, start = some id → r.get? id = some p → p.everValidated = true)
    (h : b ∈ (r.walkFrom stop hops seen start).visited) : b.everValidated = true := by
  induction hops generalizing seen start with
  | zero => cases start <;> cases h
  | succ hops ih =>
    cases start with
    | none => cases h
    | some id =>
      simp only [walkFrom] at h
      split at h
      · cases h
      · split at h
        · cases h
        · rename_i p hp
          rcases List.mem_cons.mp h with rfl | h
          · exact hstart id b rfl hp
          · exact ih (fun v q hv hq => (hf id p hp).validator hv hq) h

theorem AllFounded.everValidated_of_mem_chain (hf : r.AllFounded) {part : Option PermissionId}
    (hpart : ∀ id p, part = some id → r.get? id = some p → p.everValidated = true)
    {maxDepth : Nat} {rows : List Permission} (h : r.chainOption part maxDepth = .ok rows)
    (hb : b ∈ rows) : b.everValidated = true := by
  cases part with
  | none =>
    cases h
    cases hb
  | some id =>
    simp only [chainOption, chain] at h
    split at h
    · cases h
      exact hf.everValidated_of_mem_walk hpart hb
    · cases h

theorem AllFounded.everValidated_of_mem_beneficiaries (hf : r.AllFounded) (hh : r.IsHierarchy)
    {schemas : Table Nat CredentialSchema} {issuer verifier : Option PermissionId}
    (hissuer : ∀ id p, issuer = some id → r.get? id = some p → p.everValidated = true)
    (hverifier : ∀ id p, verifier = some id → r.get? id = some p → p.everValidated = true)
    {maxDepth : Nat} {rows : List Permission}
    (h : r.beneficiaries schemas issuer verifier maxDepth = .ok rows) (hb : b ∈ rows) :
    b.everValidated = true := by
  obtain ⟨id, hrow⟩ := mem_beneficiaries h hb
  simp only [beneficiaries, Guard.bind_eq_ok_iff] at h
  obtain ⟨_, -, _, -, schemaId, -, _, -, h⟩ := h
  split at h
  · cases h
    exact hf.root hh hrow (root?_ok (Option.mem_toList.mp hb)).1
  · simp only [Guard.bind_eq_ok_iff, Guard.pure_eq_ok_iff] at h
    obtain ⟨_, hi, _, hv, rfl⟩ := h
    rcases List.mem_append.mp (List.mem_of_mem_filter (mem_firstOccurrences hb)) with hb | hb
    · exact hf.everValidated_of_mem_chain hissuer hi hb
    · exact hf.everValidated_of_mem_chain hverifier hv hb

end Records

namespace Outcome

variable {e e' : Engine} {now : Instant} {m : Message} {r : Response} {id : PermissionId}
  {p q : Permission}

/-- A message reaches a permission that was never validated only by ending another one. -/
theorem reaches_newcomer (he : e.Established) (h : Outcome e now m r e')
    (hp : e.records.get? id = some p) (hev : p.everValidated = false) (hr : p.ReachedBy e m) :
    ∃ closed, m.action = .confirmTermination closed := by
  have hs := he.sound
  have hparts {x : Exchange} (hm : m.action = .exchange x) :
      (∀ v q, x.issuer? = some v → e.records.get? v = some q → q.everValidated = true) ∧
        ∀ v q, x.verifier? = some v → e.records.get? v = some q → q.everValidated = true := by
    obtain ⟨signer, action⟩ := m
    obtain rfl : action = .exchange x := hm
    cases h with
    | exchange ha =>
      simp only [Records.admitExchange, Guard.bind_eq_ok_iff] at ha
      obtain ⟨_, -, _, hi, _, hv, -⟩ := ha
      exact ⟨fun v q hx hq => Records.everValidated_of_participant (hx ▸ hi) hq,
        fun v q hx hq => Records.everValidated_of_participant (hx ▸ hv) hq⟩
  obtain rfl := hs.id_eq hp
  cases hr with
  | executor hm hx =>
    obtain ⟨hissuer, hverifier⟩ := hparts hm
    rcases Option.or_eq_some_iff.mp hx with hx | ⟨-, hx⟩
    · exact absurd (hverifier _ p hx hp) (by simp [hev])
    · exact absurd (hissuer _ p hx hp) (by simp [hev])
  | @beneficiary x beneficiaries b hm hb hmem hid =>
    obtain ⟨hissuer, hverifier⟩ := hparts hm
    obtain ⟨v, hrow⟩ := Engine.mem_admitPayment hb hmem
    have hpaid := hs.get?_id hrow
    rw [hid, hp] at hpaid
    cases hpaid
    simp only [Engine.admitPayment, Guard.bind_eq_ok_iff, Guard.pure_eq_ok_iff] at hb
    obtain ⟨_, hb, _, -, _, -, rfl⟩ := hb
    exact absurd (he.founded.everValidated_of_mem_beneficiaries he.hierarchy hissuer hverifier hb
      hmem) (by simp [hev])
  | consent _ hrow _ hv => exact absurd ((he.founded _ _ hrow).validator hv hp) (by simp [hev])
  | above _ hc hv => exact absurd ((he.founded _ _ hc).validator hv hp) (by simp [hev])
  | below hm => exact ⟨_, hm⟩

theorem deposit_of_newcomer (he : e.Established) (h : Outcome e now m r e')
    (hp : e.records.get? id = some p) (hev : p.everValidated = false)
    (ht : m.action.target? ≠ some id) (hq : e'.records.get? id = some q) :
    q.deposit = p.deposit := by
  have hs := he.sound
  rcases (h.marks hs).other hp ht with hsame | hr
  · cases hq.symm.trans hsame
    rfl
  · obtain ⟨closed, hm⟩ := h.reaches_newcomer he hp hev hr
    obtain ⟨signer, action⟩ := m
    obtain rfl : action = .confirmTermination closed := hm
    obtain ⟨closing, hc, hall⟩ := h.besides hs
    have hne : id ≠ closed := by
      rintro rfl
      exact ht rfl
    have hshare : closing.validator ≠ some id := by
      intro hv
      exact absurd ((he.founded _ closing hc).validator hv hp) (by simp [hev])
    rw [hall id hne, hp, Option.map_some] at hq
    cases hq
    simp [Permission.beside, hs.id_eq hp, closing.shareUnder_of_ne id hshare]

end Outcome

end TrustPermit
