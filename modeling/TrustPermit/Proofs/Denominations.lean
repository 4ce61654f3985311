import TrustPermit.Proofs.Development

/-! # The denomination of the escrow

Fees are collected in the bond denomination, which must be the host's. So while neither of the two
changes, fees in escrow can be paid out again.
-/

namespace TrustPermit

namespace Transaction

variable {e e' : Engine} {now : Instant} {signer : Address} {r : Response}

theorem start_escrows {a : Application} (h : start signer a now e = .ok r e') :
    ∃ q, e'.records = (e.records.allocate Records.permissionCounter).insert q ∧
      (q.escrowedFees ≠ 0 → e.params.bondDenom = e.host.denom) := by
  simp only [start, Effect.bind_eq_ok_iff, Effect.ask_eq_ok_iff, allocate_eq_ok_iff,
    store_eq_ok_iff, emit_eq_ok_iff, Effect.pure_eq_ok_iff] at h
  obtain ⟨⟨validator, schema⟩, _, ⟨-, rfl⟩, cost, e₁, h₁, id, _, ⟨-, rfl⟩, windowEnd, _,
    ⟨-, rfl⟩, _, _, rfl, _, _, rfl, rfl, rfl⟩ := h
  obtain ⟨-, -, rfl⟩ := escrow_ok h₁
  exact ⟨_, rfl, fun hn => escrow_denom h₁ hn⟩

theorem renew_escrows {id : PermissionId} (h : renew signer id now e = .ok r e') :
    ∃ q, e'.records = e.records.insert q ∧
      (q.escrowedFees ≠ 0 → e.params.bondDenom = e.host.denom) := by
  simp only [renew, Effect.bind_eq_ok_iff, Effect.ask_eq_ok_iff, Guard.demand_eq_ok_iff,
    store_eq_ok_iff, emit_eq_ok_iff, Effect.pure_eq_ok_iff] at h
  obtain ⟨⟨p, validator⟩, _, ⟨-, rfl⟩, cost, e₁, h₁, _, _, ⟨-, rfl⟩, _, _, rfl, _, _, rfl,
    rfl, rfl⟩ := h
  obtain ⟨-, -, rfl⟩ := escrow_ok h₁
  exact ⟨_, rfl, fun hn => escrow_denom h₁ hn⟩

end Transaction

namespace Permission

variable {r : Records} {m : Message} {now : Instant} {p q : Permission}

theorem Becomes.escrowedFees_le (h : p.Becomes r m now q) (hm : m.action ≠ .renew p.id) :
    q.escrowedFees ≤ p.escrowedFees := by
  cases h with
  | renewing hr => exact absurd hr hm
  | granted => exact Nat.zero_le _
  | cancelled =>
    rw [p.cancelled_escrowedFees]
    exact Nat.zero_le _
  | _ => exact le_rfl

theorem Becomes.escrowedFees (h : p.Becomes r m now q) (hm : m.action ≠ .renew p.id)
    (hq : q.escrowedFees ≠ 0) : p.escrowedFees ≠ 0 := by
  have hle := h.escrowedFees_le hm
  omega

theorem Created.escrowedFees (h : q.Created m now) (hm : ∀ a, m.action ≠ .start a) :
    q.escrowedFees = 0 := by
  cases h with
  | applied ha => exact absurd ha (hm _)
  | _ => rfl

end Permission

namespace Engine

variable {e e' : Engine} {id : PermissionId} {q : Permission}

/-- Fees are in escrow only in the denomination of the host. -/
def Denominated (e : Engine) : Prop :=
  ∀ id p, e.records.get? id = some p → p.escrowedFees ≠ 0 → e.params.bondDenom = e.host.denom

def KeepsDenom (e : Engine) (s : Step) : Prop :=
  (e.step s).params.bondDenom = e.params.bondDenom ∧ (e.step s).host.denom = e.host.denom

instance (e : Engine) (s : Step) : Decidable (e.KeepsDenom s) :=
  inferInstanceAs (Decidable (_ ∧ _))

theorem deliver_escrows (hs : e.records.Sound) {now : Instant} {m : Message} {r : Response}
    (hd : e.deliver now m = (.ok r, e')) (hq : e'.records.get? id = some q)
    (hn : q.escrowedFees ≠ 0) : e.params.bondDenom = e.host.denom ∨
      ∃ p, e.records.get? id = some p ∧ p.escrowedFees ≠ 0 := by
  have hperform := (deliver_eq_ok_iff.mp hd).2
  have hrest : (∀ a, m.action ≠ .start a) → (∀ id, m.action ≠ .renew id) →
      ∃ p, e.records.get? id = some p ∧ p.escrowedFees ≠ 0 := by
    intro hstart hrenew
    rcases ((deliver_ok hd).develops hs).row hq with ⟨p, hp, hb⟩ | ⟨-, hnew⟩
    · exact ⟨p, hp, hb.escrowedFees (hrenew _) hn⟩
    · exact absurd (hnew.escrowedFees hstart) hn
  obtain ⟨signer, action⟩ := m
  cases action with
  | start a =>
    obtain ⟨q', hr, hden⟩ := Transaction.start_escrows hperform
    rw [hr, Records.get?_insert, Records.get?_allocate] at hq
    split at hq
    · cases hq
      exact .inl (hden hn)
    · exact .inr ⟨q, hq, hn⟩
  | renew target =>
    obtain ⟨q', hr, hden⟩ := Transaction.renew_escrows hperform
    rw [hr, Records.get?_insert] at hq
    split at hq
    · cases hq
      exact .inl (hden hn)
    · exact .inr ⟨q, hq, hn⟩
  | _ => exact .inr (hrest (fun _ => nofun) fun _ => nofun)

theorem step_denominated (hs : e.records.Sound) (he : e.Denominated) {s : Step}
    (hk : e.KeepsDenom s) : (e.step s).Denominated := by
  intro id q hq hn
  rw [hk.1, hk.2]
  cases s using e.step_cases with
  | surround host => exact he id q hq hn
  | refused now m _ hstep => exact he id q (hstep ▸ hq) hn
  | accepted now m r e' hd hstep _ =>
    rw [hstep] at hq
    rcases deliver_escrows hs hd hq hn with hden | ⟨p, hp, hn⟩
    · exact hden
    · exact he id p hp hn

end Engine

end TrustPermit
