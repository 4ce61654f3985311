import TrustPermit.Proofs.Releases

/-! # What backs the unslashed deposits

A slash may reach beyond the deposit of a row once the deposit is gone, and the row is overdrawn.
As long as no release takes slashed units, rows are overdrawn only by what terminations write off,
and the trust deposit of every account holds the unslashed deposits of all its rows together.
-/

namespace TrustPermit

namespace Permission

def overdrawn (p : Permission) : Nat := p.slashedDeposit - p.deposit

theorem unslashed_sub_overdrawn (p : Permission) :
    (p.unslashed : Int) - p.overdrawn = p.deposit - p.slashedDeposit := by
  unfold unslashed overdrawn
  omega

end Permission

namespace Engine

/-- What a message writes off of a row: its slashed part, when its termination is confirmed. -/
def writtenOffFor (m : Message) (p : Permission) : Nat :=
  if m.action = .confirmTermination p.id then p.slashedPart else 0

end Engine

namespace Permission

variable {e : Engine} {m : Message} {now : Instant} {p q : Permission}

theorem Becomes.overdrawn_le (h : p.Becomes e.records m now q)
    (hr : e.releasedFor m p ≤ p.unslashed) :
    q.overdrawn ≤ p.overdrawn + Engine.writtenOffFor m p := by
  suffices hq : q.overdrawn ≤ p.overdrawn ∨ m.action = .confirmTermination p.id ∧
      q.overdrawn ≤ p.overdrawn + p.slashedPart by
    rcases hq with hq | ⟨hm, hq⟩
    · exact hq.trans (Nat.le_add_right _ _)
    · rw [Engine.writtenOffFor, if_pos hm]
      exact hq
  cases h with
  | raised n => exact .inl (Nat.sub_le_sub_left (Nat.le_add_right _ n) _)
  | renewing => exact .inl (Nat.sub_le_sub_left (Nat.le_add_right _ _) _)
  | cancelled hm =>
    have hle : p.escrowedDeposit ≤ p.unslashed := by simpa [Engine.releasedFor, hm] using hr
    refine .inl ?_
    rw [overdrawn, (p.cancelled_deposit m.signer now).1, p.cancelled_slashedDeposit]
    unfold unslashed at hle
    unfold overdrawn
    omega
  | closed hm =>
    refine .inr ⟨hm, ?_⟩
    change p.slashedDeposit - 0 ≤ p.overdrawn + p.slashedPart
    unfold overdrawn slashedPart
    omega
  | @beside closing hm hc hne =>
    have hle : closing.shareUnder p.id ≤ p.unslashed := by
      simpa [Engine.releasedFor, hm, hc, Ne.symm hne] using hr
    refine .inl ?_
    change p.slashedDeposit - (p.deposit - closing.shareUnder p.id) ≤ p.overdrawn
    unfold unslashed at hle
    unfold overdrawn
    omega
  | @slashedFor amount hm hle =>
    refine .inl ?_
    change p.slashedDeposit + amount - p.deposit ≤ p.overdrawn
    unfold unslashed at hle
    unfold overdrawn
    omega
  | repaidInFull =>
    refine .inl ?_
    change 0 - p.deposit ≤ p.overdrawn
    omega
  | _ => exact .inl le_rfl

end Permission

namespace Records

def overdrawn (r : Records) (a : Address) : Nat :=
  r.total fun p => if p.grantee = a then p.overdrawn else 0

theorem unslashed_eq (r : Records) (a : Address) :
    (r.unslashed a : Int) = r.net a + r.overdrawn a := by
  rw [unslashed, overdrawn, ← total_natCast, ← total_natCast, net, ← total_add]
  refine total_congr fun _ p _ => ?_
  have h := p.unslashed_sub_overdrawn
  by_cases hg : p.grantee = a
  · simp only [Permission.netFor, hg, if_true]
    omega
  · simp [Permission.netFor, hg]

end Records

/-- What a message writes off of an account is what it writes off of the account's rows. -/
theorem Engine.total_writtenOffFor {e : Engine} (hs : e.records.Sound) (a : Address) (m : Message) :
    ((e.records.total fun p => if p.grantee = a then writtenOffFor m p else 0 : Nat) : Int) =
      e.writtenOff a m := by
  obtain ⟨signer, action⟩ := m
  cases action with
  | confirmTermination id =>
    cases hp : e.records.get? id with
    | none =>
      have hzero : (e.records.total fun p => if p.grantee = a then
          writtenOffFor ⟨signer, .confirmTermination id⟩ p else 0) =
            e.records.total fun _ => 0 := by
        apply Records.total_congr
        intro key p hk
        have hne : id ≠ p.id := by
          rintro rfl
          cases hp.symm.trans (hs.get?_id hk)
        simp [writtenOffFor, hne]
      rw [hzero, Records.total_zero fun _ => rfl]
      simp [writtenOff, hp]
    | some p =>
      rw [Records.total_single hs hp fun q hq => by simp [writtenOffFor, Ne.symm hq]]
      by_cases hg : p.grantee = a <;> simp [writtenOff, writtenOffFor, hp, hg, hs.id_eq hp]
  | _ =>
    rw [Records.total_zero fun p => by simp [writtenOffFor]]
    rfl

theorem Outcome.overdrawn_le {e e' : Engine} {now : Instant} {m : Message} {r : Response}
    (hs : e.records.Sound) (h : Outcome e now m r e')
    (hr : ∀ id p, e.records.get? id = some p → e.releasedFor m p ≤ p.unslashed) (a : Address) :
    (e'.records.overdrawn a : Int) ≤ e.records.overdrawn a + e.writtenOff a m := by
  have hdev := h.develops hs
  rw [← Engine.total_writtenOffFor hs, ← Nat.cast_add, Records.overdrawn, Records.overdrawn,
    ← Records.total_add]
  refine Int.ofNat_le.mpr (Table.total_le_total fun id => ?_)
  change ((e'.records.get? id).map _).getD 0 ≤ ((e.records.get? id).map _).getD 0
  cases hp : e.records.get? id with
  | none =>
    cases hq : e'.records.get? id with
    | none => exact le_rfl
    | some q =>
      -- A row starts unslashed.
      have hz := (hdev.fresh hq hp).slashedDeposit
      simp [Permission.overdrawn, hz]
  | some p =>
    obtain ⟨q, hq, hb⟩ := hdev.kept hp
    have hle := hb.overdrawn_le (hr id p hp)
    simp only [hq, Option.map_some, Option.getD_some, hb.sameOrigin.grantee]
    split
    · exact hle
    · exact le_rfl

theorem World.backsUnslashed_of {w : World}
    (h : ∀ a, (w.records.overdrawn a : Int) ≤ w.surplus a) : w.BacksUnslashed := by
  intro a
  have hle := h a
  have heq := w.records.unslashed_eq a
  unfold surplus at hle
  omega

namespace Engine

variable {host : Host} {params : Params} {authority : Address} {e : Engine} {steps : List Step}

theorem step_overdrawn_le {s : Step} (he : e.records.Sound ∧ e.records.Covered)
    (h : ∀ a, (e.records.overdrawn a : Int) ≤ e.surplus a) (hr : e.SparesSlashed s) (a : Address) :
    ((e.step s).records.overdrawn a : Int) ≤ (e.step s).surplus a := by
  have hrel := (releasesUnslashed_iff he.1).mpr hr
  cases s using e.step_cases with
  | surround host => exact h a
  | refused now m _ hstep => exact hstep.symm ▸ h a
  | accepted now m r e' hd hstep ho =>
    have hle := ho.overdrawn_le he.1 (hrel (accepts_iff.mpr ⟨r, e', hd⟩)) a
    have hsur := ho.surplus he.1 he.2 a
    have := h a
    rw [hstep]
    omega

/-- Unslashed deposits stay backed as long as no release takes slashed units. -/
theorem run_backsUnslashed (hl : host.ledger.HoldsOnlyBalances)
    (hn : new host params authority = .ok e) (hr : e.Along SparesSlashed steps) :
    (e.run steps).BacksUnslashed := by
  have hz := new_surplus hl hn
  have h₀ : ∀ a, (e.records.overdrawn a : Int) ≤ e.surplus a := by
    intro a
    rw [hz a]
    obtain ⟨-, rfl⟩ := new_eq_ok_iff.mp hn
    exact le_rfl
  refine World.backsUnslashed_of (run_along
    (P := fun e => (e.records.Sound ∧ e.records.Covered) ∧
      ∀ a, (e.records.overdrawn a : Int) ≤ e.surplus a) ⟨new_covered hn, h₀⟩ ?_ hr).2
  rintro e s ⟨he, h⟩ hs
  exact ⟨step_covered he, step_overdrawn_le he h hs⟩

theorem SlashFree.sparesSlashed (he : e.records.Sound ∧ e.records.Covered)
    (hu : e.records.Unslashed) (hf : e.SlashFree steps) : e.Along SparesSlashed steps := by
  induction steps generalizing e with
  | nil => trivial
  | cons s rest ih =>
    refine ⟨?_, ih (step_covered he) ((step_evolves he.1 hf.1).unslashed hu) hf.2⟩
    cases s with
    | surround host => trivial
    | deliver now m =>
      obtain ⟨signer, action⟩ := m
      cases action with
      | cancel id =>
        intro _ p hp
        rw [hu.unslashed_eq hp]
        exact (Nat.le_add_right _ _).trans (he.2 id p hp)
      | confirmTermination id =>
        intro _ p hp v hv q hq
        rw [hu.unslashed_eq hq]
        exact he.2.share_le hp hv hq
      | _ => exact fun _ => trivial

end Engine

end TrustPermit
