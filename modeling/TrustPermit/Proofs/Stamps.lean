import TrustPermit.Proofs.Paging
import TrustPermit.Proofs.Reach

/-! # Times of modification

A client keeps its copy of the permissions up to date by asking for those modified since it last
asked. It is shown the rows that messages named or created, but not those that they only reached,
unless these were modified since for another reason.
-/

namespace TrustPermit

/-- A row has the time of a message that names or creates it, and else the time that it had. -/
theorem Outcome.modified {e e' : Engine} {now : Instant} {m : Message} {r : Response}
    (hs : e.records.Sound) (hc : e.records.Covered) (h : Outcome e now m r e') {id : PermissionId}
    {q : Permission} (hq : e'.records.get? id = some q) :
    q.modified = now ∧ (m.action.target? = some id ∨ e.records.get? id = none) ∨
      m.action.target? ≠ some id ∧ ∃ p, e.records.get? id = some p ∧ q.modified = p.modified ∧
        (q = p ∨ p.ReachedBy e m) := by
  by_cases ht : m.action.target? = some id
  · obtain ⟨q', hq', hnow⟩ := (h.marks hs).named ht
    cases hq.symm.trans hq'
    exact .inl ⟨hnow, .inl ht⟩
  · cases hp : e.records.get? id with
    | none => exact .inl ⟨((h.develops hs).fresh hq hp).modified, .inr rfl⟩
    | some p =>
      obtain ⟨q', hq', hb⟩ := h.bystands hs hc hp ht
      cases hq.symm.trans hq'
      have hmodified : q.modified = p.modified := by rw [hb.same]
      refine .inr ⟨ht, p, rfl, hmodified, ?_⟩
      obtain hsame | hr := (h.marks hs).other hp ht
      · exact .inl (Option.some.inj (hq.symm.trans hsame))
      · exact .inr hr

theorem Engine.mem_permissions_iff {e : Engine} (hs : e.records.Sound) {since : Instant}
    {size : Nat} (h₀ : 0 < size) (h₁ : size ≤ e.params.maxPageSize) :
    ∃ rows, e.permissions ⟨some since, some size⟩ = .ok rows ∧ (rows.length < size →
      ∀ p, p ∈ rows ↔ e.records.get? p.id = some p ∧ since < p.modified) := by
  refine ⟨_, shows_permissions hs h₀ h₁ (some since), fun hroom p => ?_⟩
  rw [take_of_short hroom, mem_later_some, (byModified_perm _ _).mem_iff, Records.mem_rows_iff]
  apply and_congr_left'
  constructor
  · rintro ⟨id, hp⟩
    exact hs.get?_id hp
  · intro hp
    exact ⟨p.id, hp⟩

theorem Engine.permissions_eq_nil {e : Engine} (hs : e.records.Sound) {since : Instant}
    {size : Nat} (h₀ : 0 < size) (h₁ : size ≤ e.params.maxPageSize)
    (h : ∀ p ∈ e.records.permissions.values, p.modified ≤ since) :
    e.permissions ⟨some since, some size⟩ = .ok [] := by
  rw [shows_permissions hs h₀ h₁ (some since)]
  have hnone : later (·.modified) (some since) (byModified (fun p : Permission =>
      (p.modified, p.id)) e.records.permissions.values) = [] := by
    refine List.eq_nil_iff_forall_not_mem.mpr fun p hp => ?_
    obtain ⟨hmem, hlt⟩ := mem_later_some.mp hp
    exact (h p ((byModified_perm _ _).mem_iff.mp hmem)).not_gt hlt
  rw [hnone, List.take_nil]

/-- After an accepted message a row has its time just if the message named or created it, or the
row had that time before. Of the other rows only those that the message reached are changed, and
they keep their times. So a client that asks for what was modified since an earlier time is shown a
row just if the message named or created it, or the row was modified since before the message. -/
theorem changed_rows_are_shown_iff {host : Host} {params : Params} {authority : Address}
    {e₀ : Engine} (hn : Engine.new host params authority = .ok e₀) (steps : List Step)
    {now : Instant} {m : Message} {r : Response} {e' : Engine}
    (hd : (e₀.run steps).deliver now m = (.ok r, e')) {id : PermissionId} {q : Permission}
    (hq : e'.records.get? id = some q) :
    (q.modified = now ↔ m.action.target? = some id ∨
      ∀ p, (e₀.run steps).records.get? id = some p → p.modified = now) ∧
    (∀ p, (e₀.run steps).records.get? id = some p → m.action.target? ≠ some id →
      q.modified = p.modified ∧ (q ≠ p → p.ReachedBy (e₀.run steps) m)) ∧
    ∀ since, since < now → ∀ size, 0 < size → size ≤ e'.params.maxPageSize →
      ∃ rows, e'.permissions ⟨some since, some size⟩ = .ok rows ∧ (rows.length < size →
        (q ∈ rows ↔ m.action.target? = some id ∨
          ∀ p, (e₀.run steps).records.get? id = some p → since < p.modified)) := by
  obtain ⟨hs, hc⟩ := Engine.run_covered hn steps
  have ho := Engine.deliver_ok hd
  have hs' := ho.sound hs
  have hrow : e'.records.get? q.id = some q := hs'.get?_id hq
  -- What holds of the new time and what holds of a row's old one decide the same way.
  have htimes {P : Instant → Prop} (hnow : P now) : P q.modified ↔
      m.action.target? = some id ∨ ∀ p, (e₀.run steps).records.get? id = some p → P p.modified := by
    obtain ⟨hstamp, hnamed⟩ | ⟨ht, p, hp, hmodified, -⟩ := ho.modified hs hc hq
    · rw [hstamp]
      exact iff_of_true hnow (hnamed.imp_right fun hnone p hp => by cases hnone.symm.trans hp)
    · rw [hmodified, or_iff_right ht]
      constructor
      · intro h p' hp'
        cases hp.symm.trans hp'
        exact h
      · intro h
        exact h p hp
  refine ⟨htimes (P := (· = now)) rfl, fun p hp ht => ?_, fun since hsince size h₀ h₁ => ?_⟩
  · obtain ⟨-, hnamed⟩ | ⟨-, p', hp', hmodified, hr⟩ := ho.modified hs hc hq
    · exact absurd (hnamed.resolve_left ht) (by simp [hp])
    · cases hp.symm.trans hp'
      exact ⟨hmodified, hr.resolve_left⟩
  · obtain ⟨rows, hrows, hmem⟩ := Engine.mem_permissions_iff hs' h₀ h₁
    refine ⟨rows, hrows, fun hroom => ?_⟩
    rw [hmem hroom q, and_iff_right hrow]
    exact htimes hsince

/-- A day after its founding the grantor is slashed, and shown to whoever asks for what is new. -/
theorem changed_rows_are_shown_iff_slash :
    ∃ r e' q, (Sample.engine.run Sample.founding).deliver (Sample.inDays 1)
        ⟨Sample.controller, .slash 2 10⟩ = (.ok r, e') ∧
      e'.records.get? 2 = some q ∧ q.modified = Sample.inDays 1 ∧
      ∃ rows, e'.permissions ⟨some Sample.noon, some 8⟩ = .ok rows ∧
        (rows.length < 8 → q ∈ rows) := by
  have ha : (Sample.engine.run Sample.founding).Accepts (Sample.inDays 1)
      ⟨Sample.controller, .slash 2 10⟩ := by decide +kernel
  obtain ⟨r, e', hd⟩ := Engine.accepts_iff.mp ha
  have hstep : (Sample.engine.run Sample.founding).step (.deliver (Sample.inDays 1)
      ⟨Sample.controller, .slash 2 10⟩) = e' := by rw [Engine.step, hd]
  have hrow : (e'.records.get? 2).isSome = true := by
    rw [← hstep]
    decide +kernel
  have hsize : 8 ≤ e'.params.maxPageSize := by
    rw [← hstep]
    decide +kernel
  obtain ⟨q, hq⟩ := Option.isSome_iff_exists.mp hrow
  obtain ⟨hnow, -, hshown⟩ :=
    changed_rows_are_shown_iff Sample.engine_new Sample.founding hd hq
  obtain ⟨rows, hrows, hmem⟩ := hshown Sample.noon (by decide +kernel) 8 (by decide) hsize
  exact ⟨r, e', q, hd, hq, hnow.mpr (.inl rfl), rows, hrows, fun hroom =>
    (hmem hroom).mpr (.inl rfl)⟩

/-- A day after its founding the grantor is paid for an exchange, and nobody who asks for what is
new is shown any row. -/
theorem paid_rows_are_not_shown :
    ∃ r e' p q, (Sample.engine.run Sample.founding).deliver (Sample.inDays 1)
        ⟨Sample.issuer, .exchange ⟨"s", 3, 0, 3, 0⟩⟩ = (.ok r, e') ∧
      (Sample.engine.run Sample.founding).records.get? 2 = some p ∧
      e'.records.get? 2 = some q ∧ p.deposit < q.deposit ∧ q.modified = Sample.noon ∧
      e'.permissions ⟨some Sample.noon, some 8⟩ = .ok [] := by
  have ha : (Sample.engine.run Sample.founding).Accepts (Sample.inDays 1)
      ⟨Sample.issuer, .exchange ⟨"s", 3, 0, 3, 0⟩⟩ := by decide +kernel
  obtain ⟨r, e', hd⟩ := Engine.accepts_iff.mp ha
  have hstep : (Sample.engine.run Sample.founding).step (.deliver (Sample.inDays 1)
      ⟨Sample.issuer, .exchange ⟨"s", 3, 0, 3, 0⟩⟩) = e' := by rw [Engine.step, hd]
  have hbefore : ((Sample.engine.run Sample.founding).records.get? 2).map (·.deposit) =
      some 30 := by decide +kernel
  have hafter : (e'.records.get? 2).map (fun q => (q.deposit, q.modified)) =
      some (36, Sample.noon) := by
    rw [← hstep]
    decide +kernel
  have hrows : 8 ≤ e'.params.maxPageSize ∧
      ∀ p ∈ e'.records.permissions.values, p.modified ≤ Sample.noon := by
    rw [← hstep]
    decide +kernel
  obtain ⟨p, hp, hdeposit⟩ := Option.map_eq_some_iff.mp hbefore
  obtain ⟨q, hq, hfacts⟩ := Option.map_eq_some_iff.mp hafter
  simp only [Prod.mk.injEq] at hfacts
  obtain ⟨hdeposit', hmodified⟩ := hfacts
  have hs' := (Engine.deliver_ok hd).sound (Engine.run_sound (Engine.new_sound Sample.engine_new)
    Sample.founding)
  refine ⟨r, e', p, q, hd, hp, hq, ?_, hmodified,
    Engine.permissions_eq_nil hs' (by decide) hrows.1 hrows.2⟩
  rw [hdeposit, hdeposit']
  decide

end TrustPermit
