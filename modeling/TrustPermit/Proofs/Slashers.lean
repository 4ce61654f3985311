import Mathlib.Logic.Relation
import TrustPermit.Proofs.Outsiders
import TrustPermit.Proofs.Resolution

/-! # Who may slash

The controller of the registry may slash every permission under its schemas, and whoever holds an
active permission further up may slash the ones below. Nobody else may, and nobody takes more than
slashes have left of the deposit.
-/

namespace TrustPermit

/-- Neither revoked nor terminated nor slashed, and inside the validity. -/
structure Permission.ActiveAt (p : Permission) (t : Instant) : Prop where
  unrevoked : p.revoked = none
  unterminated : p.terminated = none
  unslashed : p.slashedDeposit = 0
  started : ∃ start, p.effectiveFrom = some start ∧ start ≤ t
  unexpired : ∀ finish, p.effectiveUntil = some finish → t < finish

theorem Permission.canActAt_iff {p : Permission} {t : Instant} :
    p.canActAt t = true ↔ p.ActiveAt t := by
  have hparts : p.canActAt t = true ↔ ((p.revoked = none ∧ p.terminated = none) ∧
      p.slashedDeposit = 0) ∧ (∃ start, p.effectiveFrom = some start ∧ start ≤ t) ∧
        ∀ finish, p.effectiveUntil = some finish → t < finish := by
    simp [canActAt, isBarred, hasStarted, Option.any_eq_true, Option.all_eq_true, and_assoc]
  rw [hparts]
  constructor
  · rintro ⟨⟨⟨hr, ht⟩, hs⟩, hb, he⟩
    exact ⟨hr, ht, hs, hb, he⟩
  · rintro ⟨hr, ht, hs, hb, he⟩
    exact ⟨⟨⟨hr, ht⟩, hs⟩, hb, he⟩

namespace Records

variable {r : Records} {a p : Permission} {rows : List Permission}

def Validates (r : Records) (a p : Permission) : Prop :=
  ∃ v, p.validator = some v ∧ r.get? v = some a

/-- A permission is further up on the way from another one to its root. -/
def Above (r : Records) : Permission → Permission → Prop := Relation.TransGen r.Validates

/-- The chain from the validator of a permission has what is above it. -/
theorem Chain.mem_iff (h : r.Chain p.validator rows) : a ∈ rows ↔ r.Above a p := by
  generalize hv : p.validator = start at h
  induction h generalizing p with
  | done =>
    refine iff_of_false List.not_mem_nil fun habove => ?_
    obtain ⟨b, -, v, hb, -⟩ := Relation.TransGen.tail'_iff.mp habove
    cases hv.symm.trans hb
  | @up v q rows hq _ ih =>
    rw [List.mem_cons, ih rfl]
    refine Iff.trans ?_ Relation.TransGen.tail'_iff.symm
    constructor
    · rintro (rfl | habove)
      · exact ⟨a, .refl, v, hv, hq⟩
      · exact ⟨q, habove.to_reflTransGen, v, hv, hq⟩
    · rintro ⟨b, hreach, w, hw, hb⟩
      cases hv.symm.trans hw
      cases hq.symm.trans hb
      rcases Relation.reflTransGen_iff_eq_or_transGen.mp hreach with rfl | habove
      · exact .inl rfl
      · exact .inr habove

theorem Above.id_lt (hs : r.Sound) (h : r.Above a p) {id : PermissionId}
    (hp : r.get? id = some p) : a.id < id := by
  induction h generalizing id with
  | single h =>
    obtain ⟨v, hv, ha⟩ := h
    exact hs.id_eq ha ▸ hs.validator_lt hp hv
  | tail _ h ih =>
    obtain ⟨v, hv, hb⟩ := h
    exact (ih hb).trans (hs.validator_lt hp hv)

end Records

namespace Engine

variable {e : Engine} {id : PermissionId} {p : Permission}

/-- A bound of three hops is enough to see all that is above a permission. -/
theorem exists_above (hs : e.records.Sound) (hh : e.records.IsHierarchy)
    (hd : 3 ≤ e.params.maxChainDepth) (hp : e.records.get? id = some p) :
    ∃ rows, e.above p = .ok rows ∧ ∀ a, a ∈ rows ↔ e.records.Above a p := by
  obtain ⟨_, _, hc, hlen, -⟩ := hh.exists_chain hs hp
  cases hc with
  | @up _ _ rows hp' hc =>
    cases hp.symm.trans hp'
    have hle : rows.length ≤ e.params.maxChainDepth + 1 := by
      have hlevel := p.kind.level_le
      rw [List.length_cons] at hlen
      omega
    exact ⟨rows, Records.chainOption_eq_ok_iff.mpr ⟨hc, hle⟩, fun _ => hc.mem_iff⟩

variable {x c : Address} {t : Instant} {m : Nat}

theorem checkSlasher_eq_ok_iff (hs : e.records.Sound) (hh : e.records.IsHierarchy)
    (hd : 3 ≤ e.params.maxChainDepth) (hp : e.records.get? id = some p)
    (hc : e.host.controller p.schemaId = .ok c) :
    e.checkSlasher x p t = .ok () ↔
      x = c ∨ ∃ a, e.records.Above a p ∧ a.grantee = x ∧ a.ActiveAt t := by
  obtain ⟨rows, hrows, hmem⟩ := exists_above hs hh hd hp
  simp only [checkSlasher, hc, hrows, Guard.ok_bind, ← hmem, ← Permission.canActAt_iff]
  split
  · rename_i hx
    simp [hx]
  · rename_i hx
    simp [Ne.symm hx]

theorem checkSlasher_eq_error (hs : e.records.Sound) (hh : e.records.IsHierarchy)
    (hd : 3 ≤ e.params.maxChainDepth) (hp : e.records.get? id = some p)
    (hc : e.host.controller p.schemaId = .ok c) (hx : e.checkSlasher x p t ≠ .ok ()) :
    e.checkSlasher x p t = .error (.unauthorized x .slash) := by
  obtain ⟨rows, hrows, -⟩ := exists_above hs hh hd hp
  simp only [checkSlasher, hc, hrows, Guard.ok_bind, demand] at hx ⊢
  split_ifs at hx ⊢ with hne hholds
  · exact absurd rfl hx
  · exact absurd rfl hx
  · rfl

theorem admitSlash_eq_ok_iff {q : Permission} : e.admitSlash x id m t = .ok q ↔
    e.records.get? id = some q ∧ e.checkSlasher x q t = .ok () ∧ m ≤ q.unslashed := by
  simp only [admitSlash, Guard.bind_eq_ok_iff, Records.require_eq_ok_iff, Guard.demand_eq_ok_iff,
    Guard.pure_eq_ok_iff]
  constructor
  · rintro ⟨_, hq, _, hx, _, hle, rfl⟩
    exact ⟨hq, hx, hle⟩
  · rintro ⟨hq, hx, hle⟩
    exact ⟨q, hq, (), hx, (), hle, rfl⟩

theorem deliver_slash_eq_ok_iff {r : Response} {e' : Engine} (hs : e.records.Sound)
    (hp : e.records.get? id = some p) (hm : m ≠ 0) :
    e.deliver t ⟨x, .slash id m⟩ = (.ok r, e') ↔
      (e.checkSlasher x p t = .ok () ∧ m ≤ p.unslashed ∧ p.grantee ∉ e.host.frozen ∧
        m ≤ e.host.ledger.deposit p.grantee ∧ e.host.ledger.burned + m < amountBound) ∧
      r = .empty ∧ e' = e.after (e.records.insert (p.slashedFor m x t))
        (e.host.ledger.slashed p.grantee m) [depositEvent (.slash id m) id m x t] := by
  have hcheck : Message.check ⟨x, .slash id m⟩ = .ok () := by
    simp [Message.check, Message.requireGiven, hs.id_ne_zero hp, hm]
  rw [deliver_eq_ok_iff, and_iff_right hcheck]
  simp only [Transaction.perform, Transaction.slash, Effect.bind_eq_ok_iff, Effect.ask_eq_ok_iff,
    admitSlash_eq_ok_iff, Transaction.onHost_eq_ok_iff, Host.burnDeposit_eq_ok_iff hm,
    Transaction.store_eq_ok_iff, Transaction.emit_eq_ok_iff, Effect.pure_eq_ok_iff]
  constructor
  · rintro ⟨q, _, ⟨⟨hq, hx, hle⟩, rfl⟩, _, _, ⟨_, ⟨hf, hb, hc, rfl⟩, rfl⟩, _, _, rfl, _, _, rfl,
      rfl, rfl⟩
    cases hp.symm.trans hq
    exact ⟨⟨hx, hle, hf, hb, hc⟩, rfl, rfl⟩
  · rintro ⟨⟨hx, hle, hf, hb, hc⟩, rfl, rfl⟩
    exact ⟨p, e, ⟨⟨hp, hx, hle⟩, rfl⟩, (), _, ⟨_, ⟨hf, hb, hc, rfl⟩, rfl⟩, (), _, rfl, (), _, rfl,
      rfl, rfl⟩

theorem deliver_slash_error {f : Fault} (hs : e.records.Sound)
    (hp : e.records.get? id = some p) (hm : m ≠ 0) (h : e.admitSlash x id m t = .error f) :
    e.deliver t ⟨x, .slash id m⟩ = (.error f, e) := by
  have hcheck : Message.check ⟨x, .slash id m⟩ = .ok () := by
    simp [Message.check, Message.requireGiven, hs.id_ne_zero hp, hm]
  have hperform : Transaction.perform ⟨x, .slash id m⟩ t e = .error f e :=
    Effect.bind_eq_error_iff.mpr (.inl (Effect.ask_eq_error_iff.mpr ⟨h, rfl⟩))
  exact deliver_eq_error hcheck hperform

end Engine

/-- The check of a slash lets in the controller of the registry and the holders of active
permissions above, and nobody else: neither the permission nor what is below it is above it. Who
passes takes what is left of the deposit at most, as much as the trust deposit yields, and no more
than the count of what was burned has room for; what is taken is marked on the row, added to that
count and gone from the trust deposit of its grantee, and nothing else is. -/
theorem slash_authority_is_exact {host : Host} {params : Params} {authority : Address} {e : Engine}
    (hn : Engine.new host params authority = .ok e) (steps : List Step)
    (hd : 3 ≤ (e.run steps).params.maxChainDepth) {id : PermissionId} {p : Permission}
    (hp : (e.run steps).records.get? id = some p) {schema : CredentialSchema}
    (hschema : (e.run steps).host.schemas.get? p.schemaId = some schema)
    {registry : TrustRegistry}
    (hregistry : (e.run steps).host.registries.get? schema.registryId = some registry)
    (x : Address) {m : Nat} (hm : m ≠ 0) (t : Instant) :
    ((e.run steps).checkSlasher x p t = .ok () ↔ x = registry.controller ∨
      ∃ a, (e.run steps).records.Above a p ∧ a.grantee = x ∧ a.ActiveAt t) ∧
    (¬ (e.run steps).records.Above p p ∧
      ∀ d, (e.run steps).records.Above p d → ¬ (e.run steps).records.Above d p) ∧
    ((e.run steps).checkSlasher x p t ≠ .ok () →
      (e.run steps).deliver t ⟨x, .slash id m⟩ = (.error (.unauthorized x .slash), e.run steps)) ∧
    ((e.run steps).checkSlasher x p t = .ok () →
      ((e.run steps).Accepts t ⟨x, .slash id m⟩ ↔
        m ≤ p.deposit - p.slashedDeposit ∧ p.grantee ∉ (e.run steps).host.frozen ∧
          m ≤ (e.run steps).host.ledger.deposit p.grantee ∧
          (e.run steps).host.ledger.burned + m < amountBound)) ∧
    ∀ r e', (e.run steps).deliver t ⟨x, .slash id m⟩ = (.ok r, e') →
      p.slashedDeposit + m ≤ p.deposit ∧
      e'.records.get? id = some { p with
        slashedDeposit := p.slashedDeposit + m
        slashed := some t
        slashedBy := some x
        modified := t } ∧
      (∀ other, other ≠ id → e'.records.get? other = (e.run steps).records.get? other) ∧
      e'.host.ledger.burned = (e.run steps).host.ledger.burned + m ∧
      ∀ a, e'.host.ledger.deposit a + (if a = p.grantee then m else 0) =
        (e.run steps).host.ledger.deposit a := by
  have hs := Engine.run_sound (Engine.new_sound hn) steps
  have hh := Engine.run_hierarchy (Engine.new_sound hn) (Engine.new_hierarchy hn) steps
  have hc : (e.run steps).host.controller p.schemaId = .ok registry.controller := by
    simp [Host.controller, Host.schema, hschema, hregistry]
  have hself : ¬ (e.run steps).records.Above p p := fun h =>
    (h.id_lt hs hp).ne (hs.id_eq hp)
  refine ⟨Engine.checkSlasher_eq_ok_iff hs hh hd hp hc, ⟨hself, fun d hpd hdp => ?_⟩,
    fun hx => ?_, fun hx => ?_, fun r e' hr => ?_⟩
  · exact hself (Relation.TransGen.trans hpd hdp)
  · refine Engine.deliver_slash_error hs hp hm ?_
    simp only [Engine.admitSlash, Records.require_eq_ok_iff.mpr hp, Guard.ok_bind,
      Engine.checkSlasher_eq_error hs hh hd hp hc hx, Guard.error_bind]
  · simp only [Engine.accepts_iff, Engine.deliver_slash_eq_ok_iff hs hp hm]
    constructor
    · rintro ⟨_, _, ⟨-, h⟩, -⟩
      exact h
    · intro h
      exact ⟨_, _, ⟨hx, h⟩, rfl, rfl⟩
  · obtain ⟨⟨-, hle, -, hb, -⟩, -, rfl⟩ := (Engine.deliver_slash_eq_ok_iff hs hp hm).mp hr
    have hid : (p.slashedFor m x t).id = id := show p.id = id from hs.id_eq hp
    unfold Permission.unslashed at hle
    refine ⟨by omega, ?_, ?_, rfl, ?_⟩
    · rw [Engine.records_after, Records.get?_insert, if_pos hid.symm]
      rfl
    · intro other hne
      rw [Engine.records_after, Records.get?_insert, if_neg (hid ▸ hne)]
    · intro a
      rw [Engine.host_after, Host.ledger_withLedger, Ledger.deposit_slashed]
      split
      · rename_i ha
        rw [ha, Nat.sub_add_cancel hb]
      · rfl

/-- The grantor may slash the issuer while it is active itself, and not once it was slashed. The
issuer may slash neither itself nor the grantor. -/
theorem slash_authority_is_exact_grantor :
    (Sample.engine.run Sample.founding).Accepts Sample.noon ⟨Sample.grantor, .slash 3 5⟩ ∧
      (∀ id ∈ [2, 3], ((Sample.engine.run Sample.founding).deliver Sample.noon
        ⟨Sample.issuer, .slash id 5⟩).1 = .error (.unauthorized Sample.issuer .slash)) ∧
      ((Sample.engine.run Sample.slashedGrantor).deliver Sample.noon
        ⟨Sample.grantor, .slash 3 5⟩).1 = .error (.unauthorized Sample.grantor .slash) := by
  have hknown : ∀ steps ∈ [Sample.founding, Sample.slashedGrantor],
      3 ≤ (Sample.engine.run steps).params.maxChainDepth ∧
      (Sample.engine.run steps).host.schemas.get? 1 = some Sample.schema ∧
      (Sample.engine.run steps).host.registries.get? 1 = some ⟨1, Sample.controller⟩ := by
    decide +kernel
  have hrow : ∀ steps ∈ [Sample.founding, Sample.slashedGrantor], ∀ id ∈ [2, 3],
      ((Sample.engine.run steps).records.get? id).map (·.schemaId) = some 1 := by
    decide +kernel
  -- Whoever does not pass the check in one of the runs is refused.
  have hrefused : ∀ steps ∈ [Sample.founding, Sample.slashedGrantor], ∀ id ∈ [2, 3], ∀ x,
      ((Sample.engine.run steps).records.get? id).all (fun p => decide
        ((Sample.engine.run steps).checkSlasher x p Sample.noon ≠ .ok ())) = true →
      ((Sample.engine.run steps).deliver Sample.noon ⟨x, .slash id 5⟩).1 =
        .error (.unauthorized x .slash) := by
    intro steps hsteps id hid x hx
    obtain ⟨hd, hschema, hregistry⟩ := hknown steps hsteps
    obtain ⟨p, hp, hsc⟩ := Option.map_eq_some_iff.mp (hrow steps hsteps id hid)
    rw [← hsc] at hschema
    obtain ⟨-, -, hno, -⟩ := slash_authority_is_exact Sample.engine_new steps hd hp hschema
      hregistry x (m := 5) (by decide) Sample.noon
    rw [hno (by simpa [hp] using hx)]
  refine ⟨?_, ?_, hrefused _ (.tail _ (.head _)) 3 (by decide) _ (by decide +kernel)⟩
  · have ha : ((Sample.engine.run Sample.founding).records.get? 2).map
        (fun a => (a.grantee, a.canActAt Sample.noon)) = some (Sample.grantor, true) := by
      decide +kernel
    have hp : ((Sample.engine.run Sample.founding).records.get? 3).map
        (fun p => (p.validator, p.grantee, decide (5 ≤ p.deposit - p.slashedDeposit))) =
          some (some 2, Sample.issuer, true) := by
      decide +kernel
    obtain ⟨a, ha, ha'⟩ := Option.map_eq_some_iff.mp ha
    obtain ⟨p, hp, hp'⟩ := Option.map_eq_some_iff.mp hp
    simp only [Prod.mk.injEq, decide_eq_true_eq] at ha' hp'
    obtain ⟨hd, hschema, hregistry⟩ := hknown _ (.head _)
    have hsc : p.schemaId = 1 := by simpa [hp] using hrow _ (.head _) 3 (by decide)
    rw [← hsc] at hschema
    obtain ⟨hiff, -, -, hpass, -⟩ := slash_authority_is_exact Sample.engine_new Sample.founding hd
      hp hschema hregistry Sample.grantor (m := 5) (by decide) Sample.noon
    refine (hpass (hiff.mpr (.inr ⟨a, .single ⟨2, hp'.1, ha⟩, ha'.1, ?_⟩))).mpr ⟨hp'.2.2, ?_⟩
    · exact Permission.canActAt_iff.mp ha'.2
    · rw [hp'.2.1]
      decide +kernel
  · intro id hid
    exact hrefused _ (.head _) id hid _ (by revert id; decide +kernel)

end TrustPermit
