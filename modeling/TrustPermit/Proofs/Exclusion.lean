import TrustPermit.Proofs.Backing

/-! # Fees and excluded permissions

An exchange pays the permissions that the beneficiary search found, and the search leaves out
those that are revoked, terminated or slashed. A consent pays the validator of the request without
a search, so a validator that was excluded since the request is paid all the same.
-/

namespace TrustPermit

theorem Permission.isBarred_eq_false_iff {p : Permission} :
    p.isBarred = false ↔ p.revoked = none ∧ p.terminated = none ∧ p.slashedDeposit = 0 := by
  simp [isBarred, and_assoc]

namespace Records

variable {r : Records} {b : Permission}

theorem isBarred_of_root? {schemaId : Nat} (h : r.root? schemaId = some b) :
    b.isBarred = false := by
  have hb := List.find?_some h
  simp only [Bool.and_eq_true, Bool.not_eq_true'] at hb
  exact hb.2

theorem isBarred_of_mem_payable {rows : List Permission} (h : b ∈ payable rows) :
    b.isBarred = false := by
  have hb := (List.mem_filter.mp (mem_firstOccurrences h)).2
  simpa using hb

theorem isBarred_of_mem_beneficiaries {schemas : Table Nat CredentialSchema}
    {issuer verifier : Option PermissionId} {maxDepth : Nat} {rows : List Permission}
    (h : r.beneficiaries schemas issuer verifier maxDepth = .ok rows) (hb : b ∈ rows) :
    b.isBarred = false := by
  simp only [beneficiaries, Guard.bind_eq_ok_iff] at h
  obtain ⟨_, -, _, -, schemaId, -, _, -, h⟩ := h
  split at h
  · cases h
    exact isBarred_of_root? (Option.mem_toList.mp hb)
  · simp only [Guard.bind_eq_ok_iff, Guard.pure_eq_ok_iff] at h
    obtain ⟨_, -, _, -, rfl⟩ := h
    exact isBarred_of_mem_payable hb

end Records

theorem Engine.isBarred_of_mem_admitPayment {e : Engine} {payer : Address} {x : Exchange}
    {rows : List Permission} {b : Permission} (h : e.admitPayment payer x = .ok rows)
    (hb : b ∈ rows) : b.isBarred = false := by
  simp only [admitPayment, Guard.bind_eq_ok_iff, Guard.pure_eq_ok_iff] at h
  obtain ⟨_, hr, _, -, _, -, rfl⟩ := h
  exact Records.isBarred_of_mem_beneficiaries hr hb

theorem Settles.beneficiary {t : SettlementTerms} {bs : List Permission} {w w' : World}
    {lines : List Payout} (h : Settles t bs w lines w') {line : Payout} (hl : line ∈ lines) :
    ∃ b ∈ bs, line.beneficiary = b.id := by
  induction h with
  | nil => cases hl
  | skip _ _ ih =>
    obtain ⟨b, hb, he⟩ := ih hl
    exact ⟨b, List.mem_cons_of_mem _ hb, he⟩
  | pay _ hid _ _ _ _ ih =>
    rcases List.mem_cons.mp hl with rfl | hl
    · exact ⟨_, List.mem_cons_self, hid⟩
    · obtain ⟨b, hb, he⟩ := ih hl
      exact ⟨b, List.mem_cons_of_mem _ hb, he⟩

theorem PermissionId.toString_inj {i j : PermissionId} (h : toString i = toString j) : i = j := by
  have hd : Nat.toDigits 10 i = Nat.toDigits 10 j := by
    rw [← Nat.toList_repr, ← Nat.toList_repr]
    exact congrArg String.toList h
  rw [← Nat.ofDigitChars_ten_toDigits (n := i), hd, Nat.ofDigitChars_ten_toDigits]

@[simp] theorem Event.kind_attr (e : Event) (key value : String) :
    (e.attr key value).kind = e.kind := rfl

namespace Payout

variable (line : Payout) (kind : FeeKind) (executor : Option PermissionId)

theorem event_kind : (line.event kind executor).kind = "settle_fee" := by
  cases executor <;> rfl

theorem event_beneficiary : (line.event kind executor).attribute? "beneficiary_perm_id" =
    some (toString line.beneficiary) := by
  cases executor <;> rfl

end Payout

theorem Action.name_ne_settle (a : Action) : a.name ≠ "settle_fee" := by
  cases a <;> simp [name]

namespace Engine

/-- Should a message be a consent that pays fees, the validator that it pays is not excluded. -/
def PayeeStands (e : Engine) (m : Message) : Prop :=
  ∀ id terms p v q, m.action = .validate id terms → e.records.get? id = some p →
    p.escrowedFees ≠ 0 → p.validator = some v → e.records.get? v = some q → q.isBarred = false

def AllStand (e : Engine) (lines : List Payout) : Prop :=
  ∀ line ∈ lines, ∃ p, e.records.get? line.beneficiary = some p ∧ p.isBarred = false

end Engine

/-- A message reports its payouts and then itself. -/
theorem Outcome.reported {e e' : Engine} {now : Instant} {m : Message} {r : Response}
    (hs : e.records.Sound) (h : Outcome e now m r e') :
    ∃ (lines : List Payout) (kind : FeeKind) (executor : Option PermissionId) (own : Event),
      e'.events = e.events ++ (lines.map (·.event kind executor) ++ [own]) ∧
        own.kind = m.action.name ∧ (e.AllStand lines ↔ e.PayeeStands m) := by
  cases h with
  | @consent signer id terms p windowEnd ha hz hd =>
    refine ⟨[], .validation, none, _, rfl, rfl, iff_of_true (by simp [Engine.AllStand]) ?_⟩
    intro id' terms' p' v q hm hp hf _ _
    cases hm
    cases hp.symm.trans (World.admitConsent_ok ha).1
    exact absurd hz hf
  | @paidConsent signer id terms p windowEnd v validator line ha hn hv hg hb hf hc hd =>
    have hp := (World.admitConsent_ok ha).1
    refine ⟨[line], .validation, some p.id, _, rfl, rfl, ?_⟩
    have hrow : e.records.get? line.beneficiary = some validator := by
      rw [hb, hs.get?_id hg]
    constructor
    · intro hall id' terms' p' v' q hm hp' _ hv' hq
      cases hm
      cases hp.symm.trans hp'
      cases hv.symm.trans hv'
      cases hg.symm.trans hq
      obtain ⟨b, hb, hst⟩ := hall line List.mem_cons_self
      cases hb.symm.trans hrow
      exact hst
    · intro hpayee line' hl
      obtain rfl := List.mem_singleton.mp hl
      exact ⟨validator, hrow, hpayee id terms p v validator rfl hp hn hv hg⟩
  | @exchange signer x s beneficiaries receipt w ha hx hb hw =>
    refine ⟨receipt.lines, x.feeKind, x.executor?, _, rfl, rfl, iff_of_true ?_ ?_⟩
    · intro line hl
      obtain ⟨b, hm, he⟩ := (Transfer.settle_ok hw).2.2.beneficiary hl
      obtain ⟨id, hid⟩ := Engine.mem_admitPayment hb hm
      exact ⟨b, by rw [he, hs.get?_id hid], Engine.isBarred_of_mem_admitPayment hb hm⟩
    · intro _ _ _ _ _ hm
      cases hm
  | _ =>
    refine ⟨[], .validation, none, _, rfl, rfl, iff_of_true (by simp [Engine.AllStand]) ?_⟩
    intro _ _ _ _ _ hm
    cases hm

/-- A message pays fees to permissions that are neither revoked nor terminated nor slashed, unless
it is a consent whose validator is. -/
theorem fees_to_permissions_in_standing_iff {host : Host} {params : Params} {authority : Address}
    {e e' : Engine} (hn : Engine.new host params authority = .ok e) (steps : List Step)
    {now : Instant} {m : Message} {r : Response}
    (hd : (e.run steps).deliver now m = (.ok r, e')) :
    ∃ reported, e'.events = (e.run steps).events ++ reported ∧
      ((∀ event ∈ reported, event.kind = "settle_fee" → ∃ id p,
          event.attribute? "beneficiary_perm_id" = some (toString id) ∧
          (e.run steps).records.get? id = some p ∧
          p.revoked = none ∧ p.terminated = none ∧ p.slashedDeposit = 0) ↔
        (e.run steps).PayeeStands m) := by
  obtain ⟨lines, kind, executor, own, he, hk, hiff⟩ :=
    (Engine.deliver_ok hd).reported (Engine.run_covered hn steps).1
  refine ⟨_, he, Iff.trans ?_ hiff⟩
  constructor
  · intro hall line hl
    obtain ⟨id, p, hid, hp, hst⟩ := hall (line.event kind executor)
      (List.mem_append_left _ (List.mem_map_of_mem hl)) (line.event_kind kind executor)
    rw [line.event_beneficiary] at hid
    have heq : line.beneficiary = id := PermissionId.toString_inj (Option.some.inj hid)
    exact ⟨p, heq ▸ hp, Permission.isBarred_eq_false_iff.mpr hst⟩
  · intro hall event hm hkind
    rcases List.mem_append.mp hm with hm | hm
    · obtain ⟨line, hl, rfl⟩ := List.mem_map.mp hm
      obtain ⟨p, hp, hst⟩ := hall line hl
      exact ⟨line.beneficiary, p, line.event_beneficiary kind executor, hp,
        Permission.isBarred_eq_false_iff.mp hst⟩
    · obtain rfl := List.mem_singleton.mp hm
      exact absurd (hk.symm.trans hkind) m.action.name_ne_settle

/-- An exchange pays the issuer and those above it. -/
theorem fees_to_permissions_in_standing_iff_exchange :
    (Sample.engine.run Sample.founding).PayeeStands
        ⟨Sample.issuer, .exchange ⟨"s", 3, 0, 3, 0⟩⟩ ∧
      ∃ reported, ((Sample.engine.run Sample.founding).deliver Sample.noon
          ⟨Sample.issuer, .exchange ⟨"s", 3, 0, 3, 0⟩⟩).2.events =
          (Sample.engine.run Sample.founding).events ++ reported ∧
        ∀ event ∈ reported, event.kind = "settle_fee" → ∃ id p,
          event.attribute? "beneficiary_perm_id" = some (toString id) ∧
          (Sample.engine.run Sample.founding).records.get? id = some p ∧
          p.revoked = none ∧ p.terminated = none ∧ p.slashedDeposit = 0 := by
  have hpayee : (Sample.engine.run Sample.founding).PayeeStands
      ⟨Sample.issuer, .exchange ⟨"s", 3, 0, 3, 0⟩⟩ := by
    intro _ _ _ _ _ hm
    cases hm
  have hd : ((Sample.engine.run Sample.founding).deliver Sample.noon
      ⟨Sample.issuer, .exchange ⟨"s", 3, 0, 3, 0⟩⟩).1 = .ok (.sessionUpdated "s" 1) := by
    decide +kernel
  generalize hout : (Sample.engine.run Sample.founding).deliver Sample.noon
    ⟨Sample.issuer, .exchange ⟨"s", 3, 0, 3, 0⟩⟩ = out at hd ⊢
  obtain ⟨res, e'⟩ := out
  subst hd
  obtain ⟨reported, he, hiff⟩ := fees_to_permissions_in_standing_iff Sample.engine_new
    Sample.founding hout
  exact ⟨hpayee, reported, he, hiff.mpr hpayee⟩

def Sample.revokedRoot : List Step :=
  founding.take 2 ++ [signed controller (.revoke 1)]

/-- The consent of a revoked root is accepted and pays the root. -/
theorem revoked_root_receives_fee :
    ((Sample.engine.run Sample.revokedRoot).deliver Sample.noon
        ⟨Sample.controller, .validate 2 (Sample.terms 0 0)⟩).1 = .ok .empty ∧
      (((Sample.engine.run Sample.revokedRoot).deliver Sample.noon
          ⟨Sample.controller, .validate 2 (Sample.terms 0 0)⟩).2.events.drop
          (Sample.engine.run Sample.revokedRoot).events.length).map
          (fun event => (event.kind, event.attribute? "beneficiary_perm_id")) =
        [("settle_fee", some "1"), ("set_permission_vp_to_validated", none)] ∧
      ((Sample.engine.run Sample.revokedRoot).records.get? 1).map (·.revoked) =
        some (some Sample.noon) := by
  decide +kernel

end TrustPermit
