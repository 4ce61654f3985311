import TrustPermit.Proofs.Table
import TrustPermit.Records

/-! # Rows and their totals

How lookups and totals of the permissions change with each way of writing rows, and the shape
that the rows keep: ids, pointers to validators, and escrow only while a request is pending.
-/

namespace TrustPermit

namespace Permission

/-- What a permission is from its creation on. -/
structure SameOrigin (p q : Permission) : Prop where
  id : q.id = p.id
  schemaId : q.schemaId = p.schemaId
  kind : q.kind = p.kind
  did : q.did = p.did
  grantee : q.grantee = p.grantee
  validator : q.validator = p.validator
  created : q.created = p.created
  createdBy : q.createdBy = p.createdBy

namespace SameOrigin

variable (p : Permission)

theorem refl : p.SameOrigin p := ⟨rfl, rfl, rfl, rfl, rfl, rfl, rfl, rfl⟩

theorem trans {p q s : Permission} (h : p.SameOrigin q) (h' : q.SameOrigin s) : p.SameOrigin s where
  id := h'.id.trans h.id
  schemaId := h'.schemaId.trans h.schemaId
  kind := h'.kind.trans h.kind
  did := h'.did.trans h.did
  grantee := h'.grantee.trans h.grantee
  validator := h'.validator.trans h.validator
  created := h'.created.trans h.created
  createdBy := h'.createdBy.trans h.createdBy

theorem renewing (fee deposit : Nat) (now : Instant) :
    p.SameOrigin (p.renewing fee deposit now) := ⟨rfl, rfl, rfl, rfl, rfl, rfl, rfl, rfl⟩

theorem granted (t : Terms) (windowEnd : Option Instant) (share : Nat) (now : Instant) :
    p.SameOrigin (p.granted t windowEnd share now) := ⟨rfl, rfl, rfl, rfl, rfl, rfl, rfl, rfl⟩

theorem cancelled (actor : Address) (now : Instant) : p.SameOrigin (p.cancelled actor now) := by
  unfold Permission.cancelled
  split <;> exact ⟨rfl, rfl, rfl, rfl, rfl, rfl, rfl, rfl⟩

theorem extendedTo (finish : Instant) (actor : Address) (now : Instant) :
    p.SameOrigin (p.extendedTo finish actor now) := ⟨rfl, rfl, rfl, rfl, rfl, rfl, rfl, rfl⟩

theorem withdrawn (actor : Address) (now : Instant) : p.SameOrigin (p.withdrawn actor now) :=
  ⟨rfl, rfl, rfl, rfl, rfl, rfl, rfl, rfl⟩

theorem leaving (now : Instant) : p.SameOrigin (p.leaving now) :=
  ⟨rfl, rfl, rfl, rfl, rfl, rfl, rfl, rfl⟩

theorem closed (actor : Address) (now : Instant) : p.SameOrigin (p.closed actor now) :=
  ⟨rfl, rfl, rfl, rfl, rfl, rfl, rfl, rfl⟩

theorem slashedFor (amount : Nat) (actor : Address) (now : Instant) :
    p.SameOrigin (p.slashedFor amount actor now) := ⟨rfl, rfl, rfl, rfl, rfl, rfl, rfl, rfl⟩

theorem repaidInFull (actor : Address) (now : Instant) :
    p.SameOrigin (p.repaidInFull actor now) := ⟨rfl, rfl, rfl, rfl, rfl, rfl, rfl, rfl⟩

theorem raiseDeposit (n : Nat) : p.SameOrigin (p.raiseDeposit n) :=
  ⟨rfl, rfl, rfl, rfl, rfl, rfl, rfl, rfl⟩

theorem lowerDeposit (n : Nat) : p.SameOrigin (p.lowerDeposit n) :=
  ⟨rfl, rfl, rfl, rfl, rfl, rfl, rfl, rfl⟩

theorem withoutShare : p.SameOrigin p.withoutShare :=
  ⟨rfl, rfl, rfl, rfl, rfl, rfl, rfl, rfl⟩

end SameOrigin

theorem cancelled_deposit (p : Permission) (actor : Address) (now : Instant) :
    (p.cancelled actor now).deposit = p.deposit - p.escrowedDeposit ∧
      (p.cancelled actor now).escrowedDeposit = 0 ∧
      (p.cancelled actor now).validatorShare = p.validatorShare := by
  unfold cancelled
  split <;> exact ⟨rfl, rfl, rfl⟩

theorem cancelled_escrowedFees (p : Permission) (actor : Address) (now : Instant) :
    (p.cancelled actor now).escrowedFees = 0 := by
  unfold cancelled
  split <;> rfl

theorem cancelled_slashedDeposit (p : Permission) (actor : Address) (now : Instant) :
    (p.cancelled actor now).slashedDeposit = p.slashedDeposit := by
  unfold cancelled
  split <;> rfl

/-- Only a pending request has anything in escrow. -/
def EscrowIdle (p : Permission) : Prop :=
  p.state ≠ .pending → p.escrowedFees = 0 ∧ p.escrowedDeposit = 0

end Permission

namespace Records

variable {M : Type} [AddCancelCommMonoid M]

def total (r : Records) (f : Permission → M) : M := r.permissions.total f

def raisedBy (r : Records) (g : PermissionId → Nat) : Records :=
  { r with permissions := r.permissions.mapValues fun id p => p.raiseDeposit (g id) }

def shareReturned (r : Records) (p : Permission) : Records :=
  match p.validator with
  | some id => r.modify id (·.lowerDeposit p.validatorShare)
  | none => r

/-- The records after the confirmed termination of a row: the rows that it validated hold no share
of it, and its own share has left its validator's deposit. -/
def terminated (r : Records) (p : Permission) (actor : Address) (now : Instant) : Records :=
  ((r.clearShares p.id).shareReturned p).insert (p.closed actor now)

@[simp] theorem get?_allocate (r : Records) (entity : String) (id : PermissionId) :
    (r.allocate entity).get? id = r.get? id := rfl

theorem get?_stored {r : Records} {entity : String} {p q : Permission} {id : PermissionId}
    (h : ((r.allocate entity).insert p).get? id = some q) :
    id = p.id ∧ q = p ∨ r.get? id = some q := by
  simp only [get?_insert, get?_allocate] at h
  split at h
  · exact .inl ⟨‹_›, (Option.some.inj h).symm⟩
  · exact .inr h

@[simp] theorem get?_insertSession (r : Records) (s : Session) (id : PermissionId) :
    (r.insertSession s).get? id = r.get? id := rfl

@[simp] theorem get?_raisedBy (r : Records) (g : PermissionId → Nat) (id : PermissionId) :
    (r.raisedBy g).get? id = (r.get? id).map (·.raiseDeposit (g id)) := by
  simp [raisedBy, get?]

@[simp] theorem get?_clearShares (r : Records) (v id : PermissionId) :
    (r.clearShares v).get? id =
      (r.get? id).map fun p => if p.validator = some v then p.withoutShare else p := by
  simp [clearShares, get?]

theorem get?_clearShares_of {r : Records} {id : PermissionId} {p : Permission}
    (h : r.get? id = some p) (v : PermissionId) :
    ∃ q, (r.clearShares v).get? id = some q ∧ p.SameOrigin q ∧ q.deposit = p.deposit := by
  refine ⟨if p.validator = some v then p.withoutShare else p, by simp [h], ?_⟩
  split
  · exact ⟨.withoutShare p, rfl⟩
  · exact ⟨.refl p, rfl⟩

theorem get?_shareReturned (r : Records) (p : Permission) (id : PermissionId) :
    (r.shareReturned p).get? id =
      (r.get? id).map fun q =>
        if p.validator = some id then q.lowerDeposit p.validatorShare else q := by
  cases hv : p.validator with
  | none => simp [shareReturned, hv]
  | some v => by_cases h : v = id <;> simp [shareReturned, hv, h]

theorem get?_terminated (r : Records) (p : Permission) (actor : Address) (now : Instant) :
    (r.terminated p actor now).get? p.id = some (p.closed actor now) := by
  simp [terminated, show (p.closed actor now).id = p.id from rfl]

theorem mem_rows_iff {r : Records} {p : Permission} :
    p ∈ r.permissions.values ↔ ∃ id, r.get? id = some p := Table.mem_values_iff

theorem ext_get? {r s : Records} (h : ∀ id, r.get? id = s.get? id) :
    r.permissions = s.permissions := Table.ext_get? h

@[simp] theorem require_eq_ok_iff {r : Records} {id : PermissionId} {p : Permission} :
    r.require id = .ok p ↔ r.get? id = some p := by
  simp [require]

@[simp] theorem raisedBy_raisedBy (r : Records) (g g' : PermissionId → Nat) :
    (r.raisedBy g).raisedBy g' = r.raisedBy fun id => g id + g' id := by
  simp [raisedBy, Table.mapValues, Function.comp_def, Permission.raiseDeposit, Nat.add_assoc]

@[simp] theorem raisedBy_zero (r : Records) : r.raisedBy (fun _ => 0) = r := by
  simp [raisedBy, Table.mapValues, Permission.raiseDeposit]

theorem modify_raiseDeposit (r : Records) (id : PermissionId) (n : Nat) :
    r.modify id (·.raiseDeposit n) = r.raisedBy fun other => if other = id then n else 0 := by
  simp only [modify, raisedBy, Table.modify]
  congr 2
  funext other p
  by_cases h : id = other
  · simp [h]
  · simp [h, Ne.symm h, Permission.raiseDeposit]

@[simp] theorem modify_lowerDeposit_zero (r : Records) (id : PermissionId) :
    r.modify id (·.lowerDeposit 0) = r := by
  simp [modify, Table.modify, Table.mapValues, Permission.lowerDeposit]

theorem total_insert_new {r : Records} {p : Permission} (h : r.get? p.id = none)
    (f : Permission → M) : (r.insert p).total f = r.total f + f p := by
  have ht := r.permissions.total_insert p.id p f
  rw [show r.permissions.get? p.id = none from h] at ht
  simpa [total, insert] using ht

theorem total_insert_over {r : Records} {p q : Permission} (h : r.get? q.id = some p)
    (f : Permission → M) : (r.insert q).total f + f p = r.total f + f q := by
  have ht := r.permissions.total_insert q.id q f
  rw [show r.permissions.get? q.id = some p from h] at ht
  simpa [total, insert] using ht

theorem total_insert_same {r : Records} {p q : Permission} (h : r.get? q.id = some p)
    {f : Permission → M} (hf : f q = f p) : (r.insert q).total f = r.total f := by
  have ht := total_insert_over h f
  rw [hf] at ht
  exact add_right_cancel ht

theorem total_raisedBy {r : Records} {f : Permission → M}
    (hf : ∀ p n, f (p.raiseDeposit n) = f p) (g : PermissionId → Nat) :
    (r.raisedBy g).total f = r.total f := by
  simp only [total, raisedBy, Table.total_mapValues, hf]
  simp [Table.total, Table.values, Function.comp_def]

theorem total_modify {r : Records} {id : PermissionId} {p : Permission} (h : r.get? id = some p)
    (u : Permission → Permission) (f : Permission → M) :
    (r.modify id u).total f + f p = r.total f + f (u p) := by
  have he : r.permissions.modify id u = r.permissions.insert id (u p) := by
    apply Table.ext_get?
    intro other
    rw [Table.get?_modify, Table.get?_insert]
    by_cases ho : id = other
    · subst ho
      simp [show r.permissions.get? id = some p from h]
    · simp [ho, Ne.symm ho]
  have ht := r.permissions.total_insert id (u p) f
  rw [show r.permissions.get? id = some p from h, ← he] at ht
  simpa [total, modify] using ht

theorem total_clearShares (r : Records) (v : PermissionId) (f : Permission → M) :
    (r.clearShares v).total f =
      r.total fun p => f (if p.validator = some v then p.withoutShare else p) := by
  simp [total, clearShares, Table.total, Table.values, Table.mapValues, Function.comp_def]

theorem total_shareReturned (r : Records) (p : Permission) {f : Permission → M}
    (hf : ∀ q n, f (q.lowerDeposit n) = f q) : (r.shareReturned p).total f = r.total f := by
  unfold shareReturned
  split
  · simp only [total, modify, Table.modify, Table.total_mapValues]
    simp only [Table.total, Table.values, List.map_map]
    congr 2
    funext e
    simp only [Function.comp_apply]
    split
    · exact hf _ _
    · rfl
  · rfl

theorem total_congr {r : Records} {f g : Permission → M}
    (h : ∀ id p, r.get? id = some p → f p = g p) : r.total f = r.total g :=
  Table.total_congr fun p hp => by
    obtain ⟨id, hi⟩ := mem_rows_iff.mp hp
    exact h id p hi

theorem total_add (r : Records) (f g : Permission → M) :
    r.total (fun p => f p + g p) = r.total f + r.total g :=
  List.sum_map_add

theorem total_natCast (r : Records) (f : Permission → Nat) :
    r.total (fun p => (f p : Int)) = (r.total f : Nat) := by
  simp only [total, Table.total]
  induction r.permissions.values with
  | nil => rfl
  | cons p rest ih => simp [ih]

theorem le_total {r : Records} {id : PermissionId} {p : Permission} (h : r.get? id = some p)
    (f : Permission → Nat) : f p ≤ r.total f := Table.le_total h f

/-- The rows are stored under their ids, which were handed out; validators come before the
permissions that they validate. -/
structure Sound (r : Records) : Prop where
  id_eq {id p} : r.get? id = some p → p.id = id
  id_ne_zero {id p} : r.get? id = some p → id ≠ 0
  id_le {id p} : r.get? id = some p → id ≤ r.counter permissionCounter
  validator_lt {id p v} : r.get? id = some p → p.validator = some v → v < id
  validator_some {id p v} : r.get? id = some p → p.validator = some v → ∃ q, r.get? v = some q
  idle {id p} : r.get? id = some p → p.EscrowIdle

theorem empty_sound : empty.Sound := by
  constructor <;> exact fun h => by cases h

namespace Sound

variable {r r' : Records}

theorem keyed (hs : r.Sound) : r.permissions.Keyed (·.id) := fun _ _ => hs.id_eq

theorem get?_fresh (hs : r.Sound) {id : PermissionId}
    (hid : r.counter permissionCounter < id) : r.get? id = none :=
  Option.eq_none_iff_forall_ne_some.mpr fun _ hp => Nat.not_le.mpr hid (hs.id_le hp)

/-- Rows may change as long as they keep their origin and no escrow appears outside of a pending
request. -/
theorem of_rows (hs : r.Sound)
    (hc : r'.counter permissionCounter = r.counter permissionCounter)
    (hk : ∀ {id p}, r.get? id = some p → ∃ q, r'.get? id = some q)
    (hr : ∀ {id q}, r'.get? id = some q →
      ∃ p, r.get? id = some p ∧ p.SameOrigin q ∧ q.EscrowIdle) : r'.Sound where
  id_eq h := by
    obtain ⟨p, hp, ho, -⟩ := hr h
    exact ho.id.trans (hs.id_eq hp)
  id_ne_zero h := by
    obtain ⟨p, hp, -⟩ := hr h
    exact hs.id_ne_zero hp
  id_le h := by
    obtain ⟨p, hp, -⟩ := hr h
    exact hc ▸ hs.id_le hp
  validator_lt h hv := by
    obtain ⟨p, hp, ho, -⟩ := hr h
    exact hs.validator_lt hp (ho.validator ▸ hv)
  validator_some h hv := by
    obtain ⟨p, hp, ho, -⟩ := hr h
    obtain ⟨q, hq⟩ := hs.validator_some hp (ho.validator ▸ hv)
    exact hk hq
  idle h := by
    obtain ⟨p, -, -, hi⟩ := hr h
    exact hi

theorem insert_over (hs : r.Sound) {p q : Permission} (hp : r.get? p.id = some p)
    (ho : p.SameOrigin q) (hi : q.EscrowIdle) : (r.insert q).Sound := by
  refine hs.of_rows rfl (fun {id p'} h => ?_) (fun {id q'} h => ?_)
  · by_cases he : id = q.id <;> simp [he, h]
  · by_cases he : id = q.id
    · simp only [get?_insert, he, if_true, Option.some.injEq] at h
      subst h
      exact ⟨p, by rw [he, ho.id, hp], ho, hi⟩
    · simp only [get?_insert, he, if_false] at h
      exact ⟨q', h, .refl q', hs.idle h⟩

theorem raisedBy (hs : r.Sound) (g : PermissionId → Nat) : (r.raisedBy g).Sound := by
  refine hs.of_rows rfl (fun h => by simp [h]) fun {id q} h => ?_
  simp only [get?_raisedBy, Option.map_eq_some_iff] at h
  obtain ⟨p, hp, rfl⟩ := h
  exact ⟨p, hp, .raiseDeposit p _, (hs.idle hp :)⟩

theorem clearShares (hs : r.Sound) (v : PermissionId) : (r.clearShares v).Sound := by
  refine hs.of_rows rfl (fun h => by simp [h]) fun {id q} h => ?_
  simp only [get?_clearShares, Option.map_eq_some_iff] at h
  obtain ⟨p, hp, rfl⟩ := h
  refine ⟨p, hp, ?_⟩
  split
  · exact ⟨.withoutShare p, (hs.idle hp :)⟩
  · exact ⟨.refl p, hs.idle hp⟩

theorem shareReturned (hs : r.Sound) (p : Permission) : (r.shareReturned p).Sound := by
  have hc : (r.shareReturned p).counter permissionCounter = r.counter permissionCounter := by
    unfold Records.shareReturned
    split <;> rfl
  refine hs.of_rows hc (fun h => by simp [get?_shareReturned, h]) fun {id q} h => ?_
  simp only [get?_shareReturned, Option.map_eq_some_iff] at h
  obtain ⟨p', hp, rfl⟩ := h
  refine ⟨p', hp, ?_⟩
  split
  · exact ⟨.lowerDeposit p' _, (hs.idle hp :)⟩
  · exact ⟨.refl p', hs.idle hp⟩

theorem insertSession (hs : r.Sound) (s : Session) : (r.insertSession s).Sound :=
  hs.of_rows rfl (fun h => ⟨_, h⟩) fun {_ q} h => ⟨q, h, .refl q, hs.idle h⟩

theorem counter_allocate (r : Records) :
    (r.allocate permissionCounter).counter permissionCounter =
      r.counter permissionCounter + 1 := by
  simp [allocate, counter]

theorem insert_new (hs : r.Sound) {p : Permission}
    (hid : p.id = r.counter permissionCounter + 1)
    (hv : ∀ v, p.validator = some v → ∃ q, r.get? v = some q) (hi : p.EscrowIdle) :
    ((r.allocate permissionCounter).insert p).Sound := by
  have hc := counter_allocate r
  have hkeep : ∀ {id q}, r.get? id = some q →
      ((r.allocate permissionCounter).insert p).get? id = some q := by
    intro id q h
    have hne : id ≠ p.id := by
      intro he
      have hle := hs.id_le h
      rw [he, hid] at hle
      exact Nat.not_succ_le_self _ hle
    simp [h, hne]
  constructor
  · intro id q h
    rcases get?_stored h with ⟨rfl, rfl⟩ | h
    · rfl
    · exact hs.id_eq h
  · intro id q h
    rcases get?_stored h with ⟨rfl, rfl⟩ | h
    · exact hid ▸ Nat.succ_ne_zero _
    · exact hs.id_ne_zero h
  · intro id q h
    change id ≤ (r.allocate permissionCounter).counter permissionCounter
    rw [hc]
    rcases get?_stored h with ⟨rfl, rfl⟩ | h
    · exact hid.le
    · exact Nat.le_succ_of_le (hs.id_le h)
  · intro id q v h hq
    rcases get?_stored h with ⟨rfl, rfl⟩ | h
    · obtain ⟨w, hw⟩ := hv v hq
      exact hid ▸ Nat.lt_succ_of_le (hs.id_le hw)
    · exact hs.validator_lt h hq
  · intro id q v h hq
    rcases get?_stored h with ⟨rfl, rfl⟩ | h
    · obtain ⟨w, hw⟩ := hv v hq
      exact ⟨w, hkeep hw⟩
    · obtain ⟨w, hw⟩ := hs.validator_some h hq
      exact ⟨w, hkeep hw⟩
  · intro id q h
    rcases get?_stored h with ⟨rfl, rfl⟩ | h
    · exact hi
    · exact hs.idle h

end Sound

end Records

end TrustPermit
