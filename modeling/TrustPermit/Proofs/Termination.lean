import TrustPermit.Proofs.Accounts

/-! # The order of terminations

Two confirmations meet where one terminates the validator of the other. The share between them is
released once either way: out of the validator's deposit when the validated row goes first, with
it when the validator goes first. So a set of requested terminations can be confirmed in every
order, and the rows and trust deposits do not tell in which.
-/

namespace TrustPermit

namespace Ledger

def stake (l : Ledger) (a : Address) : Nat := l.deposit a + l.claim a

theorem stake_released {l : Ledger} {b : Address} {n : Nat} (hn : n ≤ l.deposit b) (a : Address) :
    (l.released b n).stake a = l.stake a := by
  rw [stake, stake, deposit_released, claim_released]
  by_cases h : a = b
  · subst h
    simp only [if_true]
    omega
  · simp [h]

theorem stake_terminated {l : Ledger} {p : Permission} {signer : Address}
    (h : l.Affords p signer) (a : Address) : (l.terminated p signer).stake a = l.stake a := by
  have hown := stake_released h.own a
  unfold terminated shareReturned
  split
  · rename_i hv
    exact (stake_released (h.share hv) a).trans hown
  · exact hown

end Ledger

namespace Permission

/-- What the confirmed termination of a row leaves of another. -/
def beside (p q : Permission) : Permission :=
  { q with
    deposit := q.deposit - p.shareUnder q.id
    validatorShare := if q.validator = some p.id then 0 else q.validatorShare }

/-- What the confirmed terminations of some rows leave of another, given what they hold as shares
of its deposit. -/
def spared (q : Permission) (ids : List PermissionId) (shares : Nat) : Permission :=
  { q with
    deposit := q.deposit - shares
    validatorShare := if q.validator.any (· ∈ ids) then 0 else q.validatorShare }

theorem shareUnder_beside {p q : Permission} {v : PermissionId} (h : v ≠ p.id) :
    (p.beside q).shareUnder v = q.shareUnder v := by
  by_cases hv : q.validator = some v
  · have hne : q.validator ≠ some p.id := fun hp => h (Option.some.inj (hv.symm.trans hp))
    simp [shareUnder, beside, hv, h]
  · simp [shareUnder, beside, hv]

theorem spared_beside (p q : Permission) (ids : List PermissionId) (n : Nat) :
    (p.beside q).spared ids n = q.spared (p.id :: ids) (p.shareUnder q.id + n) := by
  cases hv : q.validator with
  | none => simp [spared, beside, hv, Nat.sub_sub]
  | some v => by_cases hp : v = p.id <;> simp [spared, beside, hv, hp, Nat.sub_sub]

end Permission

namespace Records

def sharesOf (r : Records) (ids : List PermissionId) (v : PermissionId) : Nat :=
  (ids.map fun id => (r.get? id).elim 0 (·.shareUnder v)).sum

variable {r : Records} {p q : Permission} {id : PermissionId}

theorem sharesOf_cons (hp : r.get? id = some p) (ids : List PermissionId) (v : PermissionId) :
    r.sharesOf (id :: ids) v = p.shareUnder v + r.sharesOf ids v := by
  simp [sharesOf, hp]

theorem Sound.get?_terminated_of_ne (hs : r.Sound) (h : id ≠ p.id) (actor : Address)
    (now : Instant) :
    (r.terminated p actor now).get? id = (r.get? id).map p.beside := by
  simp only [terminated, get?_insert, show (p.closed actor now).id = p.id from rfl, h, if_false,
    get?_shareReturned, get?_clearShares, Option.map_map]
  cases hq : r.get? id with
  | none => rfl
  | some q =>
    obtain rfl := hs.id_eq hq
    simp only [Option.map_some, Function.comp_apply, Option.some.injEq]
    by_cases h₁ : q.validator = some p.id <;> by_cases h₂ : p.validator = some q.id <;>
      simp [Permission.beside, Permission.shareUnder, Permission.withoutShare,
        Permission.lowerDeposit, h₁, h₂]

theorem add_le_total {f : Permission → Nat} {j : PermissionId} (hs : r.Sound)
    (hp : r.get? id = some p) (hq : r.get? j = some q) (hne : j ≠ id) {p₀ : Permission}
    (h₀ : p₀.id = p.id) (hf : f p₀ = 0) : f p + f q ≤ r.total f := by
  have hins := total_insert_over (q := p₀) (h₀ ▸ hs.get?_id hp) f
  have hrow : (r.insert p₀).get? j = some q := by
    simp [h₀, hs.id_eq hp, hne, hq]
  have := le_total hrow f
  omega

theorem total_eq_of_rows {M : Type} [AddCancelCommMonoid M] {r r' : Records}
    {f g : Permission → M} (h : ∀ id, (r'.get? id).map f = (r.get? id).map g) :
    r'.total f = r.total g := by
  have ht : r'.permissions.mapValues (fun _ => f) = r.permissions.mapValues fun _ => g :=
    Table.ext_get? fun id => by
      rw [Table.get?_mapValues, Table.get?_mapValues]
      exact h id
  have := congrArg (fun t => Table.total t id) ht
  simpa [total, Table.total, Table.values, Table.mapValues, Function.comp_def] using this

end Records

def Records.unslashed (r : Records) (a : Address) : Nat :=
  r.total fun p => if p.grantee = a then p.unslashed else 0

namespace World

/-- The trust deposit of every account holds the unslashed deposits of its rows. -/
def BacksUnslashed (w : World) : Prop := ∀ a, w.records.unslashed a ≤ w.host.ledger.deposit a

namespace BacksUnslashed

variable {w : World} {id v : PermissionId} {p q : Permission}

theorem own (hw : w.BacksUnslashed) (hp : w.records.get? id = some p) :
    p.unslashed ≤ w.host.ledger.deposit p.grantee := by
  have hle := Records.le_total hp fun q => if q.grantee = p.grantee then q.unslashed else 0
  rw [if_pos rfl] at hle
  exact hle.trans (hw p.grantee)

theorem both (hw : w.BacksUnslashed) (hs : w.records.Sound) (hp : w.records.get? id = some p)
    (hq : w.records.get? v = some q) (hne : v ≠ id) (hg : q.grantee = p.grantee) :
    p.unslashed + q.unslashed ≤ w.host.ledger.deposit p.grantee := by
  have hclosed : (p.closed p.grantee p.created).unslashed = 0 := Nat.zero_sub _
  have hle := Records.add_le_total
    (f := fun x => if x.grantee = p.grantee then x.unslashed else 0) hs hp hq hne
    (show (p.closed p.grantee p.created).id = p.id from rfl) (by simp [hclosed])
  simp only [hg, if_true] at hle
  exact hle.trans (hw p.grantee)

theorem affords (hw : w.BacksUnslashed) (hs : w.records.Sound) (hp : w.records.get? id = some p)
    {a : Address} (ha : w.authorityOver p = .ok a)
    (hv : ∀ v q, p.validator = some v → w.records.get? v = some q →
      p.validatorShare ≤ q.unslashed) : w.host.ledger.Affords p a where
  own := hw.own hp
  share hsome := by
    obtain ⟨v, hv'⟩ := Option.isSome_iff_exists.mp hsome
    obtain ⟨q, hq, rfl⟩ := (authorityOver_validated_iff hv').mp ha
    have hle := hv v q hv' hq
    rw [Ledger.deposit_released]
    by_cases hg : q.grantee = p.grantee
    · have hboth := hw.both hs hp hq (hs.validator_lt hp hv').ne hg
      rw [if_pos hg, hg]
      omega
    · rw [if_neg hg]
      exact hle.trans (hw.own hq)

end BacksUnslashed

end World

namespace Engine

structure HasRoom (e : Engine) : Prop where
  unfrozen : e.host.frozen = []
  small : ∀ id p, e.records.get? id = some p → p.deposit < deltaBound
  fits : ∀ a, e.host.ledger.stake a < amountBound

theorem HasRoom.deliver_confirm {e : Engine} (h : e.HasRoom) (hs : e.records.Sound)
    (hc : e.records.Covered) {id : PermissionId} {p : Permission}
    (hp : e.records.get? id = some p) {a : Address} (ha : e.authorityOver p = .ok a)
    (hr : p.state = .terminationRequested) (hl : e.host.ledger.Affords p a) (now : Instant) :
    ∃ e', e.deliver now ⟨a, .confirmTermination id⟩ = (.ok .empty, e') ∧
      e'.records = e.records.terminated p a now ∧
      e'.host.ledger = e.host.ledger.terminated p a := by
  have hcheck : Message.check ⟨a, .confirmTermination id⟩ = .ok () := by
    simp [Message.check, Message.requireGiven, hs.id_ne_zero hp]
  have hperform : Transaction.confirmTermination a id now e = .ok .empty _ :=
    Transaction.confirmTermination_eq_ok_iff.mpr
      ⟨p, World.admitTermination_eq_ok_iff.mpr ⟨hp, ha, hr⟩, fun _ => ?_, fun hv _ => ?_,
        rfl, rfl⟩
  · exact ⟨_, deliver_eq_ok_iff.mpr ⟨hcheck, hperform⟩, rfl, rfl⟩
  · have hown := hl.own
    have hsmall := h.small id p hp
    have hfit := h.fits p.grantee
    unfold Ledger.stake at hfit
    rw [h.unfrozen]
    exact ⟨(Nat.sub_le _ _).trans_lt hsmall, List.not_mem_nil, hown, by omega⟩
  · obtain ⟨v, hv'⟩ := Option.isSome_iff_exists.mp hv
    obtain ⟨q, hq⟩ := hs.validator_some hp hv'
    have hsmall := (hc.share_le hp hv' hq).trans_lt (h.small v q hq)
    have hshare := hl.share hv
    have hstake := Ledger.stake_released hl.own a
    have hfit := h.fits a
    unfold Ledger.stake at hstake hfit
    rw [h.unfrozen]
    exact ⟨hsmall, List.not_mem_nil, hshare, by omega⟩

def confirm (now : Instant) (e : Engine) (id : PermissionId) : Except Fault Engine := do
  let p ← e.records.require id
  let signer ← e.authorityOver p
  match e.deliver now ⟨signer, .confirmTermination id⟩ with
  | (.ok _, e') => .ok e'
  | (.error f, _) => .error f

def confirmAll (now : Instant) (e : Engine) (ids : List PermissionId) : Except Fault Engine :=
  ids.foldlM (confirm now) e

/-- Nothing stands in the way of a requested termination: the trust deposits are what the rows
add up to, none is frozen, and every amount fits. -/
structure Settleable (e : Engine) : Prop where
  sound : e.records.Sound
  covered : e.records.Covered
  unslashed : e.records.Unslashed
  backed : ∀ a, e.surplus a = 0
  rooted : e.Rooted
  unfrozen : e.host.frozen = []
  small : ∀ id p, e.records.get? id = some p → p.deposit < deltaBound
  fits : ∀ a, e.host.ledger.stake a < amountBound

namespace Settleable

variable {e : Engine} {id : PermissionId} {p : Permission} {a : Address} {now : Instant}

theorem authority (h : e.Settleable) (hp : e.records.get? id = some p) :
    ∃ a, e.authorityOver p = .ok a :=
  h.rooted.authority h.sound hp

theorem deposit_eq (h : e.Settleable) (a : Address) : e.host.ledger.deposit a =
    e.records.total fun p => if p.grantee = a then p.deposit else 0 :=
  (World.deposit_eq_sum (h.backed a) h.unslashed).trans (e.records.sum_ofGrantee (·.deposit) a)

theorem backsUnslashed (h : e.Settleable) : e.BacksUnslashed := by
  intro a
  rw [h.deposit_eq, Records.unslashed]
  refine (Records.total_congr fun id p hp => ?_).le
  rw [h.unslashed.unslashed_eq hp]

theorem affords (h : e.Settleable) (hp : e.records.get? id = some p)
    (ha : e.authorityOver p = .ok a) : e.host.ledger.Affords p a := by
  refine h.backsUnslashed.affords h.sound hp ha fun v q hv hq => ?_
  rw [h.unslashed.unslashed_eq hq]
  exact h.covered.share_le hp hv hq

theorem deliver_ok (h : e.Settleable) (hp : e.records.get? id = some p)
    (ha : e.authorityOver p = .ok a) (hr : p.state = .terminationRequested) (now : Instant) :
    ∃ e', e.deliver now ⟨a, .confirmTermination id⟩ = (.ok .empty, e') ∧
      e'.records = e.records.terminated p a now ∧
      e'.host.ledger = e.host.ledger.terminated p a :=
  HasRoom.deliver_confirm ⟨h.unfrozen, h.small, h.fits⟩ h.sound h.covered hp ha hr
    (h.affords hp ha) now

theorem confirm_ok (h : e.Settleable) (hp : e.records.get? id = some p)
    (hr : p.state = .terminationRequested) (now : Instant) :
    ∃ a e', e.authorityOver p = .ok a ∧ e.confirm now id = .ok e' ∧ e'.Settleable ∧
      e'.records = e.records.terminated p a now ∧ e.host.SameAround e'.host ∧
      ∀ b, e'.host.ledger.stake b = e.host.ledger.stake b := by
  obtain ⟨a, ha⟩ := h.authority hp
  obtain ⟨e', hd, hrec, hled⟩ := h.deliver_ok hp ha hr now
  have ho := Engine.deliver_ok hd
  have hev := ho.evolves h.sound rfl
  have hstake : ∀ b, e'.host.ledger.stake b = e.host.ledger.stake b := by
    intro b
    rw [hled, Ledger.stake_terminated (h.affords hp ha)]
  refine ⟨a, e', ha, ?_, ⟨ho.sound h.sound, ho.covered h.sound h.covered, hev.unslashed h.unslashed,
    ?_, hev.rooted (fun n => ?_) h.rooted, ?_, ?_, ?_⟩, hrec,
    ho.around, hstake⟩
  · simp [confirm, bind, Except.bind, Records.require_eq_ok_iff.mpr hp, ha, hd]
  · intro b
    rw [ho.surplus h.sound h.covered, writtenOff_eq_zero h.unslashed, h.backed, add_zero]
  · rw [ho.around]
    rfl
  · rw [ho.around]
    exact h.unfrozen
  · intro i q hq
    rw [hrec] at hq
    by_cases hi : i = p.id
    · subst hi
      cases (Records.get?_terminated e.records p a now).symm.trans hq
      exact Nat.two_pow_pos 63
    · rw [h.sound.get?_terminated_of_ne hi, Option.map_eq_some_iff] at hq
      obtain ⟨q₀, hq₀, rfl⟩ := hq
      exact (Nat.sub_le _ _).trans_lt (h.small i q₀ hq₀)
  · intro b
    rw [hstake]
    exact h.fits b

end Settleable

/-- What the confirmed terminations of some rows leave of an engine. -/
structure Confirmed (now : Instant) (ids : List PermissionId) (e e' : Engine) : Prop where
  archived : ∀ id ∈ ids, ∃ p a, e.records.get? id = some p ∧ e.authorityOver p = .ok a ∧
    e'.records.get? id = some (p.closed a now)
  spared : ∀ id, id ∉ ids → e'.records.get? id =
    (e.records.get? id).map fun q => q.spared ids (e.records.sharesOf ids id)
  covered : ∀ id p, id ∉ ids → e.records.get? id = some p →
    e.records.sharesOf ids id ≤ p.deposit
  stake : ∀ a, e'.host.ledger.stake a = e.host.ledger.stake a

namespace Confirmed

variable {e e₁ e' : Engine} {id : PermissionId} {ids : List PermissionId} {p : Permission}
  {a : Address} {now : Instant}

theorem nil (now : Instant) (e : Engine) : Confirmed now [] e e where
  archived := by simp
  spared id _ := by
    cases e.records.get? id <;> simp [Permission.spared, Records.sharesOf]
  covered _ _ _ _ := Nat.zero_le _
  stake _ := rfl

theorem authorityOver_of_beside (hs : e.records.Sound) (hp : e.records.get? id = some p)
    (hr : e₁.records = e.records.terminated p a now) (hh : e.host.SameAround e₁.host)
    {q : Permission} {b : Address} (hb : e₁.authorityOver (p.beside q) = .ok b) :
    e.authorityOver q = .ok b := by
  cases hv : q.validator with
  | none =>
    have hc : e₁.host.controller q.schemaId = e.host.controller q.schemaId := by rw [hh]; rfl
    simp only [World.authorityOver, Permission.beside, hv] at hb ⊢
    exact hc ▸ hb
  | some v =>
    obtain ⟨w, hw, rfl⟩ := (World.authorityOver_validated_iff (p := p.beside q) hv).mp hb
    refine (World.authorityOver_validated_iff hv).mpr ?_
    rw [hr] at hw
    by_cases hid : v = p.id
    · subst hid
      cases (Records.get?_terminated e.records p a now).symm.trans hw
      exact ⟨p, hs.get?_id hp, rfl⟩
    · rw [hs.get?_terminated_of_ne hid, Option.map_eq_some_iff] at hw
      obtain ⟨w₀, hw₀, rfl⟩ := hw
      exact ⟨w₀, hw₀, rfl⟩

/-- Later terminations hold the same shares of a deposit as before. -/
theorem sharesOf_terminated (hs : e.records.Sound) (hid : p.id ∉ ids)
    (hr : e₁.records = e.records.terminated p a now) {v : PermissionId} (hv : v ≠ p.id) :
    e₁.records.sharesOf ids v = e.records.sharesOf ids v := by
  apply congrArg List.sum
  apply List.map_congr_left
  intro i hi
  have hne : i ≠ p.id := fun h => hid (h ▸ hi)
  rw [hr, hs.get?_terminated_of_ne hne]
  cases e.records.get? i with
  | none => rfl
  | some q => exact Permission.shareUnder_beside hv

theorem cons (h : e.Settleable) (hp : e.records.get? id = some p)
    (ha : e.authorityOver p = .ok a) (hid : id ∉ ids)
    (hr : e₁.records = e.records.terminated p a now) (hh : e.host.SameAround e₁.host)
    (ht : ∀ b, e₁.host.ledger.stake b = e.host.ledger.stake b)
    (hc : Confirmed now ids e₁ e') : Confirmed now (id :: ids) e e' where
  archived i hi := by
    obtain rfl := h.sound.id_eq hp
    rcases List.mem_cons.mp hi with rfl | hi
    · refine ⟨p, a, hp, ha, ?_⟩
      rw [hc.spared _ hid, hr, Records.get?_terminated]
      simp [Permission.spared, Permission.closed, Permission.archived, Permission.enter]
    · have hne : i ≠ p.id := fun he => hid (he ▸ hi)
      obtain ⟨q, b, hq, hb, hq'⟩ := hc.archived i hi
      rw [hr, h.sound.get?_terminated_of_ne hne, Option.map_eq_some_iff] at hq
      obtain ⟨q₀, hq₀, rfl⟩ := hq
      exact ⟨q₀, b, hq₀, authorityOver_of_beside h.sound hp hr hh hb, hq'⟩
  spared i hi := by
    obtain rfl := h.sound.id_eq hp
    obtain ⟨hne, hi⟩ := not_or.mp (mt List.mem_cons.mpr hi)
    rw [hc.spared i hi, hr, h.sound.get?_terminated_of_ne hne, ← hr,
      sharesOf_terminated h.sound hid hr hne]
    cases hq : e.records.get? i with
    | none => rfl
    | some q =>
      obtain rfl := h.sound.id_eq hq
      rw [Records.sharesOf_cons (h.sound.get?_id hp)]
      exact congrArg some (p.spared_beside q ids _)
  covered i q hi hq := by
    obtain rfl := h.sound.id_eq hp
    obtain ⟨hne, hi⟩ := not_or.mp (mt List.mem_cons.mpr hi)
    obtain rfl := h.sound.id_eq hq
    have hrow : e₁.records.get? q.id = some (p.beside q) := by
      rw [hr, h.sound.get?_terminated_of_ne hne, hq, Option.map_some]
    have hle := hc.covered q.id _ hi hrow
    have hshare : p.shareUnder q.id ≤ q.deposit :=
      (Records.le_total hp _).trans ((Nat.le_add_left _ _).trans (h.covered q.id q hq))
    rw [sharesOf_terminated h.sound hid hr hne] at hle
    rw [Records.sharesOf_cons (h.sound.get?_id hp)]
    change _ ≤ q.deposit - p.shareUnder q.id at hle
    omega
  stake b := (hc.stake b).trans (ht b)

/-- What is left does not depend on the order of the confirmations. -/
theorem permissions_eq {first second : List PermissionId} {e₁ e₂ : Engine}
    (hp : first.Perm second) (h₁ : Confirmed now first e e₁) (h₂ : Confirmed now second e e₂) :
    e₁.records.permissions = e₂.records.permissions := by
  apply Records.ext_get?
  intro id
  by_cases hid : id ∈ first
  · obtain ⟨p, a, hp₁, ha₁, hq₁⟩ := h₁.archived id hid
    obtain ⟨p', a', hp₂, ha₂, hq₂⟩ := h₂.archived id (hp.mem_iff.mp hid)
    cases hp₁.symm.trans hp₂
    cases ha₁.symm.trans ha₂
    rw [hq₁, hq₂]
  · have hsum : e.records.sharesOf first id = e.records.sharesOf second id :=
      (hp.map _).sum_eq
    have hmem : ∀ v, v ∈ first ↔ v ∈ second := fun v => hp.mem_iff
    rw [h₁.spared id hid, h₂.spared id (mt hp.mem_iff.mpr hid), hsum]
    simp only [Permission.spared, hmem]

/-- What a row gives back: all of its deposit if it is terminated, else the shares of the
terminated ones. -/
theorem claim_eq (h : e.Settleable) (h' : e'.Settleable) (hc : Confirmed now ids e e')
    (a : Address) : e'.host.ledger.claim a = e.host.ledger.claim a +
      ((e.records.ofGrantee a).map fun p =>
        if p.id ∈ ids then p.deposit else e.records.sharesOf ids p.id).sum := by
  let left (p : Permission) : Nat := if p.grantee = a then
    if p.id ∈ ids then 0 else p.deposit - e.records.sharesOf ids p.id else 0
  let given (p : Permission) : Nat := if p.grantee = a then
    if p.id ∈ ids then p.deposit else e.records.sharesOf ids p.id else 0
  have hleft : e'.records.total (fun p => if p.grantee = a then p.deposit else 0) =
      e.records.total left := by
    apply Records.total_eq_of_rows
    intro id
    by_cases hid : id ∈ ids
    · obtain ⟨p, b, hp, -, hq⟩ := hc.archived id hid
      obtain rfl := h.sound.id_eq hp
      rw [hq, hp]
      simp [left, hid, Permission.closed, Permission.archived, Permission.enter]
    · rw [hc.spared id hid]
      cases hp : e.records.get? id with
      | none => rfl
      | some p =>
        obtain rfl := h.sound.id_eq hp
        simp [left, hid, Permission.spared]
  have hsplit : e.records.total (fun p => if p.grantee = a then p.deposit else 0) =
      e.records.total left + e.records.total given := by
    rw [← Records.total_add]
    apply Records.total_congr
    intro id p hp
    have hle : p.id ∉ ids → e.records.sharesOf ids p.id ≤ p.deposit :=
      fun hid => hc.covered p.id p hid (h.sound.get?_id hp)
    by_cases hg : p.grantee = a <;> by_cases hid : p.id ∈ ids <;>
      simp only [left, given, hg, hid, if_true, if_false]
    · omega
    · have := hle hid
      omega
  have hstake := hc.stake a
  simp only [Ledger.stake, h.deposit_eq, h'.deposit_eq, hleft, hsplit] at hstake
  rw [Records.sum_ofGrantee]
  change _ = _ + e.records.total given
  omega

end Confirmed

theorem Settleable.confirmAll_ok {e : Engine} {ids : List PermissionId} (h : e.Settleable)
    (hn : ids.Nodup) (hr : ∀ id ∈ ids, ∃ p, e.records.get? id = some p ∧
      p.state = .terminationRequested) (now : Instant) :
    ∃ e', e.confirmAll now ids = .ok e' ∧ e'.Settleable ∧ Confirmed now ids e e' := by
  induction ids generalizing e with
  | nil => exact ⟨e, rfl, h, .nil now e⟩
  | cons id rest ih =>
    obtain ⟨hid, hn⟩ := List.nodup_cons.mp hn
    obtain ⟨p, hp, hs⟩ := hr id List.mem_cons_self
    obtain ⟨a, e₁, ha, hc, h₁, hrec, hh, ht⟩ := h.confirm_ok hp hs now
    have hr₁ : ∀ i ∈ rest, ∃ q, e₁.records.get? i = some q ∧
        q.state = .terminationRequested := by
      intro i hi
      obtain ⟨q, hq, hqs⟩ := hr i (List.mem_cons_of_mem _ hi)
      have hne : i ≠ p.id := fun he => hid (h.sound.id_eq hp ▸ he ▸ hi)
      exact ⟨p.beside q, by rw [hrec, h.sound.get?_terminated_of_ne hne, hq]; rfl, hqs⟩
    obtain ⟨e', hall, h', hcs⟩ := ih h₁ hn hr₁
    refine ⟨e', ?_, h', .cons h hp ha hid hrec hh ht hcs⟩
    simp only [confirmAll, List.foldlM_cons, bind, Except.bind, hc]
    exact hall

end Engine

/-- Requested terminations can be confirmed in every order after a run without a slash, and
neither the rows nor the trust deposits tell in which. Every account may claim what its
terminated rows held and what its other rows owed to terminated ones, each once. -/
theorem terminations_commute {host : Host} {params : Params} {authority : Address} {e : Engine}
    (hl : host.ledger.HoldsOnlyBalances) (hn : Engine.new host params authority = .ok e)
    {steps : List Step} (hf : e.SlashFree steps) (hd : e.Along Engine.KeepsDirectory steps)
    (hz : (e.run steps).host.frozen = [])
    (hi : ∀ id p, (e.run steps).records.get? id = some p → p.deposit < deltaBound)
    (hu : ∀ a, (e.run steps).host.ledger.deposit a + (e.run steps).host.ledger.claim a <
      amountBound)
    {first second : List PermissionId} (hp : first.Perm second) (hnd : first.Nodup)
    (hr : ∀ id ∈ first, ∃ p, (e.run steps).records.get? id = some p ∧
      p.state = .terminationRequested) (now : Instant) :
    ∃ e₁ e₂, (e.run steps).confirmAll now first = .ok e₁ ∧
      (e.run steps).confirmAll now second = .ok e₂ ∧
      e₁.records.permissions = e₂.records.permissions ∧
      (∀ a, e₁.host.ledger.deposit a = e₂.host.ledger.deposit a ∧
        e₁.host.ledger.claim a = e₂.host.ledger.claim a) ∧
      (∀ id ∈ first, ∃ q, e₁.records.get? id = some q ∧ q.state = .terminated ∧
        q.deposit = 0 ∧ q.validatorShare = 0) ∧
      (∀ id p, id ∉ first → (e.run steps).records.get? id = some p →
        ∃ q, e₁.records.get? id = some q ∧
          q.deposit + (e.run steps).records.sharesOf first id = p.deposit) ∧
      ∀ a, e₁.host.ledger.deposit a + e₁.host.ledger.claim a =
          (e.run steps).host.ledger.deposit a + (e.run steps).host.ledger.claim a ∧
        e₁.host.ledger.claim a = (e.run steps).host.ledger.claim a +
          (((e.run steps).records.ofGrantee a).map fun p =>
            if p.id ∈ first then p.deposit
            else (e.run steps).records.sharesOf first p.id).sum := by
  have he := Engine.new_covered hn
  have hu₀ := Engine.new_unslashed hn
  have hr₀ := Engine.new_rooted hn
  obtain ⟨hs, hc⟩ := Engine.run_covered hn steps
  have h : (e.run steps).Settleable := ⟨hs, hc, Engine.run_unslashed he.1 hu₀ hf,
    Engine.run_surplus he hu₀ (Engine.new_surplus hl hn) hf, Engine.run_rooted he.1 hr₀ hf hd,
    hz, hi, hu⟩
  obtain ⟨e₁, h₁, hs₁, hc₁⟩ := h.confirmAll_ok hnd hr now
  obtain ⟨e₂, h₂, hs₂, hc₂⟩ := h.confirmAll_ok (hp.nodup_iff.mp hnd)
    (fun id hid => hr id (hp.mem_iff.mpr hid)) now
  have hrows := hc₁.permissions_eq hp hc₂
  have hdep : ∀ a, e₁.host.ledger.deposit a = e₂.host.ledger.deposit a := by
    intro a
    rw [hs₁.deposit_eq, hs₂.deposit_eq, Records.total, Records.total, hrows]
  refine ⟨e₁, e₂, h₁, h₂, hrows, ?_, ?_, ?_, ?_⟩
  · intro a
    refine ⟨hdep a, ?_⟩
    have hst : e₁.host.ledger.stake a = e₂.host.ledger.stake a :=
      (hc₁.stake a).trans (hc₂.stake a).symm
    rw [Ledger.stake, Ledger.stake, hdep a] at hst
    exact Nat.add_left_cancel hst
  · intro id hid
    obtain ⟨p, b, -, -, hq⟩ := hc₁.archived id hid
    exact ⟨p.closed b now, hq, rfl, rfl, rfl⟩
  · intro id p hid hrow
    refine ⟨p.spared first _, by rw [hc₁.spared id hid, hrow]; rfl, ?_⟩
    exact Nat.sub_add_cancel (hc₁.covered id p hid hrow)
  · intro a
    exact ⟨hc₁.stake a, hc₁.claim_eq h hs₁ a⟩

theorem terminations_commute_departures :
    ∃ e₁ e₂, (Sample.engine.run Sample.departures).confirmAll Sample.noon [2, 1, 3] = .ok e₁ ∧
      (Sample.engine.run Sample.departures).confirmAll Sample.noon [3, 2, 1] = .ok e₂ ∧
      e₁.records.permissions = e₂.records.permissions ∧
      ∀ a, e₁.host.ledger.deposit a = e₂.host.ledger.deposit a ∧
        e₁.host.ledger.claim a = e₂.host.ledger.claim a := by
  have hi : ∀ p ∈ (Sample.engine.run Sample.departures).records.permissions.values,
      p.deposit < deltaBound := by decide +kernel
  have hu : (Sample.engine.run Sample.departures).host.ledger.deposits.sum +
      (Sample.engine.run Sample.departures).host.ledger.claimable.sum < amountBound := by
    decide +kernel
  have hr : ∀ id ∈ [2, 1, 3], ((Sample.engine.run Sample.departures).records.get? id).any
      (·.state = .terminationRequested) = true := by decide +kernel
  obtain ⟨e₁, e₂, h₁, h₂, hrows, hledger, -⟩ := terminations_commute Sample.host_holds
    Sample.engine_new (by decide +kernel : Sample.engine.SlashFree Sample.departures)
    (by decide +kernel) (by decide +kernel)
    (fun id p hp => hi p (Records.mem_rows_iff.mpr ⟨id, hp⟩))
    (fun a => (Nat.add_le_add (Table.amount_le_sum _ a) (Table.amount_le_sum _ a)).trans_lt hu)
    (by decide : [2, 1, 3].Perm [3, 2, 1]) (by decide)
    (fun id hid => by
      obtain ⟨p, hp, hs⟩ := (Option.any_eq_true _ _).mp (hr id hid)
      exact ⟨p, hp, of_decide_eq_true hs⟩) Sample.noon
  exact ⟨e₁, e₂, h₁, h₂, hrows, hledger⟩

end TrustPermit
