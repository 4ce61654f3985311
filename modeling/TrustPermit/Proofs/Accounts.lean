import TrustPermit.Proofs.Coverage
import TrustPermit.Proofs.Unslashed

/-! # Trust deposits and the rows behind them

The trust deposit of an account is what its rows hold, less what was slashed and not repaid. Only
a confirmed termination of a slashed row parts the two: the row gives up its deposit, but what was
slashed of it is gone already. The surplus of an account counts this.
-/

namespace TrustPermit

namespace Permission

/-- What a row adds to the trust deposit of an account. -/
def netFor (a : Address) (p : Permission) : Int :=
  if p.grantee = a then (p.deposit : Int) - p.slashedDeposit else 0

/-- What was slashed of the deposit of a row, as far as the deposit reaches. -/
def slashedPart (p : Permission) : Nat := min p.deposit p.slashedDeposit

theorem unslashed_add_slashedPart (p : Permission) :
    p.unslashed + p.slashedPart = p.deposit := by
  unfold unslashed slashedPart
  omega

theorem netFor_raiseDeposit (p : Permission) (a : Address) (n : Nat) :
    (p.raiseDeposit n).netFor a = p.netFor a + if p.grantee = a then (n : Int) else 0 := by
  by_cases h : p.grantee = a
  · simp only [netFor, raiseDeposit, h, if_true]
    omega
  · simp [netFor, raiseDeposit, h]

theorem netFor_lowerDeposit (p : Permission) (a : Address) {n : Nat} (hn : n ≤ p.deposit) :
    (p.lowerDeposit n).netFor a + (if p.grantee = a then (n : Int) else 0) = p.netFor a := by
  by_cases h : p.grantee = a
  · simp only [netFor, lowerDeposit, h, if_true]
    omega
  · simp [netFor, lowerDeposit, h]

end Permission

namespace Records

def ofGrantee (r : Records) (a : Address) : List Permission :=
  r.permissions.values.filter (·.grantee = a)

def net (r : Records) (a : Address) : Int := r.total (·.netFor a)

variable {r : Records} {p q : Permission} {id : PermissionId} (a : Address)

theorem sum_ofGrantee {M : Type} [AddCancelCommMonoid M] (r : Records) (f : Permission → M)
    (a : Address) :
    ((r.ofGrantee a).map f).sum = r.total fun p => if p.grantee = a then f p else 0 :=
  r.permissions.sum_filter_values (·.grantee = a) f

@[simp] theorem net_allocate (entity : String) : (r.allocate entity).net a = r.net a := rfl

theorem net_insert_over (h : r.get? q.id = some p) :
    (r.insert q).net a + p.netFor a = r.net a + q.netFor a :=
  total_insert_over h (·.netFor a)

theorem net_insert_new (h : r.get? p.id = none) : (r.insert p).net a = r.net a + p.netFor a :=
  total_insert_new h (·.netFor a)

theorem net_raisedBy_single (h : r.get? id = some p) (n : Nat) :
    (r.raisedBy fun other => if other = id then n else 0).net a =
      r.net a + if p.grantee = a then (n : Int) else 0 := by
  have ht := total_modify h (·.raiseDeposit n) (·.netFor a)
  rw [modify_raiseDeposit, p.netFor_raiseDeposit] at ht
  simp only [net]
  omega

@[simp] theorem net_clearShares (v : PermissionId) : (r.clearShares v).net a = r.net a := by
  rw [net, total_clearShares]
  apply total_congr
  intro _ p _
  split <;> rfl

theorem net_shareReturned {v : PermissionId} (hv : p.validator = some v)
    (hq : r.get? v = some q) (hn : p.validatorShare ≤ q.deposit) :
    (r.shareReturned p).net a + (if q.grantee = a then (p.validatorShare : Int) else 0) =
      r.net a := by
  have ht := total_modify hq (·.lowerDeposit p.validatorShare) (·.netFor a)
  have := q.netFor_lowerDeposit a hn
  simp only [shareReturned, hv, net]
  omega

end Records

namespace World

/-- What the trust deposit of an account holds beyond what its rows add up to. -/
def surplus (w : World) (a : Address) : Int := (w.host.ledger.deposit a : Int) - w.records.net a

def Knows (w : World) (b : Permission) : Prop :=
  ∃ q, w.records.get? b.id = some q ∧ q.grantee = b.grantee

variable {w : World} {t : SettlementTerms} {b : Permission} {split : FeeShares}

theorem Knows.paid {b' : Permission} (h : w.Knows b') : (w.paid t b split).Knows b' := by
  obtain ⟨q, hq, hg⟩ := h
  exact ⟨q.raiseDeposit (t.credits b.id split.share b'.id), by simp [World.paid, shared, hq], hg⟩

theorem surplus_paid (hb : w.Knows b)
    (hx : split.share ≠ 0 → t.executor.isSome → (w.executorGrantee t).isSome) (a : Address) :
    (w.paid t b split).surplus a = w.surplus a := by
  rcases Nat.eq_zero_or_pos split.share with hz | hz
  · simp [World.paid, hz, shared_zero, surplus]
  obtain ⟨q, hq, hg⟩ := hb
  have hrow := Records.net_raisedBy_single a hq split.share
  rw [hg] at hrow
  simp only [surplus, World.paid, shared, records_withLedger, Host.ledger_withLedger,
    host_withLedger, Ledger.deposit_committedTo, Ledger.deposit_committed,
    SettlementTerms.deposit_collect, SettlementTerms.deposit_direct]
  cases hx' : t.executor with
  | none =>
    simp only [t.credits_none split.share b.id hx', executorGrantee, hx', Option.bind_none, hrow]
    simp only [eq_comm (a := a), reduceCtorEq, if_false]
    split <;> omega
  | some x =>
    have hsome := hx hz.ne' (by simp [hx'])
    simp only [executorGrantee, hx', Option.bind_some, Option.isSome_map] at hsome
    obtain ⟨xrow, hxrow⟩ := Option.isSome_iff_exists.mp hsome
    have hsecond : (w.records.raisedBy fun id =>
        (if id = b.id then split.share else 0) + if id = x then split.share else 0).net a =
          w.records.net a + (if b.grantee = a then (split.share : Int) else 0) +
            if xrow.grantee = a then (split.share : Int) else 0 := by
      rw [← Records.raisedBy_raisedBy, ← hrow]
      exact Records.net_raisedBy_single a
        (p := xrow.raiseDeposit (if x = b.id then split.share else 0)) (by simp [hxrow]) _
    simp only [t.credits_some split.share b.id hx', executorGrantee, hx', records_withLedger,
      Option.bind_some, hxrow, Option.map_some, Option.some.injEq, hsecond]
    simp only [eq_comm (a := a)]
    split <;> split <;> omega

end World

theorem Settles.surplus {t : SettlementTerms} {bs : List Permission} {w w' : World}
    {lines : List Payout} (h : Settles t bs w lines w') (hb : ∀ b ∈ bs, w.Knows b)
    (a : Address) : w'.surplus a = w.surplus a := by
  induction h with
  | nil => rfl
  | skip _ _ ih => exact ih fun b hm => hb b (List.mem_cons_of_mem _ hm)
  | pay _ _ _ _ hx _ ih =>
    rw [ih fun b hm => (hb b (List.mem_cons_of_mem _ hm)).paid,
      World.surplus_paid (hb _ List.mem_cons_self) hx]

namespace Engine

/-- What an account loses of its surplus with a confirmed termination. -/
def writtenOff (a : Address) (e : Engine) (m : Message) : Int :=
  match m.action with
  | .confirmTermination id =>
    match e.records.get? id with
    | some p => if p.grantee = a then p.slashedPart else 0
    | none => 0
  | _ => 0

end Engine

theorem World.surplus_insert_over {w w' : World} {p q : Permission}
    (hp : w.records.get? p.id = some p) (ho : p.SameOrigin q)
    (hr : w'.records = w.records.insert q) {a : Address} {d : Int}
    (hl : (w'.host.ledger.deposit a : Int) =
      w.host.ledger.deposit a + if p.grantee = a then d else 0)
    (hd : (q.deposit : Int) - q.slashedDeposit = p.deposit - p.slashedDeposit + d) :
    w'.surplus a = w.surplus a := by
  have hn := Records.net_insert_over (q := q) a (ho.id ▸ hp)
  rw [surplus, surplus, hr, hl]
  simp only [Permission.netFor, ho.grantee] at hn
  by_cases hg : p.grantee = a <;> simp only [hg, if_true, if_false] at hn ⊢ <;> omega

theorem World.surplus_insert_new {w w' : World} {p : Permission} (hs : w.records.Sound)
    (hid : p.id = w.records.counter Records.permissionCounter + 1)
    (hr : w'.records = (w.records.allocate Records.permissionCounter).insert p) {a : Address}
    (hl : (w'.host.ledger.deposit a : Int) = w.host.ledger.deposit a + p.netFor a) :
    w'.surplus a = w.surplus a := by
  have hfresh : (w.records.allocate Records.permissionCounter).get? p.id = none :=
    hs.get?_fresh (hid ▸ Nat.lt_succ_self _)
  have hn := Records.net_insert_new a hfresh
  rw [Records.net_allocate] at hn
  rw [surplus, surplus, hr, hl]
  omega

def Permission.returnedTo (p : Permission) (signer a : Address) : Int :=
  if p.validator.isSome ∧ signer = a then p.validatorShare else 0

theorem Ledger.deposit_committed_int (l : Ledger) (b a : Address) (n : Nat) :
    ((l.committed b n).deposit a : Int) = l.deposit a + if b = a then (n : Int) else 0 := by
  rw [deposit_committed]
  by_cases h : b = a
  · simp [h]
  · simp [h, Ne.symm h]

theorem Ledger.deposit_slashed_int {l : Ledger} {b : Address} {n : Nat} (hn : n ≤ l.deposit b)
    (a : Address) :
    ((l.slashed b n).deposit a : Int) = l.deposit a + if b = a then -(n : Int) else 0 :=
  Table.amount_lowered_int hn a

theorem Ledger.deposit_released_int {l : Ledger} {b : Address} {n : Nat} (hn : n ≤ l.deposit b)
    (a : Address) :
    ((l.released b n).deposit a : Int) = l.deposit a + if b = a then -(n : Int) else 0 :=
  Table.amount_lowered_int hn a

theorem Ledger.deposit_terminated {l : Ledger} {p : Permission} {signer : Address}
    (h : l.Affords p signer) (a : Address) :
    ((l.terminated p signer).deposit a : Int) =
      l.deposit a + (if p.grantee = a then -(p.unslashed : Int) else 0) -
        p.returnedTo signer a := by
  have hown := deposit_released_int h.own a
  unfold terminated shareReturned
  cases hw : p.validator with
  | none =>
    simp only [Option.isSome_none, Bool.false_eq_true, if_false, hown, Permission.returnedTo, hw,
      false_and, sub_zero]
  | some v =>
    have hshare := deposit_released_int (h.share (by simp [hw])) a
    simp only [Option.isSome_some, if_true, hshare, hown, Permission.returnedTo, hw, true_and]
    by_cases hs : signer = a <;> simp only [hs, if_true, if_false] <;> omega

namespace World

variable {w : World} {p : Permission} {id : PermissionId} {signer : Address}

/-- The rows of an account give up what a confirmed termination takes from them. -/
theorem net_terminated (hs : w.records.Sound) (hc : w.records.Covered)
    (hp : w.records.get? id = some p) (ha : w.authorityOver p = .ok signer) (now : Instant)
    (a : Address) :
    (w.records.terminated p signer now).net a =
      w.records.net a - (if p.grantee = a then (p.deposit : Int) else 0) -
        p.returnedTo signer a := by
  have hrow := Records.net_insert_over (q := p.closed signer now) (p := p) a
    (hs.get?_settled hp)
  have hp₁ : p.netFor a = if p.grantee = a then (p.deposit : Int) - p.slashedDeposit else 0 := rfl
  have hp₂ : (p.closed signer now).netFor a =
      if p.grantee = a then (0 : Int) - p.slashedDeposit else 0 := rfl
  have hret : ((w.records.clearShares p.id).shareReturned p).net a =
      w.records.net a - p.returnedTo signer a := by
    cases hw : p.validator with
    | none => simp [Records.shareReturned, Permission.returnedTo, hw]
    | some v =>
      obtain ⟨q, hq, rfl⟩ := (authorityOver_validated_iff hw).mp ha
      have hshare : p.validatorShare ≤ q.deposit := hc.share_le hp hw hq
      obtain ⟨q', hq', ho, hd⟩ := Records.get?_clearShares_of hq p.id
      have h := Records.net_shareReturned a hw hq' (hd ▸ hshare)
      rw [Records.net_clearShares, ho.grantee] at h
      simp only [Permission.returnedTo, hw, Option.isSome_some, true_and]
      omega
  rw [hret, hp₁, hp₂] at hrow
  rw [Records.terminated]
  by_cases hg : p.grantee = a <;> simp only [hg, if_true, if_false] at hrow ⊢ <;> omega

theorem surplus_terminated (hs : w.records.Sound) (hc : w.records.Covered)
    (hp : w.records.get? id = some p) (ha : w.authorityOver p = .ok signer)
    (hl : w.host.ledger.Affords p signer) (now : Instant) {w' : World}
    (hr : w'.records = w.records.terminated p signer now)
    (hh : w'.host.ledger = w.host.ledger.terminated p signer) (a : Address) :
    w'.surplus a = w.surplus a + if p.grantee = a then (p.slashedPart : Int) else 0 := by
  have hpart := p.unslashed_add_slashedPart
  rw [surplus, surplus, hr, hh, net_terminated hs hc hp ha, Ledger.deposit_terminated hl]
  split <;> omega

theorem surplus_cancelled {m : String} (hp : w.records.get? p.id = some p)
    (hle : p.escrowedDeposit ≤ p.deposit)
    (hd : p.escrowedDeposit ≤ w.host.ledger.deposit p.grantee) {now : Instant} {w' : World}
    (hr : w'.records = w.records.insert (p.cancelled signer now))
    (hl : w'.host.ledger = (w.host.ledger.refunded m p.grantee p.escrowedFees).released
      p.grantee p.escrowedDeposit) (a : Address) : w'.surplus a = w.surplus a := by
  refine surplus_insert_over (d := -(p.escrowedDeposit : Int)) hp (.cancelled p signer now) hr
    ?_ ?_
  · have h := Ledger.deposit_released_int
      (l := w.host.ledger.refunded m p.grantee p.escrowedFees) hd a
    rw [hl, h]
    by_cases hg : p.grantee = a <;> simp [hg]
  · rw [(p.cancelled_deposit signer now).1, p.cancelled_slashedDeposit]
    omega

end World

/-- Every message keeps the surplus of an account, up to what it writes off. -/
theorem Outcome.surplus {e e' : Engine} {now : Instant} {m : Message} {r : Response}
    (hs : e.records.Sound) (hc : e.records.Covered) (h : Outcome e now m r e') (a : Address) :
    e'.surplus a = e.surplus a + e.writtenOff a m := by
  cases h with
  | @start signer application validator schema cost id windowEnd ha hq hb hid hw =>
    obtain ⟨-, rfl⟩ := Records.nextId_eq_ok_iff.mp hid
    refine (World.surplus_insert_new hs rfl rfl ?_).trans (add_zero _).symm
    exact (Ledger.deposit_committed_int _ signer a cost.deposit).trans (by
      simp [Permission.netFor, Permission.applied, Permission.fresh])
  | @renew signer id p validator cost ha hq hb hd =>
    obtain ⟨hp, rfl, -⟩ := World.admitRenewal_ok ha
    refine (World.surplus_insert_over (d := cost.deposit) (hs.get?_id hp)
      (.renewing p cost.fee cost.deposit now) rfl ?_ ?_).trans (add_zero _).symm
    · exact Ledger.deposit_committed_int _ p.grantee a cost.deposit
    · change ((p.deposit + cost.deposit : Nat) : Int) - p.slashedDeposit = _
      omega
  | consent ha hz hd =>
    obtain ⟨hp, -, -⟩ := World.admitConsent_ok ha
    exact (World.surplus_insert_over (d := 0) (hs.get?_id hp) (.granted _ _ _ _ _) rfl
      (by simp) (add_zero _).symm).trans (add_zero _).symm
  | @paidConsent signer id terms p windowEnd v validator line ha hn hv hg hb hf hc' hd =>
    obtain ⟨hp, -, -⟩ := World.admitConsent_ok ha
    have hrow := hs.get?_paid hp hv hg (t := e.terms .validation .escrow none) rfl line.split
    refine (World.surplus_insert_over (d := 0) hrow (.granted _ _ _ _ _) rfl ?_
      (add_zero _).symm).trans ?_
    · simp
    · exact (World.surplus_paid ⟨validator, hs.get?_id hg, rfl⟩ (by simp [Engine.terms]) a).trans
        (add_zero _).symm
  | extend ha =>
    obtain ⟨hp, -⟩ := World.admitExtension_ok ha
    exact (World.surplus_insert_over (d := 0) (hs.get?_id hp) (.extendedTo _ _ _ _) rfl
      (by simp) (add_zero _).symm).trans (add_zero _).symm
  | revoke ha =>
    obtain ⟨hp, -⟩ := World.admitRevocation_ok ha
    exact (World.surplus_insert_over (d := 0) (hs.get?_id hp) (.withdrawn _ _ _) rfl
      (by simp) (add_zero _).symm).trans (add_zero _).symm
  | @cancel signer id p ha hf hd =>
    obtain ⟨hp, -⟩ := World.admitCancellation_ok ha
    have hle : p.escrowedDeposit ≤ p.deposit := (Nat.le_add_right _ _).trans (hc _ _ hp)
    exact (World.surplus_cancelled (hs.get?_id hp) hle hd rfl rfl a).trans (add_zero _).symm
  | requestTermination ha =>
    obtain ⟨hp, -⟩ := World.admitDeparture_ok ha
    exact (World.surplus_insert_over (d := 0) (hs.get?_id hp) (.leaving _ _) rfl
      (by simp) (add_zero _).symm).trans (add_zero _).symm
  | confirmTermination ha hd =>
    obtain ⟨hp, hg, -⟩ := World.admitTermination_eq_ok_iff.mp ha
    refine (World.surplus_terminated hs hc hp hg hd now rfl rfl a).trans ?_
    simp [Engine.writtenOff, hp]
  | createRoot ha hid =>
    obtain ⟨-, rfl⟩ := Records.nextId_eq_ok_iff.mp hid
    refine (World.surplus_insert_new hs rfl rfl ?_).trans (add_zero _).symm
    simp [Permission.netFor, Permission.root, Permission.fresh, Permission.enter]
  | create ha hid =>
    obtain ⟨-, rfl⟩ := Records.nextId_eq_ok_iff.mp hid
    refine (World.surplus_insert_new hs rfl rfl ?_).trans (add_zero _).symm
    simp [Permission.netFor, Permission.selfGranted, Permission.fresh, Permission.enter]
  | @exchange signer x s beneficiaries receipt w ha hx hb hw =>
    have hknown : ∀ b ∈ beneficiaries, e.toWorld.Knows b := by
      intro b hm
      obtain ⟨id, hr⟩ := Engine.mem_admitPayment hb hm
      exact ⟨b, hs.get?_id hr, rfl⟩
    exact ((Transfer.settle_ok hw).2.2.surplus hknown a).trans (add_zero _).symm
  | @slash signer id amount p ha hn hb =>
    obtain ⟨hp, -⟩ := Engine.admitSlash_ok ha
    refine (World.surplus_insert_over (d := -(amount : Int)) (hs.get?_id hp)
      (.slashedFor p amount signer now) rfl (Ledger.deposit_slashed_int hb a) ?_).trans
      (add_zero _).symm
    change (p.deposit : Int) - (p.slashedDeposit + amount : Nat) = _
    omega
  | @repay signer id p ha hb hr =>
    obtain ⟨hp, -⟩ := Engine.admitRepayment_ok ha
    refine (World.surplus_insert_over (d := p.slashedDeposit) (hs.get?_id hp)
      (.repaidInFull p signer now) rfl
      (Ledger.deposit_committed_int _ p.grantee a p.slashedDeposit) ?_).trans (add_zero _).symm
    change (p.deposit : Int) - (0 : Nat) = _
    omega
  | setParams ha hp => exact (add_zero _).symm

theorem World.deposit_eq_sum {w : World} {a : Address} (hz : w.surplus a = 0)
    (hu : w.records.Unslashed) :
    w.host.ledger.deposit a = ((w.records.ofGrantee a).map (·.deposit)).sum := by
  have hnet : w.records.net a =
      (w.records.total fun p => if p.grantee = a then p.deposit else 0 : Nat) := by
    rw [← Records.total_natCast]
    apply Records.total_congr
    intro id p hp
    rw [Permission.netFor, hu id p hp]
    split <;> simp
  rw [surplus, hnet] at hz
  rw [Records.sum_ofGrantee]
  omega

namespace Engine

variable {host : Host} {params : Params} {authority : Address} {e : Engine}

theorem new_surplus (hl : host.ledger.HoldsOnlyBalances)
    (hn : new host params authority = .ok e) (a : Address) : e.surplus a = 0 := by
  obtain ⟨-, rfl⟩ := new_eq_ok_iff.mp hn
  simp only [World.surplus, Ledger.deposit_eq, hl.deposits]
  rfl

theorem writtenOff_eq_zero (hu : e.records.Unslashed) (a : Address) (m : Message) :
    e.writtenOff a m = 0 := by
  unfold writtenOff
  split
  · split
    · rename_i p hp
      simp [Permission.slashedPart, hu _ p hp]
    · rfl
  · rfl

theorem run_surplus (he : e.records.Sound ∧ e.records.Covered) (hu : e.records.Unslashed)
    (hz : ∀ a, e.surplus a = 0) {steps : List Step} (hf : e.SlashFree steps) (a : Address) :
    (e.run steps).surplus a = 0 := by
  refine (run_along (P := fun e => (e.records.Sound ∧ e.records.Covered) ∧ e.records.Unslashed ∧
    e.surplus a = 0) ⟨he, hu, hz a⟩ (fun e s ⟨he, hu, hz⟩ hn => ?_) hf).2.2
  refine ⟨step_covered he, (step_evolves he.1 hn).unslashed hu, ?_⟩
  cases s using e.step_cases with
  | surround host => exact hz
  | refused now m _ hstep => rwa [hstep]
  | accepted now m r e' _ hstep h =>
    rw [hstep, h.surplus he.1 he.2, writtenOff_eq_zero hu, hz, add_zero]

end Engine

/-- The trust deposit of an account is what its rows hold beyond what was slashed of them, and
what confirmed terminations wrote off. -/
theorem deposit_eq_rows_add_writtenOff {host : Host} {params : Params} {authority : Address}
    {e : Engine} (hl : host.ledger.HoldsOnlyBalances)
    (hn : Engine.new host params authority = .ok e) (steps : List Step) (a : Address) :
    ((e.run steps).host.ledger.deposit a : Int) =
        (((e.run steps).records.ofGrantee a).map fun p =>
          (p.deposit : Int) - p.slashedDeposit).sum +
            e.tally (Engine.accepted (Engine.writtenOff a)) steps ∧
      (e.SlashFree steps → (e.run steps).host.ledger.deposit a =
        (((e.run steps).records.ofGrantee a).map (·.deposit)).sum) := by
  have he := Engine.new_covered hn
  have hz := Engine.new_surplus hl hn
  have hu := Engine.new_unslashed hn
  constructor
  · have h := Engine.run_balance (I := fun e => e.records.Sound ∧ e.records.Covered)
      (q := fun e => e.surplus a) he (fun _ _ => Engine.step_covered)
      (fun he h => h.surplus he.1 he.2 a) (fun _ _ => rfl) steps
    rw [hz a, zero_add, World.surplus] at h
    rw [Records.sum_ofGrantee, ← h]
    exact (sub_add_cancel _ _).symm.trans (add_comm _ _)
  · exact fun hf => World.deposit_eq_sum (Engine.run_surplus he hu hz hf a)
      (Engine.run_unslashed he.1 hu hf)

theorem deposit_eq_rows_add_writtenOff_history :
    (Sample.engine.run Sample.history).host.ledger.deposit Sample.grantor = 160 ∧
      ((Sample.engine.run Sample.history).host.ledger.deposit Sample.grantor : Int) =
        (((Sample.engine.run Sample.history).records.ofGrantee Sample.grantor).map fun p =>
          (p.deposit : Int) - p.slashedDeposit).sum + 10 ∧
      (Sample.engine.run Sample.departures).host.ledger.deposit Sample.grantor =
        (((Sample.engine.run Sample.departures).records.ofGrantee Sample.grantor).map
          (·.deposit)).sum := by
  have h := (deposit_eq_rows_add_writtenOff Sample.host_holds Sample.engine_new Sample.history
    Sample.grantor).1
  have ht : Sample.engine.tally (Engine.accepted (Engine.writtenOff Sample.grantor))
      Sample.history = 10 := by decide +kernel
  refine ⟨by decide +kernel, ht ▸ h, ?_⟩
  exact (deposit_eq_rows_add_writtenOff Sample.host_holds Sample.engine_new Sample.departures
    Sample.grantor).2 (by decide +kernel)

end TrustPermit
