import TrustPermit.Proofs.Accounts

/-! # The backing of trust deposits

What is promised in trust deposits, was released from them or burned, is held by the module
accounts beside the escrowed fees. An exchange promises every share twice, to the beneficiary and
to the executor, but collects it once.
-/

namespace TrustPermit

theorem Receipt.total_eq (r : Receipt) (part : FeeShares → Nat) :
    r.total part = (r.lines.map fun line => part line.split).sum := by
  obtain ⟨_, _, lines⟩ := r
  induction lines with
  | nil => rfl
  | cons line rest ih =>
    simp only [List.map_cons, List.sum_cons]
    exact congrArg (part line.split + ·) ih

theorem Receipt.shared_eq (r : Receipt) : r.shared = (r.lines.map (·.split.share)).sum :=
  r.total_eq _

namespace Records

def escrowed (r : Records) : Nat := r.total (·.escrowedFees)

variable {r : Records} {p q : Permission}

@[simp] theorem escrowed_allocate (entity : String) :
    (r.allocate entity).escrowed = r.escrowed := rfl

@[simp] theorem escrowed_raisedBy (g : PermissionId → Nat) :
    (r.raisedBy g).escrowed = r.escrowed :=
  total_raisedBy (fun _ _ => rfl) g

@[simp] theorem escrowed_clearShares (v : PermissionId) :
    (r.clearShares v).escrowed = r.escrowed := by
  rw [escrowed, total_clearShares]
  apply total_congr
  intro _ p _
  split <;> rfl

@[simp] theorem escrowed_shareReturned (p : Permission) :
    (r.shareReturned p).escrowed = r.escrowed :=
  r.total_shareReturned p fun _ _ => rfl

theorem escrowed_insert_over (h : r.get? q.id = some p) :
    (r.insert q).escrowed + p.escrowedFees = r.escrowed + q.escrowedFees :=
  total_insert_over h (·.escrowedFees)

theorem escrowed_insert_new (h : r.get? p.id = none) :
    (r.insert p).escrowed = r.escrowed + p.escrowedFees :=
  total_insert_new h (·.escrowedFees)

end Records

namespace World

/-- How much more is promised than the module accounts hold for it. -/
def backing (w : World) : Int :=
  (w.host.ledger.promised : Int) - w.host.ledger.held + w.records.escrowed

variable {w w' : World} {t : SettlementTerms} {b : Permission} {split : FeeShares}

/-- An account that pays a share with an executor backs it once for two promises. -/
theorem backing_paid {payer : Address} (hp : t.payer = .account payer)
    (ht : t.executor.isSome)
    (hx : split.share ≠ 0 → t.executor.isSome → (w.executorGrantee t).isSome) :
    (w.paid t b split).backing = w.backing + split.share := by
  rcases Nat.eq_zero_or_pos split.share with hz | hz
  · simp [World.paid, hz, shared_zero, backing, SettlementTerms.direct, hp]
  · have hg := hx hz.ne' ht
    simp only [backing, World.paid, shared, records_withLedger, host_withLedger,
      Host.ledger_withLedger, Records.escrowed_raisedBy, Ledger.promised_committedTo,
      Ledger.promised_committed, Ledger.held_committedTo, Ledger.held_committed,
      SettlementTerms.collect, SettlementTerms.direct, hp, Ledger.promised_collected,
      Ledger.promised_sent, Ledger.held_collected, Ledger.held_sent]
    have hg' : ((w.withLedger (w.host.ledger.sent payer b.grantee split.direct)).executorGrantee
        t).isSome := hg
    rw [if_pos hg']
    omega

theorem backing_insert_over {p q : Permission} (hp : w.records.get? p.id = some p)
    (ho : p.SameOrigin q) (hr : w'.records = w.records.insert q)
    (hl : (w'.host.ledger.promised : Int) - w'.host.ledger.held + q.escrowedFees =
      w.host.ledger.promised - w.host.ledger.held + p.escrowedFees) :
    w'.backing = w.backing := by
  have hn := Records.escrowed_insert_over (q := q) (ho.id ▸ hp)
  rw [backing, backing, hr]
  omega

theorem backing_insert_new {p : Permission} (hs : w.records.Sound)
    (hid : p.id = w.records.counter Records.permissionCounter + 1)
    (hr : w'.records = (w.records.allocate Records.permissionCounter).insert p)
    (hl : (w'.host.ledger.promised : Int) - w'.host.ledger.held + p.escrowedFees =
      w.host.ledger.promised - w.host.ledger.held) :
    w'.backing = w.backing := by
  have hfresh : (w.records.allocate Records.permissionCounter).get? p.id = none :=
    hs.get?_fresh (hid ▸ Nat.lt_succ_self _)
  have hn := Records.escrowed_insert_new hfresh
  rw [Records.escrowed_allocate] at hn
  rw [backing, backing, hr]
  omega

end World

theorem Settles.backing {t : SettlementTerms} {bs : List Permission} {w w' : World}
    {lines : List Payout} (h : Settles t bs w lines w') {payer : Address}
    (hp : t.payer = .account payer) (ht : t.executor.isSome) :
    w'.backing = w.backing + ((lines.map (·.split.share)).sum : Nat) := by
  induction h with
  | nil => simp
  | skip _ _ ih => exact ih
  | pay _ _ _ _ hx _ ih =>
    rw [ih, World.backing_paid hp ht hx, List.map_cons, List.sum_cons]
    omega

namespace Engine

/-- The shares of the settlement that a message brings about, if it records an exchange. -/
def settledShares (e : Engine) (m : Message) : Int :=
  match m.action with
  | .exchange x =>
    match e.admitPayment m.signer x with
    | .ok beneficiaries =>
      match Transfer.settle (e.terms x.feeKind (.account m.signer) x.executor?) beneficiaries
          e.toWorld with
      | .ok receipt _ => receipt.shared
      | .error _ _ => 0
    | .error _ => 0
  | _ => 0

theorem held_charged (e : Engine) (a : Address) (cost : Escrow) :
    (e.charged a cost).held = e.host.ledger.held + (cost.fee + cost.deposit) := by
  simp [charged, Escrow.total]

theorem backing_charged (e : Engine) (a : Address) (cost : Escrow) :
    ((e.charged a cost).promised : Int) - (e.charged a cost).held + cost.fee =
      e.host.ledger.promised - e.host.ledger.held := by
  have hpromised : (e.charged a cost).promised = e.host.ledger.promised + cost.deposit := by
    simp [charged]
  rw [hpromised, e.held_charged]
  omega

end Engine

theorem Ledger.promised_terminated {l : Ledger} {p : Permission} {signer : Address}
    (h : l.Affords p signer) : (l.terminated p signer).promised = l.promised := by
  have hown := promised_released _ _ _ h.own
  unfold terminated shareReturned
  split
  · rename_i hv
    exact (promised_released _ _ _ (h.share hv)).trans hown
  · exact hown

@[simp] theorem Ledger.held_terminated (l : Ledger) (p : Permission) (signer : Address) :
    (l.terminated p signer).held = l.held := by
  unfold terminated shareReturned
  split <;> rfl

namespace World

variable {w w' : World} {p q validator : Permission} {signer : Address} {now : Instant}

/-- The fee of a consent leaves escrow for the account and the trust deposit of the validator. -/
theorem backing_paid_escrow {t : SettlementTerms} {split : FeeShares} (ht : t.payer = .escrow)
    (hx : t.executor = none) (hsum : split.direct + split.share = p.escrowedFees)
    (hc : split.direct ≤ w.host.ledger.moduleFunds t.moduleAccount)
    (hp : (w.paid t validator split).records.get? q.id = some p) (hq : q.escrowedFees = 0)
    (hr : w'.records = (w.paid t validator split).records.insert q)
    (hl : w'.host.ledger = (w.paid t validator split).host.ledger) :
    w'.backing = w.backing := by
  have hrow := Records.escrowed_insert_over hp
  have hrecords : (w.paid t validator split).records.escrowed = w.records.escrowed :=
    Records.escrowed_raisedBy _
  have hheld := w.host.ledger.held_refunded validator.grantee t.moduleAccount _ hc
  have hledger : (w.paid t validator split).host.ledger =
      (w.host.ledger.refunded t.moduleAccount validator.grantee split.direct).committed
        validator.grantee split.share := by
    simp only [paid, shared, host_withLedger, Host.ledger_withLedger, SettlementTerms.collect,
      SettlementTerms.direct, ht]
    rw [executorGrantee, hx]
    rfl
  rw [hrecords, hq] at hrow
  simp only [backing, hr, hl, hledger, Ledger.promised_committed, Ledger.promised_refunded,
    Ledger.held_committed]
  omega

theorem backing_cancelled {m : String} (hp : w.records.get? p.id = some p)
    (hf : p.escrowedFees ≤ w.host.ledger.moduleFunds m)
    (hd : p.escrowedDeposit ≤ w.host.ledger.deposit p.grantee)
    (hr : w'.records = w.records.insert (p.cancelled signer now))
    (hl : w'.host.ledger = (w.host.ledger.refunded m p.grantee p.escrowedFees).released
      p.grantee p.escrowedDeposit) : w'.backing = w.backing := by
  refine backing_insert_over hp (.cancelled p signer now) hr ?_
  have hheld := w.host.ledger.held_refunded p.grantee m _ hf
  have hpromised := (w.host.ledger.refunded m p.grantee p.escrowedFees).promised_released
    p.grantee _ hd
  simp only [hl, hpromised, Ledger.promised_refunded, Ledger.held_released,
    p.cancelled_escrowedFees]
  omega

theorem backing_terminated (hs : w.records.Sound) (hp : w.records.get? p.id = some p)
    (ha : w.host.ledger.Affords p signer) (hr : w'.records = w.records.terminated p signer now)
    (hl : w'.host.ledger = w.host.ledger.terminated p signer) : w'.backing = w.backing := by
  have hrow := Records.escrowed_insert_over (q := p.closed signer now) (p := p)
    (hs.get?_settled hp)
  rw [Records.escrowed_shareReturned, Records.escrowed_clearShares,
    show (p.closed signer now).escrowedFees = p.escrowedFees from rfl] at hrow
  simp only [backing, hr, hl, Records.terminated, Ledger.promised_terminated ha,
    Ledger.held_terminated]
  omega

end World

/-- Every message keeps the backing, except that an exchange promises its shares once more. -/
theorem Outcome.backing {e e' : Engine} {now : Instant} {m : Message} {r : Response}
    (hs : e.records.Sound) (h : Outcome e now m r e') :
    e'.backing = e.backing + e.settledShares m := by
  cases h with
  | @start signer application validator schema cost id windowEnd ha hq hb hid hw =>
    obtain ⟨-, rfl⟩ := Records.nextId_eq_ok_iff.mp hid
    refine (World.backing_insert_new hs rfl rfl ?_).trans (add_zero _).symm
    rw [Engine.host_after, Host.ledger_withLedger]
    exact e.backing_charged signer cost
  | @renew signer id p validator cost ha hq hb hd =>
    obtain ⟨hp, rfl, hv⟩ := World.admitRenewal_ok ha
    have hi := (hs.idle hp (by simp [hv])).1
    refine (World.backing_insert_over (hs.get?_id hp)
      (.renewing p cost.fee cost.deposit now) rfl ?_).trans (add_zero _).symm
    rw [hi, Engine.host_after, Host.ledger_withLedger]
    exact (e.backing_charged p.grantee cost).trans (add_zero _).symm
  | @consent signer id terms p windowEnd ha hz hd =>
    obtain ⟨hp, -, -⟩ := World.admitConsent_ok ha
    refine (World.backing_insert_over (hs.get?_id hp) (.granted p terms windowEnd 0 now) rfl
      ?_).trans (add_zero _).symm
    rw [hz]
    rfl
  | @paidConsent signer id terms p windowEnd v validator line ha hn hv hg hb hf hc hd =>
    obtain ⟨hp, -, -⟩ := World.admitConsent_ok ha
    refine Eq.trans ?_ (add_zero _).symm
    exact World.backing_paid_escrow (t := e.terms .validation .escrow none)
      (q := p.granted terms windowEnd line.split.share now) rfl rfl (FeeShares.of_ok hf).2.1 hc
      (hs.get?_paid hp hv hg rfl line.split) rfl rfl rfl
  | extend ha =>
    obtain ⟨hp, -⟩ := World.admitExtension_ok ha
    refine Eq.trans ?_ (add_zero _).symm
    exact World.backing_insert_over (hs.get?_id hp) (.extendedTo _ _ _ _) rfl rfl
  | revoke ha =>
    obtain ⟨hp, -⟩ := World.admitRevocation_ok ha
    refine Eq.trans ?_ (add_zero _).symm
    exact World.backing_insert_over (hs.get?_id hp) (.withdrawn _ _ _) rfl rfl
  | cancel ha hf hd =>
    obtain ⟨hp, -⟩ := World.admitCancellation_ok ha
    exact (World.backing_cancelled (hs.get?_id hp) hf hd rfl rfl).trans (add_zero _).symm
  | requestTermination ha =>
    obtain ⟨hp, -⟩ := World.admitDeparture_ok ha
    refine Eq.trans ?_ (add_zero _).symm
    exact World.backing_insert_over (hs.get?_id hp) (.leaving _ _) rfl rfl
  | confirmTermination ha hd =>
    obtain ⟨hp, -, -⟩ := World.admitTermination_eq_ok_iff.mp ha
    exact (World.backing_terminated hs (hs.get?_id hp) hd rfl rfl).trans (add_zero _).symm
  | createRoot ha hid =>
    obtain ⟨-, rfl⟩ := Records.nextId_eq_ok_iff.mp hid
    exact (World.backing_insert_new hs rfl rfl (add_zero _)).trans (add_zero _).symm
  | create ha hid =>
    obtain ⟨-, rfl⟩ := Records.nextId_eq_ok_iff.mp hid
    exact (World.backing_insert_new hs rfl rfl (add_zero _)).trans (add_zero _).symm
  | @exchange signer x s beneficiaries receipt w ha hx hb hw =>
    have h := (Transfer.settle_ok hw).2.2.backing rfl hx
    rw [← Receipt.shared_eq] at h
    refine Eq.trans h ?_
    simp [Engine.settledShares, hb, hw]
  | @slash signer id amount p ha hn hb =>
    obtain ⟨hp, -⟩ := Engine.admitSlash_ok ha
    refine (World.backing_insert_over (hs.get?_id hp) (.slashedFor p amount signer now) rfl
      ?_).trans (add_zero _).symm
    rw [Engine.host_after, Host.ledger_withLedger, Ledger.promised_slashed _ _ _ hb]
    rfl
  | @repay signer id p ha hb hr =>
    obtain ⟨hp, -⟩ := Engine.admitRepayment_ok ha
    refine (World.backing_insert_over (hs.get?_id hp) (.repaidInFull p signer now) rfl
      ?_).trans (add_zero _).symm
    simp only [Engine.host_after, Host.ledger_withLedger, Ledger.promised_committed,
      Ledger.promised_collected, Ledger.held_committed, Ledger.held_collected,
      show (p.repaidInFull signer now).escrowedFees = p.escrowedFees from rfl]
    omega
  | setParams ha hp => exact (add_zero _).symm

theorem Outcome.burned_lt {e e' : Engine} {now : Instant} {m : Message} {r : Response}
    (hb : e.host.ledger.burned < amountBound) (h : Outcome e now m r e') :
    e'.host.ledger.burned < amountBound := by
  cases h with
  | slash _ _ _ hroom => exact hroom
  | exchange _ _ _ hw => exact (Transfer.settle_ok hw).2.2.untouched.2 ▸ hb
  | confirmTermination =>
    simp only [Engine.host_after, Host.ledger_withLedger, Ledger.terminated, Ledger.shareReturned]
    split <;> exact hb
  | _ => exact hb

/-- What is burned is counted within the range of amounts in every run. -/
theorem Engine.run_burned_lt {e : Engine} (hb : e.host.ledger.burned < amountBound)
    (steps : List Step) : (e.run steps).host.ledger.burned < amountBound := by
  refine run_invariant (P := fun e => e.host.ledger.burned < amountBound) hb (fun e s hb => ?_)
    steps
  exact step_invariant (P := fun e => e.host.ledger.burned < amountBound) Outcome.burned_lt
    (fun _ hb => hb) e s hb

/-- What is promised, released or burned is what the module accounts hold without the escrowed
fees, and the second credit of every share that an exchange settled. Every other message leaves
the two sides as they were. -/
theorem promised_eq_held_sub_escrowed {host : Host} {params : Params} {authority : Address}
    {e : Engine} (hl : host.ledger.HoldsOnlyBalances)
    (hn : Engine.new host params authority = .ok e) (steps : List Step) :
    ((e.run steps).host.ledger.promised : Int) =
        (e.run steps).host.ledger.held - (e.run steps).records.escrowed +
          e.tally (Engine.accepted Engine.settledShares) steps ∧
      ∀ now m r e', (e.run steps).deliver now m = (.ok r, e') →
        (∀ x, m.action ≠ .exchange x) → e'.backing = (e.run steps).backing := by
  constructor
  · have hz : e.backing = 0 := by
      obtain ⟨-, rfl⟩ := Engine.new_eq_ok_iff.mp hn
      simp only [World.backing, Ledger.promised, Ledger.held, hl.modules, hl.deposits,
        hl.claimable, hl.burned]
      rfl
    have h := Engine.run_balance (I := fun e => e.records.Sound) (q := fun e => e.backing)
      (f := Engine.settledShares) (Engine.new_sound hn) (fun _ _ => Engine.step_sound)
      (fun hs h => h.backing hs) (fun _ _ => rfl) steps
    rw [hz, zero_add, World.backing] at h
    omega
  · intro now m r e' hd hx
    have h := (Engine.deliver_ok hd).backing (Engine.run_covered hn steps).1
    have hs : (e.run steps).settledShares m = 0 := by
      unfold Engine.settledShares
      split
      · rename_i x hm
        exact absurd hm (hx x)
      · rfl
    rw [h, hs, add_zero]

theorem promised_eq_held_sub_escrowed_history :
    (Sample.engine.run Sample.history).host.ledger.promised = 282 ∧
      (Sample.engine.run Sample.history).records.escrowed = 400 ∧
      ((Sample.engine.run Sample.history).host.ledger.promised : Int) =
        (Sample.engine.run Sample.history).host.ledger.held -
          (Sample.engine.run Sample.history).records.escrowed + 16 := by
  have h := (promised_eq_held_sub_escrowed Sample.host_holds Sample.engine_new
    Sample.history).1
  have ht : Sample.engine.tally (Engine.accepted Engine.settledShares) Sample.history = 16 := by
    decide +kernel
  exact ⟨by decide +kernel, by decide +kernel, ht ▸ h⟩

end TrustPermit
