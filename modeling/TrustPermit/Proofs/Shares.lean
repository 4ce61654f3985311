import Mathlib.Algebra.Order.Floor.Semifield
import Mathlib.Data.Rat.Floor
import Mathlib.Tactic.NormNum
import TrustPermit.Engine.Queries
import TrustPermit.Proofs.Denominations
import TrustPermit.Proofs.Refusals

/-! # Shares of fees

A portion of an amount is the exact product, rounded down, and it is found whenever it and the
product of units fit. Rates that governance may set are at most one and amounts in escrow fit, so
no message fails for the share of a fee.
-/

namespace TrustPermit

namespace Rate

variable {r : Rate} {amount : Nat}

def value (r : Rate) : ℚ := r.scaled / 10 ^ 18

theorem value_le_one_iff : r.value ≤ 1 ↔ r.isAtMostOne = true := by
  rw [value, div_le_one (by positivity), isAtMostOne, decide_eq_true_eq, ← Nat.cast_le (α := ℚ)]
  norm_num [scale]

theorem floor_mul_value (r : Rate) (amount : Nat) :
    ⌊(amount : ℚ) * r.value⌋₊ = amount * r.scaled / scale := by
  have hproduct : (amount : ℚ) * r.value = ((amount * r.scaled : Nat) : ℚ) / (scale : Nat) := by
    rw [value, mul_div_assoc']
    norm_num [scale]
  rw [hproduct, Nat.floor_div_eq_div]

theorem portion?_eq (r : Rate) (amount : Nat) :
    r.portion? amount =
      if 2 ^ 128 ≤ amount * r.scaled ∨ 2 ^ 64 ≤ ⌊(amount : ℚ) * r.value⌋₊ then none
      else some ⌊(amount : ℚ) * r.value⌋₊ := by
  have hbounds : bound = 2 ^ 128 ∧ amountBound = 2 ^ 64 := ⟨rfl, rfl⟩
  rw [floor_mul_value, portion?, hbounds.1, hbounds.2]
  split_ifs with hfit hbig hbig
  · omega
  · rfl
  · rfl
  · omega

/-- An amount has 64 bits and a rate of at most one has 60, which fit together. -/
theorem mul_scaled_lt (hr : r.isAtMostOne = true) (ha : amount < amountBound) :
    amount * r.scaled < bound := by
  have hle : r.scaled ≤ scale := of_decide_eq_true hr
  calc amount * r.scaled ≤ amountBound * scale := Nat.mul_le_mul ha.le hle
    _ < bound := by decide

theorem mul_scaled_div_le (hr : r.isAtMostOne = true) : amount * r.scaled / scale ≤ amount := by
  have hle : r.scaled ≤ scale := of_decide_eq_true hr
  apply Nat.div_le_of_le_mul
  rw [Nat.mul_comm scale]
  exact Nat.mul_le_mul_left amount hle

end Rate

theorem FeeShares.of_eq_ok {r : Rate} {fee : Nat} (hr : r.isAtMostOne = true)
    (hf : fee < amountBound) :
    of fee r = .ok ⟨fee, fee * r.scaled / Rate.scale, fee - fee * r.scaled / Rate.scale⟩ := by
  have hle : fee * r.scaled / Rate.scale ≤ fee := Rate.mul_scaled_div_le hr
  have hp : r.portion? fee = some (fee * r.scaled / Rate.scale) :=
    Rate.portion?_eq_some_iff.mpr ⟨Rate.mul_scaled_lt hr hf, hle.trans_lt hf, rfl⟩
  simp [of, hp, expect, Guard.ok_bind, demand, hle]

namespace Params

variable {p : Params} {u : Unit}

theorem check_eq_ok_iff : p.check = .ok u ↔ p.fault? = none := by
  unfold check
  split <;> simp [*]

theorem isAtMostOne_of_check (h : p.check = .ok u) : p.depositRate.isAtMostOne = true := by
  rw [check_eq_ok_iff, fault?] at h
  split_ifs at h with hr
  simpa using hr

theorem pageSize_of_check (h : p.check = .ok u) :
    0 < p.defaultPageSize ∧ p.defaultPageSize ≤ p.maxPageSize := by
  rw [check_eq_ok_iff, fault?] at h
  split_ifs at h
  omega

end Params

namespace Engine

/-- The parameters pass their check, and what is in escrow fits. -/
structure InRange (e : Engine) : Prop where
  params : e.params.check = .ok ()
  escrow : ∀ id p, e.records.get? id = some p → p.escrowedFees < amountBound

variable {e e' : Engine} {now : Instant} {m : Message} {validator : Permission}

theorem quote_fee_lt {cost : Escrow} (h : e.quote validator = .ok cost) :
    cost.fee < amountBound := by
  simp only [quote, Guard.bind_eq_ok_iff, Guard.demand_eq_ok_iff, Guard.pure_eq_ok_iff] at h
  obtain ⟨_, -, _, -, _, hlt, rfl⟩ := h
  exact (Nat.le_add_right _ _).trans_lt hlt

end Engine

namespace Outcome

variable {e e' : Engine} {now : Instant} {m : Message} {r : Response}

theorem params (h : Outcome e now m r e') (hp : e.params.check = .ok ()) :
    e'.params.check = .ok () := by
  cases h with
  | setParams _ hc => exact hc
  | _ => exact hp

theorem escrow (hs : e.records.Sound) (h : Outcome e now m r e')
    (hf : ∀ id p, e.records.get? id = some p → p.escrowedFees < amountBound) {id : PermissionId}
    {q : Permission} (hq : e'.records.get? id = some q) : q.escrowedFees < amountBound := by
  have hrest : (∀ a, m.action ≠ .start a) → (∀ id, m.action ≠ .renew id) →
      q.escrowedFees < amountBound := by
    intro hstart hrenew
    rcases (h.develops hs).row hq with ⟨p, hp, hb⟩ | ⟨-, hnew⟩
    · exact (hb.escrowedFees_le (hrenew _)).trans_lt (hf id p hp)
    · rw [hnew.escrowedFees hstart]
      decide
  cases h with
  | start _ hcost =>
    rcases Records.get?_stored hq with ⟨-, rfl⟩ | hq
    · exact Engine.quote_fee_lt hcost
    · exact hf id q hq
  | renew _ hcost =>
    rw [Engine.records_after, Records.get?_insert] at hq
    split at hq
    · cases hq
      exact Engine.quote_fee_lt hcost
    · exact hf id q hq
  | _ => exact hrest nofun nofun

end Outcome

namespace Engine

variable {e : Engine}

theorem step_inRange (hs : e.records.Sound) (h : e.InRange) (s : Step) : (e.step s).InRange := by
  cases s using e.step_cases with
  | surround host => exact ⟨h.params, h.escrow⟩
  | refused now m _ hstep => rwa [hstep]
  | accepted now m r e' _ hstep ho =>
    rw [hstep]
    exact ⟨ho.params h.params, fun _ _ => ho.escrow hs h.escrow⟩

theorem run_inRange {host : Host} {params : Params} {authority : Address}
    (hn : new host params authority = .ok e) (steps : List Step) : (e.run steps).InRange := by
  have h₀ : e.InRange := by
    refine ⟨?_, new_rows hn⟩
    obtain ⟨hc, rfl⟩ := new_eq_ok_iff.mp hn
    exact hc
  exact (run_invariant (P := fun e => e.records.Sound ∧ e.InRange) ⟨new_sound hn, h₀⟩
    (fun _ s h => ⟨step_sound h.1, step_inRange h.1 h.2 s⟩) steps).2

end Engine

def Fault.isOvershare : Fault → Bool
  | overflow .depositShare => true
  | _ => false

theorem Fault.isOvershare_eq_false {f : Fault} (h : f.isPayment = false) :
    f.isOvershare = false := by
  cases f <;> first | rfl | cases h

theorem feeInDenom_noOvershare (fee unitPrice : Nat) :
    Guard.RulesOut Fault.isOvershare (feeInDenom fee unitPrice) :=
  .bind (.demand rfl) fun _ => .ok _

theorem feeInDenom_lt {fee unitPrice amount : Nat} (h : feeInDenom fee unitPrice = .ok amount) :
    amount < amountBound := by
  simp only [feeInDenom, Guard.bind_eq_ok_iff, Guard.demand_eq_ok_iff, Guard.pure_eq_ok_iff] at h
  obtain ⟨_, hlt, rfl⟩ := h
  exact hlt

theorem FeeShares.of_noOvershare {r : Rate} {fee : Nat} (hr : r.isAtMostOne = true)
    (hf : fee < amountBound) : Guard.RulesOut Fault.isOvershare (of fee r) :=
  of_eq_ok hr hf ▸ .ok _

theorem amountDue_noOvershare (kind : FeeKind) (unitPrice : Nat) (bs : List Permission) :
    Guard.RulesOut Fault.isOvershare (amountDue kind unitPrice bs) := by
  unfold amountDue
  generalize 0 = total
  induction bs generalizing total with
  | nil => exact .ok total
  | cons b rest ih =>
    refine .bind (.bind (feeInDenom_noOvershare ..) fun _ => .bind (.demand rfl) fun _ => .ok _) ih

namespace Transfer

open Effect

variable {t : SettlementTerms} {w : World}

theorem onHost_noOvershare {α : Type} (action : HostAction α) :
    RulesOut Fault.isOvershare (onHost action) w :=
  .within (.of_forall (fun _ => rfl) action)

theorem creditShare_noOvershare (id : PermissionId) (a : Address) (n : Nat) :
    RulesOut Fault.isOvershare (creditShare id a n) w :=
  .bind (onHost_noOvershare _) fun _ _ _ => .change <|
    .map (.bind (.expect rfl) fun _ => .bind (.demand rfl) fun _ => .ok _) _

theorem payOut_noOvershare (hr : t.depositRate.isAtMostOne = true) (b : Permission) {n : Nat}
    (hn : n < amountBound) : RulesOut Fault.isOvershare (payOut t b n) w := by
  refine .ask_bind (FeeShares.of_noOvershare hr hn) fun split _ =>
    .bind (.unlessZero fun _ => ?_) fun _ _ _ => .bind (.unlessZero fun _ => .bind ?_ fun _ _ _ =>
      .bind (creditShare_noOvershare ..) fun _ _ _ => ?_) fun _ _ _ => .ask (.ok _)
  · split <;> exact onHost_noOvershare _
  · unfold collectShare
    split
    · exact onHost_noOvershare _
    · exact .pure ()
  · cases t.executor with
    | none => exact .pure ()
    | some id => exact .ask_bind (.expect rfl) fun _ _ => creditShare_noOvershare ..

theorem payOutAll_noOvershare (hr : t.depositRate.isAtMostOne = true) (bs : List Permission) :
    RulesOut Fault.isOvershare (payOutAll t bs) w := by
  induction bs generalizing w with
  | nil => exact .pure []
  | cons b rest ih =>
    unfold payOutAll
    split
    · exact ih
    · exact .ask_bind (feeInDenom_noOvershare ..) fun _ hn =>
        .bind (payOut_noOvershare hr b (feeInDenom_lt hn)) fun _ _ _ => .bind ih fun _ _ _ =>
          .pure _

end Transfer

theorem Engine.quote_noOvershare {e : Engine} (hr : e.params.depositRate.isAtMostOne = true)
    (validator : Permission) : Guard.RulesOut Fault.isOvershare (e.quote validator) :=
  .bind_ok (feeInDenom_noOvershare ..) fun _ hfee =>
    .bind (FeeShares.of_noOvershare hr (feeInDenom_lt hfee)) fun _ => .bind (.demand rfl) fun _ =>
      .ok _

theorem Message.check_noOvershare (m : Message) : Guard.RulesOut Fault.isOvershare m.check := by
  obtain ⟨signer, action⟩ := m
  have horder : ∀ start finish,
      Guard.RulesOut Fault.isOvershare (checkValidityOrder start finish) := by
    intro start finish
    unfold checkValidityOrder
    split
    · exact .demand rfl
    · exact .ok ()
  cases action with
  | start | renew | extend | revoke | cancel | requestTermination | confirmTermination | repay =>
    exact .demand rfl
  | validate => exact .bind (.demand rfl) fun _ => .bind (.demand rfl) fun _ => .demand rfl
  | createRoot => exact .bind (.demand rfl) fun _ => horder ..
  | create => exact .bind (.demand rfl) fun _ => .bind (.demand rfl) fun _ => horder ..
  | exchange => exact .bind (.demand rfl) fun _ => .bind (.demand rfl) fun _ => .demand rfl
  | slash => exact .bind (.demand rfl) fun _ => .demand rfl
  | setParams => exact .mapError fun _ => rfl

namespace Transaction

open Effect

variable {e : Engine} {now : Instant}

theorem admit_noOvershare {α β : Type} {g : Engine → Except Fault α} {f : α → Transaction β}
    (hg : Guard.RulesOut Fault.isPayment (g e))
    (hf : ∀ a, g e = .ok a → RulesOut Fault.isOvershare (f a) e) :
    RulesOut Fault.isOvershare (Effect.ask g >>= f) e :=
  .ask_bind (hg.mono fun _ => Fault.isOvershare_eq_false) hf

theorem onHost_noOvershare {α : Type} (action : HostAction α) :
    RulesOut Fault.isOvershare (onHost action) e :=
  .within (Transfer.onHost_noOvershare action)

theorem allocate_noOvershare : RulesOut Fault.isOvershare allocate e :=
  .ask_bind (.bind (.demand rfl) fun _ => .ok _) fun _ _ => .bind (.update _) fun _ _ _ => .pure _

theorem escrow_noOvershare (hr : e.params.depositRate.isAtMostOne = true) (a : Address)
    (validator : Permission) : RulesOut Fault.isOvershare (escrow a validator) e :=
  .ask_bind (Engine.quote_noOvershare hr validator) fun _ _ => .ask_bind (.demand rfl) fun _ _ =>
    .bind (.unlessZero fun _ => .get_bind (onHost_noOvershare _)) fun _ _ _ =>
      .bind (.unlessZero fun _ => onHost_noOvershare _) fun _ _ _ => .pure _

theorem payValidator_noOvershare {p : Permission}
    (hr : e.params.depositRate.isAtMostOne = true) (hp : p.escrowedFees < amountBound) :
    RulesOut Fault.isOvershare (payValidator p) e := by
  unfold payValidator
  split
  · exact .pure 0
  · exact .ask_bind (.expect rfl) fun _ _ => .ask_bind (.expect rfl) fun validator _ =>
      .get_bind <| .bind (.within (Transfer.payOut_noOvershare hr validator hp)) fun _ _ _ =>
        .bind (.update _) fun _ _ _ => .pure _

theorem releaseShare_noOvershare (p : Permission) (a : Address) :
    RulesOut Fault.isOvershare (releaseShare p a) e := by
  unfold releaseShare
  split
  · exact .unlessZero fun _ => .bind (onHost_noOvershare _) fun _ _ _ => .update _
  · exact .pure ()

/-- No handler fails for a share while the state is in range. -/
theorem perform_noOvershare (h : e.InRange) (m : Message) :
    RulesOut Fault.isOvershare (perform m now) e := by
  have hr := Params.isAtMostOne_of_check h.params
  obtain ⟨signer, action⟩ := m
  cases action with
  | start a =>
    exact admit_noOvershare (e.admitApplication_rulesOut a now) fun (validator, _) _ =>
      .bind (escrow_noOvershare hr signer validator) fun _ _ _ =>
        .bind allocate_noOvershare fun _ _ _ =>
          admit_noOvershare (validityWindow_rulesOut ..) fun _ _ => conclude_rulesOut ..
  | renew id =>
    exact admit_noOvershare (e.admitRenewal_rulesOut id signer now) fun (_, validator) _ =>
      .bind (escrow_noOvershare hr signer validator) fun _ _ _ => .ask_bind (.demand rfl) fun _ _ =>
        conclude_rulesOut ..
  | validate id terms =>
    refine admit_noOvershare (e.admitConsent_rulesOut id signer terms now) fun (p, _) hp => ?_
    have hfees := h.escrow id p (World.admitConsent_ok hp).1
    exact .bind (payValidator_noOvershare hr hfees) fun _ _ _ => .ask_bind (.demand rfl) fun _ _ =>
      conclude_rulesOut ..
  | extend id finish =>
    exact admit_noOvershare (e.admitExtension_rulesOut id signer finish) fun _ _ =>
      conclude_rulesOut ..
  | revoke id =>
    exact admit_noOvershare (e.admitRevocation_rulesOut id signer) fun _ _ => conclude_rulesOut ..
  | cancel id =>
    exact admit_noOvershare (e.admitCancellation_rulesOut id signer) fun _ _ =>
      .bind (.unlessZero fun _ => .get_bind (onHost_noOvershare _)) fun _ _ _ =>
        .bind (.unlessZero fun _ => onHost_noOvershare _) fun _ _ _ => conclude_rulesOut ..
  | requestTermination id =>
    exact admit_noOvershare (e.admitDeparture_rulesOut id signer) fun _ _ => conclude_rulesOut ..
  | confirmTermination id =>
    exact admit_noOvershare (e.admitTermination_rulesOut id signer) fun p _ =>
      .bind (.unlessZero fun _ => onHost_noOvershare _) fun _ _ _ => .bind (.update _) fun _ _ _ =>
        .bind (releaseShare_noOvershare p signer) fun _ _ _ => conclude_rulesOut ..
  | createRoot g =>
    exact admit_noOvershare (e.admitRoot_rulesOut signer g now) fun _ _ =>
      .bind allocate_noOvershare fun _ _ _ => conclude_rulesOut ..
  | create g =>
    exact admit_noOvershare (e.admitSelfGrant_rulesOut g now) fun _ _ =>
      .bind allocate_noOvershare fun _ _ _ => conclude_rulesOut ..
  | exchange x =>
    refine admit_noOvershare (e.records.admitExchange_rulesOut signer x now) fun _ _ =>
      .bind ?_ fun _ _ _ => .bind (.update _) fun _ _ _ => .bind (.update _) fun _ _ _ => .pure _
    refine .ask_bind ?_ fun bs _ => .get_bind <| .bind (.within (.bind ?_ fun _ _ _ => .pure _))
      fun _ _ _ => .update _
    · exact .bind ((e.records.beneficiaries_rulesOut ..).mono fun _ => Fault.isOvershare_eq_false)
        fun _ => .bind (amountDue_noOvershare ..) fun _ => .bind (.demand rfl) fun _ => .ok _
    · exact Transfer.payOutAll_noOvershare hr bs
  | slash id amount =>
    exact admit_noOvershare (e.admitSlash_rulesOut signer id amount now) fun _ _ =>
      .bind (onHost_noOvershare _) fun _ _ _ => conclude_rulesOut ..
  | repay id =>
    exact admit_noOvershare (e.admitRepayment_rulesOut signer id) fun _ _ => .get_bind <|
      .bind (onHost_noOvershare _) fun _ _ _ => .bind (onHost_noOvershare _) fun _ _ _ =>
        .ask_bind (.demand rfl) fun _ _ => conclude_rulesOut ..
  | setParams params =>
    exact .ask_bind (.demand rfl) fun _ _ => .ask_bind (.mapError fun _ => rfl) fun _ _ =>
      .bind (.update _) fun _ _ _ => .bind (.update _) fun _ _ _ => .pure _

end Transaction

namespace Engine

variable {e : Engine}

theorem InRange.deliver_ne_overshare (h : e.InRange) (now : Instant) (m : Message) :
    (e.deliver now m).1 ≠ .error (.overflow .depositShare) := fun hd =>
  absurd ((deliver_rulesOut m.check_noOvershare (Transaction.perform_noOvershare h m)).of_error hd)
    (by decide)

theorem InRange.pageLimit_eq_ok (h : e.InRange) {page : Page} (hp : page.size = none) :
    e.pageLimit page = .ok e.params.defaultPageSize := by
  simp [pageLimit, hp, demand, Params.pageSize_of_check h.params]

end Engine

/-- A fee is divided at any rate of at most one, into the exact product rounded down and the rest;
at other rates too a portion is that product or does not fit. The parameters pass their check in
every run, so no message fails for a share that does not fit, and pages have a size by default. -/
theorem shares_are_exact {host : Host} {params : Params} {authority : Address} {e : Engine}
    (hn : Engine.new host params authority = .ok e) (steps : List Step) :
    (∀ (r : Rate) (amount : Nat), r.value ≤ 1 → amount < 2 ^ 64 →
      ∃ s, FeeShares.of amount r = .ok s ∧ s.fee = amount ∧
        s.share = ⌊(amount : ℚ) * r.value⌋₊ ∧ s.direct + s.share = amount ∧
        amount * r.scaled < 2 ^ 128) ∧
    (∀ (r : Rate) (amount : Nat), r.portion? amount =
      if 2 ^ 128 ≤ amount * r.scaled ∨ 2 ^ 64 ≤ ⌊(amount : ℚ) * r.value⌋₊ then none
      else some ⌊(amount : ℚ) * r.value⌋₊) ∧
    (e.run steps).params.check = .ok () ∧
    (∀ now m, ((e.run steps).deliver now m).1 ≠ .error (.overflow .depositShare)) ∧
    ∀ page : Page, page.size = none →
      (∃ rows, (e.run steps).permissions page = .ok rows) ∧
        ∃ rows, (e.run steps).sessions page = .ok rows := by
  have hrange := Engine.run_inRange hn steps
  refine ⟨fun r amount hr ha => ?_, Rate.portion?_eq, hrange.params, hrange.deliver_ne_overshare,
    fun page hp => ?_⟩
  · have hr := Rate.value_le_one_iff.mp hr
    exact ⟨_, FeeShares.of_eq_ok hr ha, rfl, (r.floor_mul_value amount).symm,
      Nat.sub_add_cancel (Rate.mul_scaled_div_le hr), Rate.mul_scaled_lt hr ha⟩
  · have hlimit := hrange.pageLimit_eq_ok hp
    simp only [Engine.permissions, Engine.sessions, hlimit, Guard.ok_bind]
    exact ⟨⟨_, rfl⟩, ⟨_, rfl⟩⟩

/-- The largest amount is divided at the rate of one and at the rate that governance has set. -/
theorem shares_are_exact_history :
    (Sample.engine.run Sample.history).params = Sample.newParams ∧
      Sample.newParams.check = .ok () ∧
      (∀ r ∈ [Rate.one, Sample.newParams.depositRate], ∃ s,
        FeeShares.of (amountBound - 1) r = .ok s ∧ s.direct + s.share = amountBound - 1) ∧
      (∃ rows, (Sample.engine.run Sample.history).permissions ⟨none, none⟩ = .ok rows) ∧
      ((Sample.engine.run Sample.history).deliver Sample.noon ⟨Sample.issuer, .renew 3⟩).1 ≠
        .error (.overflow .depositShare) := by
  have hparams : (Sample.engine.run Sample.history).params = Sample.newParams := by decide +kernel
  obtain ⟨hsplit, -, hcheck, hdeliver, hpage⟩ :=
    shares_are_exact Sample.engine_new Sample.history
  refine ⟨hparams, hparams ▸ hcheck, fun r hr => ?_, (hpage ⟨none, none⟩ rfl).1, hdeliver _ _⟩
  have hone : r.isAtMostOne = true := by
    revert r
    decide
  obtain ⟨s, hs, -, -, hsum, -⟩ := hsplit r (amountBound - 1) (Rate.value_le_one_iff.mpr hone)
    (by decide)
  exact ⟨s, hs, hsum⟩

end TrustPermit
