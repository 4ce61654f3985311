import TrustPermit.Proofs.Ledger
import TrustPermit.Proofs.Records
import TrustPermit.Settlement

/-! # What a payout does

A payout raises the deposits of the beneficiary's row and of the executor's, and credits the
trust deposits of their grantees by the same share. The world after it is given as a function of
the one before.
-/

namespace TrustPermit

namespace Ledger

def committedTo (l : Ledger) (account : Option Address) (n : Nat) : Ledger :=
  account.elim l (l.committed · n)

variable (l : Ledger) (account : Option Address) (n : Nat)

@[simp] theorem deposit_committedTo (a : Address) :
    (l.committedTo account n).deposit a = l.deposit a + if account = some a then n else 0 := by
  cases account with
  | none => simp [committedTo]
  | some b => simp [committedTo, eq_comm]

@[simp] theorem promised_committedTo :
    (l.committedTo account n).promised = l.promised + if account.isSome then n else 0 := by
  cases account <;> simp [committedTo]

@[simp] theorem held_committedTo : (l.committedTo account n).held = l.held := by
  cases account <;> simp [committedTo]

@[simp] theorem committedTo_zero : l.committedTo account 0 = l := by
  cases account <;> simp [committedTo, committed, Table.raised]

end Ledger

namespace SettlementTerms

/-- What a share adds to the deposit of each row. -/
def credits (t : SettlementTerms) (beneficiary : PermissionId) (share : Nat)
    (id : PermissionId) : Nat :=
  (if id = beneficiary then share else 0) + if t.executor = some id then share else 0

def direct (t : SettlementTerms) (l : Ledger) (grantee : Address) (n : Nat) : Ledger :=
  match t.payer with
  | .account payer => l.sent payer grantee n
  | .escrow => l.refunded t.moduleAccount grantee n

def collect (t : SettlementTerms) (l : Ledger) (n : Nat) : Ledger :=
  match t.payer with
  | .account payer => l.collected payer t.moduleAccount n
  | .escrow => l

def Covers (t : SettlementTerms) (l : Ledger) (n : Nat) : Prop :=
  t.payer = .escrow → n ≤ l.moduleFunds t.moduleAccount

variable (t : SettlementTerms) (l : Ledger) (a b : Address) (n : Nat)

@[simp] theorem deposit_direct : (t.direct l a n).deposit b = l.deposit b := by
  unfold direct; split <;> simp

@[simp] theorem deposit_collect : (t.collect l n).deposit b = l.deposit b := by
  unfold collect; split <;> simp

theorem credits_none (b : PermissionId) (hx : t.executor = none) :
    t.credits b n = fun id => if id = b then n else 0 := by
  funext id
  simp [credits, hx]

theorem credits_some (b : PermissionId) {x : PermissionId} (hx : t.executor = some x) :
    t.credits b n = fun id => (if id = b then n else 0) + if id = x then n else 0 := by
  funext id
  simp [credits, hx, eq_comm]

@[simp] theorem collect_zero : t.collect l 0 = l := by
  unfold collect
  split <;> simp [Ledger.collected, Table.raised, Table.lowered]

@[simp] theorem direct_zero : t.direct l a 0 = l := by
  unfold direct
  split <;> simp [Ledger.sent, Ledger.refunded, Table.raised, Table.lowered]

end SettlementTerms

namespace World

def withLedger (w : World) (l : Ledger) : World := w.withHost (w.host.withLedger l)

@[simp] theorem records_withLedger (w : World) (l : Ledger) :
    (w.withLedger l).records = w.records := rfl

@[simp] theorem host_withLedger (w : World) (l : Ledger) :
    (w.withLedger l).host = w.host.withLedger l := rfl

def executorGrantee (w : World) (t : SettlementTerms) : Option Address :=
  t.executor.bind fun id => (w.records.get? id).map (·.grantee)

def shared (w : World) (t : SettlementTerms) (b : Permission) (share : Nat) : World :=
  ⟨w.records.raisedBy (t.credits b.id share),
    w.host.withLedger <|
      ((t.collect w.host.ledger share).committed b.grantee share).committedTo
        (w.executorGrantee t) share⟩

def paid (w : World) (t : SettlementTerms) (b : Permission) (split : FeeShares) : World :=
  (w.withLedger (t.direct w.host.ledger b.grantee split.direct)).shared t b split.share

theorem shared_zero (w : World) (t : SettlementTerms) (b : Permission) : w.shared t b 0 = w := by
  have hc : t.credits b.id 0 = fun _ => 0 := by funext id; simp [SettlementTerms.credits]
  simp [shared, hc, Ledger.committed, Table.raised, Host.withLedger]

theorem untouched_paid (w : World) (t : SettlementTerms) (b : Permission) (split : FeeShares) :
    (w.paid t b split).host.ledger.claimable = w.host.ledger.claimable ∧
      (w.paid t b split).host.ledger.burned = w.host.ledger.burned := by
  simp only [paid, shared, host_withLedger, Host.ledger_withLedger, SettlementTerms.collect,
    SettlementTerms.direct, Ledger.committedTo]
  cases t.payer <;> cases (w.withLedger _).executorGrantee t <;> exact ⟨rfl, rfl⟩

end World

namespace Transfer

variable {t : SettlementTerms} {w w' : World} {b : Permission} {u : Unit} {n : Nat}

@[simp] theorem onHost_eq_ok_iff {α : Type} {action : HostAction α} {a : α} :
    onHost action w = .ok a w' ↔ ∃ h, action w.host = .ok a h ∧ w.withHost h = w' := by
  simp [onHost]

theorem raiseDeposit_eq_ok_iff {r r' : Records} {id : PermissionId} :
    r.raiseDeposit id n = .ok r' ↔ (∃ p, r.get? id = some p ∧ p.deposit + n < amountBound) ∧
      r.raisedBy (fun other => if other = id then n else 0) = r' := by
  simp only [Records.raiseDeposit, Guard.bind_eq_ok_iff, Records.require_eq_ok_iff,
    Guard.demand_eq_ok_iff, Guard.pure_eq_ok_iff, Records.modify_raiseDeposit]
  constructor
  · rintro ⟨p, hp, _, hd, rfl⟩
    exact ⟨⟨p, hp, hd⟩, rfl⟩
  · rintro ⟨⟨p, hp, hd⟩, rfl⟩
    exact ⟨p, hp, (), hd, rfl⟩

theorem creditShare_eq_ok_iff {id : PermissionId} {a : Address} (hn : n ≠ 0) :
    creditShare id a n w = .ok u w' ↔ n < deltaBound ∧ a ∉ w.host.frozen ∧
      w.host.ledger.deposit a + n < amountBound ∧
      (∃ p, w.records.get? id = some p ∧ p.deposit + n < amountBound) ∧
      World.mk (w.records.raisedBy fun other => if other = id then n else 0)
        (w.host.withLedger (w.host.ledger.committed a n)) = w' := by
  simp only [creditShare, Effect.bind_eq_ok_iff, onHost_eq_ok_iff, Host.commit_eq_ok_iff hn,
    Effect.change_eq_ok_iff, Guard.exceptMap_eq_ok_iff, raiseDeposit_eq_ok_iff]
  constructor
  · rintro ⟨_, _, ⟨_, ⟨hd, hf, hb, rfl⟩, rfl⟩, _, ⟨hp, rfl⟩, rfl⟩
    exact ⟨hd, hf, hb, hp, rfl⟩
  · rintro ⟨hd, hf, hb, hp, rfl⟩
    exact ⟨(), _, ⟨_, ⟨hd, hf, hb, rfl⟩, rfl⟩, _, ⟨hp, rfl⟩, rfl⟩

theorem payDirect_ok {a : Address} (h : payDirect t a n w = .ok u w') :
    t.Covers w.host.ledger n ∧ w.withLedger (t.direct w.host.ledger a n) = w' := by
  rcases Effect.unlessZero_eq_ok_iff.mp h with ⟨rfl, rfl⟩ | ⟨hn, h⟩
  · exact ⟨fun _ => Nat.zero_le _, by rw [SettlementTerms.direct_zero]; rfl⟩
  · cases hp : t.payer with
    | account payer =>
      simp only [hp, onHost_eq_ok_iff, Host.send_eq_ok_iff hn] at h
      obtain ⟨_, ⟨-, -, -, rfl⟩, rfl⟩ := h
      exact ⟨by simp [SettlementTerms.Covers, hp], by simp [SettlementTerms.direct, hp]; rfl⟩
    | escrow =>
      simp only [hp, onHost_eq_ok_iff, Host.sendFromModule_eq_ok_iff hn] at h
      obtain ⟨_, ⟨-, hc, -, rfl⟩, rfl⟩ := h
      exact ⟨fun _ => hc, by simp [SettlementTerms.direct, hp]; rfl⟩

theorem collectShare_ok (hn : n ≠ 0) (h : collectShare t n w = .ok u w') :
    w.withLedger (t.collect w.host.ledger n) = w' := by
  cases hp : t.payer with
  | account payer =>
    simp only [collectShare, hp, onHost_eq_ok_iff, Host.sendToModule_eq_ok_iff hn] at h
    obtain ⟨_, ⟨-, -, -, rfl⟩, rfl⟩ := h
    simp [SettlementTerms.collect, hp]
    rfl
  | escrow =>
    simp only [collectShare, hp, Effect.pure_eq_ok_iff] at h
    obtain ⟨-, rfl⟩ := h
    simp [SettlementTerms.collect, hp]
    rfl

theorem payShare_ok (h : payShare t b n w = .ok u w') :
    (n ≠ 0 → t.executor.isSome → (w.executorGrantee t).isSome) ∧ w.shared t b n = w' := by
  rcases Effect.unlessZero_eq_ok_iff.mp h with ⟨rfl, rfl⟩ | ⟨hn, h⟩
  · exact ⟨fun h => absurd rfl h, World.shared_zero w t b⟩
  · simp only [Effect.bind_eq_ok_iff] at h
    obtain ⟨_, w₁, h₁, _, w₂, h₂, h₃⟩ := h
    obtain rfl := collectShare_ok hn h₁
    obtain ⟨-, -, -, -, rfl⟩ := (creditShare_eq_ok_iff hn).mp h₂
    cases hx : t.executor with
    | none =>
      simp only [creditExecutor, hx, Effect.pure_eq_ok_iff] at h₃
      obtain ⟨-, rfl⟩ := h₃
      refine ⟨by simp, ?_⟩
      simp [World.shared, World.executorGrantee, t.credits_none n b.id hx, hx,
        Ledger.committedTo]
    | some id =>
      simp only [creditExecutor, hx, Effect.bind_eq_ok_iff, Effect.ask_eq_ok_iff,
        Records.require_eq_ok_iff, creditShare_eq_ok_iff hn] at h₃
      obtain ⟨p, _, ⟨hp, rfl⟩, -, -, -, -, rfl⟩ := h₃
      simp only [Records.get?_raisedBy, Option.map_eq_some_iff] at hp
      obtain ⟨q, hq, rfl⟩ := hp
      have hg : w.executorGrantee t = some q.grantee := by
        simp [World.executorGrantee, hx, show w.records.get? id = some q from hq]
      refine ⟨by simp [hg], ?_⟩
      simp [World.shared, t.credits_some n b.id hx, hg, Ledger.committedTo,
        Permission.raiseDeposit]

/-- A payout splits the amount as the terms say and turns the world into the paid one. -/
theorem payOut_ok {amount : Nat} {line : Payout} (h : payOut t b amount w = .ok line w') :
    FeeShares.of amount t.depositRate = .ok line.split ∧ line.beneficiary = b.id ∧
      line.grantee = b.grantee ∧ t.Covers w.host.ledger line.split.direct ∧
      (line.split.share ≠ 0 → t.executor.isSome → (w.executorGrantee t).isSome) ∧
      w.paid t b line.split = w' := by
  simp only [payOut, Effect.bind_eq_ok_iff, Effect.ask_eq_ok_iff] at h
  obtain ⟨split, _, ⟨hs, rfl⟩, _, w₁, h₁, _, w₂, h₂, h₃, rfl⟩ := h
  cases h₃
  obtain ⟨hc, rfl⟩ := payDirect_ok h₁
  obtain ⟨hx, rfl⟩ := payShare_ok h₂
  exact ⟨hs, rfl, rfl, hc, hx, rfl⟩

end Transfer

/-- A settlement pays its lines one after the other; a beneficiary without a fee gets none. -/
inductive Settles (t : SettlementTerms) :
    List Permission → World → List Payout → World → Prop where

  | nil (w : World) : Settles t [] w [] w

  | skip {b : Permission} {rest : List Permission} {w w' : World} {lines : List Payout} :
      b.fees.of t.kind = 0 → Settles t rest w lines w' → Settles t (b :: rest) w lines w'

  | pay {b : Permission} {rest : List Permission} {w w' : World} {line : Payout}
      {lines : List Payout} :
      FeeShares.of (b.fees.of t.kind * t.unitPrice) t.depositRate = .ok line.split →
      line.beneficiary = b.id → line.grantee = b.grantee →
      t.Covers w.host.ledger line.split.direct →
      (line.split.share ≠ 0 → t.executor.isSome → (w.executorGrantee t).isSome) →
      Settles t rest (w.paid t b line.split) lines w' →
      Settles t (b :: rest) w (line :: lines) w'

theorem Transfer.payOutAll_cons_ok {t : SettlementTerms} {b : Permission} {rest : List Permission}
    {w w' : World} {lines : List Payout} (h : payOutAll t (b :: rest) w = .ok lines w') :
    b.fees.of t.kind = 0 ∧ payOutAll t rest w = .ok lines w' ∨
      b.fees.of t.kind ≠ 0 ∧ ∃ line w₁ tail,
        payOut t b (b.fees.of t.kind * t.unitPrice) w = .ok line w₁ ∧
        payOutAll t rest w₁ = .ok tail w' ∧ line :: tail = lines := by
  by_cases hf : b.fees.of t.kind = 0
  · simp only [payOutAll, hf, if_true] at h
    exact .inl ⟨hf, h⟩
  · simp only [payOutAll, hf, if_false, Effect.bind_eq_ok_iff, Effect.ask_eq_ok_iff,
      Effect.pure_eq_ok_iff, feeInDenom, Guard.bind_eq_ok_iff, Guard.pure_eq_ok_iff] at h
    obtain ⟨_, _, ⟨⟨_, -, rfl⟩, rfl⟩, line, w₁, h₁, tail, _, h₂, rfl, rfl⟩ := h
    exact .inr ⟨hf, line, w₁, tail, h₁, h₂, rfl⟩

theorem Transfer.payOutAll_ok {t : SettlementTerms} {bs : List Permission} {w w' : World}
    {lines : List Payout} (h : payOutAll t bs w = .ok lines w') : Settles t bs w lines w' := by
  induction bs generalizing w lines with
  | nil =>
    obtain ⟨rfl, rfl⟩ := Effect.pure_eq_ok_iff.mp h
    exact .nil w
  | cons b rest ih =>
    rcases payOutAll_cons_ok h with ⟨hf, h⟩ | ⟨-, line, w₁, tail, h₁, h₂, rfl⟩
    · exact .skip hf (ih h)
    · obtain ⟨hs, hb, hg, hc, hx, rfl⟩ := payOut_ok h₁
      exact .pay hs hb hg hc hx (ih h₂)

theorem Transfer.settle_ok {t : SettlementTerms} {bs : List Permission} {w w' : World}
    {r : Receipt} (h : settle t bs w = .ok r w') :
    r.kind = t.kind ∧ r.executor = t.executor ∧ Settles t bs w r.lines w' := by
  simp only [settle, Effect.bind_eq_ok_iff, Effect.pure_eq_ok_iff] at h
  obtain ⟨lines, _, h, rfl, rfl⟩ := h
  exact ⟨rfl, rfl, payOutAll_ok h⟩

/-- A settlement only raises deposits of rows and changes the ledger. -/
theorem Settles.world {t : SettlementTerms} {bs : List Permission} {w w' : World}
    {lines : List Payout} (h : Settles t bs w lines w') :
    (∃ g, w'.records = w.records.raisedBy g) ∧ w'.host = w.host.withLedger w'.host.ledger := by
  induction h with
  | nil w => exact ⟨⟨fun _ => 0, by simp⟩, rfl⟩
  | skip _ _ ih => exact ih
  | pay _ _ _ _ _ _ ih =>
    obtain ⟨⟨g, hg⟩, hh⟩ := ih
    refine ⟨⟨_, hg.trans (Records.raisedBy_raisedBy ..)⟩, ?_⟩
    rw [hh]
    rfl

theorem Settles.untouched {t : SettlementTerms} {bs : List Permission} {w w' : World}
    {lines : List Payout} (h : Settles t bs w lines w') :
    w'.host.ledger.claimable = w.host.ledger.claimable ∧
      w'.host.ledger.burned = w.host.ledger.burned := by
  induction h with
  | nil => exact ⟨rfl, rfl⟩
  | skip _ _ ih => exact ih
  | @pay b _ w _ line _ _ _ _ _ _ _ ih =>
    obtain ⟨hc, hb⟩ := w.untouched_paid t b line.split
    exact ⟨ih.1.trans hc, ih.2.trans hb⟩

theorem FeeShares.of_ok {fee : Nat} {rate : Rate} {s : FeeShares} (h : of fee rate = .ok s) :
    s.fee = fee ∧ s.direct + s.share = fee ∧ rate.portion? fee = some s.share := by
  simp only [of, Guard.bind_eq_ok_iff, Guard.expect_eq_ok_iff, Guard.demand_eq_ok_iff,
    Guard.pure_eq_ok_iff] at h
  obtain ⟨share, hs, _, hle, rfl⟩ := h
  exact ⟨rfl, Nat.sub_add_cancel hle, hs⟩

end TrustPermit
