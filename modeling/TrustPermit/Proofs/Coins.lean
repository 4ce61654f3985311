import TrustPermit.Proofs.Outsiders

/-! # Coins

Messages move coins between accounts and module accounts. None is made or lost on the way, whether
a message succeeds or fails, and only its signer pays. So the coins of a run change only with the
balances that its surroundings bring.
-/

namespace TrustPermit

namespace Ledger

def coins (l : Ledger) : Nat := l.balances.sum + l.modules.sum

variable {l : Ledger} {a b : Address} {m : String} {n : Nat}

/-- The source may be the target. -/
theorem coins_sent (h : n ≤ l.balance a) : (l.sent a b n).coins = l.coins := by
  have hs := l.balances.sum_lowered a h
  simp only [coins, sent, Table.sum_raised]
  omega

theorem coins_collected (h : n ≤ l.balance a) : (l.collected a m n).coins = l.coins := by
  have hs := l.balances.sum_lowered a h
  simp only [coins, collected, Table.sum_raised]
  omega

theorem coins_refunded (h : n ≤ l.moduleFunds m) : (l.refunded m a n).coins = l.coins := by
  have hs := l.modules.sum_lowered m h
  simp only [coins, refunded, Table.sum_raised]
  omega

@[simp] theorem coins_committed (l : Ledger) (a : Address) (n : Nat) :
    (l.committed a n).coins = l.coins := rfl

@[simp] theorem coins_released (l : Ledger) (a : Address) (n : Nat) :
    (l.released a n).coins = l.coins := rfl

@[simp] theorem coins_committedTo (l : Ledger) (account : Option Address) (n : Nat) :
    (l.committedTo account n).coins = l.coins := by
  cases account <;> rfl

@[simp] theorem coins_terminated (l : Ledger) (p : Permission) (authority : Address) :
    (l.terminated p authority).coins = l.coins := by
  unfold terminated shareReturned
  split <;> rfl

end Ledger

namespace SettlementTerms

/-- The payer holds what a payout takes from it. The share is collected after the direct part is
paid, and a payer that is the beneficiary has that back by then. -/
structure Funds (t : SettlementTerms) (l : Ledger) (grantee : Address) (split : FeeShares) :
    Prop where
  escrow : t.Covers l split.direct
  direct {payer} : t.payer = .account payer → split.direct ≤ l.balance payer
  share {payer} : t.payer = .account payer →
    split.share ≤ (t.direct l grantee split.direct).balance payer

namespace Funds

variable {t : SettlementTerms} {l : Ledger} {grantee : Address} {split : FeeShares}

theorem coins_direct (h : t.Funds l grantee split) :
    (t.direct l grantee split.direct).coins = l.coins := by
  cases hp : t.payer with
  | account payer =>
    simp only [SettlementTerms.direct, hp]
    exact Ledger.coins_sent (h.direct hp)
  | escrow =>
    simp only [SettlementTerms.direct, hp]
    exact Ledger.coins_refunded (h.escrow hp)

theorem coins_collect (h : t.Funds l grantee split) :
    (t.collect (t.direct l grantee split.direct) split.share).coins =
      (t.direct l grantee split.direct).coins := by
  cases hp : t.payer with
  | account payer =>
    have hs := h.share hp
    simp only [SettlementTerms.collect, hp]
    exact Ledger.coins_collected hs
  | escrow => simp only [SettlementTerms.collect, hp]

end Funds

end SettlementTerms

theorem World.coins_paid {w : World} {t : SettlementTerms} {b : Permission} {split : FeeShares}
    (h : t.Funds w.host.ledger b.grantee split) :
    (w.paid t b split).host.ledger.coins = w.host.ledger.coins := by
  simp only [paid, shared, host_withLedger, Host.ledger_withLedger, Ledger.coins_committedTo,
    Ledger.coins_committed]
  exact h.coins_collect.trans h.coins_direct

namespace Transfer

variable {t : SettlementTerms} {w w' : World} {b : Permission} {payer : Address} {n : Nat}
  {u : Unit}

theorem payDirect_balance (hp : t.payer = .account payer) {a : Address}
    (h : payDirect t a n w = .ok u w') : n ≤ w.host.ledger.balance payer := by
  rcases Effect.unlessZero_eq_ok_iff.mp h with ⟨rfl, -⟩ | ⟨hn, h⟩
  · exact Nat.zero_le _
  · simp only [hp, onHost_eq_ok_iff, Host.send_eq_ok_iff hn] at h
    obtain ⟨_, ⟨-, hb, -⟩, -⟩ := h
    exact hb

theorem payShare_balance (hp : t.payer = .account payer) (h : payShare t b n w = .ok u w') :
    n ≤ w.host.ledger.balance payer := by
  rcases Effect.unlessZero_eq_ok_iff.mp h with ⟨rfl, -⟩ | ⟨hn, h⟩
  · exact Nat.zero_le _
  · simp only [Effect.bind_eq_ok_iff, collectShare, hp, onHost_eq_ok_iff,
      Host.sendToModule_eq_ok_iff hn] at h
    obtain ⟨_, _, ⟨_, ⟨-, hb, -⟩, -⟩, -⟩ := h
    exact hb

theorem payOut_funds {line : Payout} (h : payOut t b n w = .ok line w') :
    t.Funds w.host.ledger b.grantee line.split := by
  simp only [payOut, Effect.bind_eq_ok_iff, Effect.ask_eq_ok_iff] at h
  obtain ⟨split, _, ⟨-, rfl⟩, _, w₁, h₁, _, w₂, h₂, h₃, -⟩ := h
  cases h₃
  obtain ⟨hc, hw⟩ := payDirect_ok h₁
  constructor
  · exact hc
  · intro payer hp
    exact payDirect_balance hp h₁
  · intro payer hp
    rw [← hw] at h₂
    exact payShare_balance hp h₂

theorem payOutAll_coins {bs : List Permission} {lines : List Payout}
    (h : payOutAll t bs w = .ok lines w') : w'.host.ledger.coins = w.host.ledger.coins := by
  induction bs generalizing w lines with
  | nil =>
    obtain ⟨-, rfl⟩ := Effect.pure_eq_ok_iff.mp h
    rfl
  | cons b rest ih =>
    rcases payOutAll_cons_ok h with ⟨-, h⟩ | ⟨-, line, w₁, tail, h₁, h₂, rfl⟩
    · exact ih h
    · have hfunds := payOut_funds h₁
      obtain ⟨-, -, -, -, -, rfl⟩ := payOut_ok h₁
      exact (ih h₂).trans (World.coins_paid hfunds)

theorem settle_coins {bs : List Permission} {r : Receipt} (h : settle t bs w = .ok r w') :
    w'.host.ledger.coins = w.host.ledger.coins := by
  simp only [settle, Effect.bind_eq_ok_iff, Effect.pure_eq_ok_iff] at h
  obtain ⟨_, _, h, -, rfl⟩ := h
  exact payOutAll_coins h

end Transfer

theorem Outcome.coins {e e' : Engine} {now : Instant} {m : Message} {r : Response}
    (h : Outcome e now m r e') : e'.host.ledger.coins = e.host.ledger.coins := by
  cases h with
  | start _ _ hb | renew _ _ hb =>
    simp only [Engine.host_after, Host.ledger_withLedger, Engine.charged, Ledger.coins_committed]
    exact Ledger.coins_collected hb
  | @paidConsent _ _ _ _ _ _ validator line _ _ _ _ _ _ hf =>
    have hfunds : (e.terms .validation .escrow none).Funds e.host.ledger validator.grantee
        line.split := ⟨fun _ => hf, by rintro _ ⟨⟩, by rintro _ ⟨⟩⟩
    exact World.coins_paid hfunds
  | cancel _ hf =>
    simp only [Engine.host_after, Host.ledger_withLedger, Ledger.coins_released]
    exact Ledger.coins_refunded hf
  | confirmTermination =>
    simp only [Engine.host_after, Host.ledger_withLedger, Ledger.coins_terminated]
  | exchange _ _ _ hw =>
    have hc := Transfer.settle_coins hw
    exact hc
  | repay _ hb =>
    simp only [Engine.host_after, Host.ledger_withLedger, Ledger.coins_committed]
    exact Ledger.coins_collected hb
  | _ => rfl

namespace Engine

/-- In any state, a message leaves as many coins as there were, whether it succeeds or fails, and
it takes none from anybody but its signer. -/
theorem deliver_conserves_coins (e : Engine) (now : Instant) (m : Message) :
    (e.deliver now m).2.host.ledger.coins = e.host.ledger.coins ∧
      ∀ a, a ≠ m.signer →
        e.host.ledger.balance a ≤ (e.deliver now m).2.host.ledger.balance a := by
  rcases e.deliver_cases now m with ⟨f, hd⟩ | ⟨r, e', hd, h⟩
  · rw [hd]
    exact ⟨rfl, fun _ _ => le_rfl⟩
  · rw [hd]
    exact ⟨h.coins, fun _ ha => h.balance_le ha⟩

/-- The issuer pays the grantor and the root, and its own share of the deposits. -/
theorem deliver_conserves_coins_exchange :
    (Sample.engine.run Sample.founding).Accepts Sample.noon
        ⟨Sample.issuer, .exchange ⟨"s", 3, 0, 3, 0⟩⟩ ∧
      ((Sample.engine.run Sample.founding).deliver Sample.noon
          ⟨Sample.issuer, .exchange ⟨"s", 3, 0, 3, 0⟩⟩).2.host.ledger.coins = 2000 ∧
      (Sample.engine.run Sample.founding).host.ledger.balance Sample.grantor ≤
        ((Sample.engine.run Sample.founding).deliver Sample.noon
          ⟨Sample.issuer, .exchange ⟨"s", 3, 0, 3, 0⟩⟩).2.host.ledger.balance Sample.grantor := by
  have hcoins : (Sample.engine.run Sample.founding).host.ledger.coins = 2000 := by decide +kernel
  obtain ⟨hc, hb⟩ := deliver_conserves_coins (Sample.engine.run Sample.founding) Sample.noon
    ⟨Sample.issuer, .exchange ⟨"s", 3, 0, 3, 0⟩⟩
  exact ⟨by decide +kernel, hc.trans hcoins, hb Sample.grantor (by decide)⟩

/-- The coins that a step brings or takes: none, unless the surroundings change the balances. -/
def funded (e : Engine) : Step → Int
  | .deliver _ _ => 0
  | .surround host => (host.ledger.balances.sum : Int) - e.host.ledger.balances.sum

theorem step_coins (e : Engine) (s : Step) :
    ((e.step s).host.ledger.coins : Int) = e.host.ledger.coins + e.funded s := by
  cases s with
  | deliver now m =>
    have hc := (e.deliver_conserves_coins now m).1
    simp only [step, hc, funded, add_zero]
  | surround host =>
    change ((host.ledger.balances.sum + e.host.ledger.modules.sum : Nat) : Int) =
      (e.host.ledger.balances.sum + e.host.ledger.modules.sum : Nat) + _
    simp only [funded]
    omega

/-- After a run there are the coins of its start and those that its surroundings brought. -/
theorem run_coins (e : Engine) (steps : List Step) :
    ((e.run steps).host.ledger.coins : Int) = e.host.ledger.coins + e.tally funded steps := by
  refine run_induction (P := fun steps e' =>
    (e'.host.ledger.coins : Int) = e.host.ledger.coins + e.tally funded steps)
    (by simp [tally]) (fun steps s ih => ?_) steps
  rw [tally_concat, step_coins, ih, add_assoc]

end Engine

end TrustPermit
