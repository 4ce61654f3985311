import TrustPermit.Host
import TrustPermit.Proofs.Table

/-! # What ledger calls do

Each call of the host is accepted under a condition on the ledger and then moves an amount from
one place to another. The ledger after a call is given as a function of the one before.
-/

namespace TrustPermit

namespace Table

variable {κ : Type} [Ord κ]

def amount (t : Table κ Nat) (key : κ) : Nat := (t.get? key).getD 0

def raised [Std.TransOrd κ] [Std.LawfulEqOrd κ] (t : Table κ Nat) (key : κ) (n : Nat) :
    Table κ Nat :=
  if n = 0 then t else t.insert key (t.amount key + n)

def lowered [Std.TransOrd κ] [Std.LawfulEqOrd κ] (t : Table κ Nat) (key : κ) (n : Nat) :
    Table κ Nat :=
  if n = 0 then t else t.insert key (t.amount key - n)

abbrev sum (t : Table κ Nat) : Nat := t.total id

variable [Std.TransOrd κ] [Std.LawfulEqOrd κ] [DecidableEq κ]

@[simp] theorem amount_raised (t : Table κ Nat) (key : κ) (n : Nat) (other : κ) :
    (t.raised key n).amount other = t.amount other + if other = key then n else 0 := by
  by_cases hn : n = 0
  · simp [raised, hn]
  · by_cases ho : other = key <;> simp [raised, amount, hn, ho]

@[simp] theorem amount_lowered (t : Table κ Nat) (key : κ) (n : Nat) (other : κ) :
    (t.lowered key n).amount other = t.amount other - if other = key then n else 0 := by
  by_cases hn : n = 0
  · simp [lowered, hn]
  · by_cases ho : other = key <;> simp [lowered, amount, hn, ho]

theorem amount_lowered_int {t : Table κ Nat} {key : κ} {n : Nat} (h : n ≤ t.amount key)
    (other : κ) :
    ((t.lowered key n).amount other : Int) =
      t.amount other + if key = other then -(n : Int) else 0 := by
  rw [amount_lowered]
  by_cases ho : key = other
  · subst ho
    simp only [if_true]
    omega
  · simp [ho, Ne.symm ho]

omit [DecidableEq κ] in
theorem sum_insert (t : Table κ Nat) (key : κ) (n : Nat) :
    (t.insert key n).sum + t.amount key = t.sum + n := by
  have h := t.total_insert key n id
  rwa [Option.map_id] at h

omit [DecidableEq κ] in
@[simp] theorem sum_raised (t : Table κ Nat) (key : κ) (n : Nat) :
    (t.raised key n).sum = t.sum + n := by
  by_cases hn : n = 0
  · simp [raised, hn]
  · have := t.sum_insert key (t.amount key + n)
    simp only [raised, hn, if_false]
    omega

omit [DecidableEq κ] in
theorem sum_lowered (t : Table κ Nat) (key : κ) {n : Nat} (h : n ≤ t.amount key) :
    (t.lowered key n).sum + n = t.sum := by
  by_cases hn : n = 0
  · simp [lowered, hn]
  · have := t.sum_insert key (t.amount key - n)
    simp only [lowered, hn, if_false]
    omega

omit [Std.TransOrd κ] [DecidableEq κ] in
theorem amount_le_sum (t : Table κ Nat) (key : κ) : t.amount key ≤ t.sum := by
  cases h : t.get? key with
  | none => simp [amount, h]
  | some n => simpa [amount, h] using le_total h id

end Table

namespace Ledger

section Entry

variable {κ : Type} [Ord κ] [Std.TransOrd κ] [Std.LawfulEqOrd κ]

theorem debit_eq_ok_iff {name : κ → String} {t u : Table κ Nat} {key : κ} {n : Nat} (hn : n ≠ 0) :
    debit name t key n = .ok u ↔ n ≤ t.amount key ∧ t.lowered key n = u := by
  simp only [debit, Table.lowered, Table.amount, hn, if_false]
  split
  · rename_i h
    simp [Nat.not_le.mpr h]
  · rename_i h
    simp [Nat.not_lt.mp h]

theorem credit_eq_ok_iff {name : κ → String} {t u : Table κ Nat} {key : κ} {n : Nat} (hn : n ≠ 0) :
    credit name t key n = .ok u ↔ t.amount key + n < amountBound ∧ t.raised key n = u := by
  simp only [credit, Table.raised, Table.amount, hn, if_false]
  split <;> simp [*]

end Entry

theorem burn_eq_ok_iff {l l' : Ledger} {n : Nat} :
    l.burn n = .ok l' ↔ l.burned + n < amountBound ∧ { l with burned := l.burned + n } = l' := by
  simp only [burn]
  split <;> simp [*]

theorem balance_eq (l : Ledger) (a : Address) : l.balance a = l.balances.amount a := rfl

theorem moduleFunds_eq (l : Ledger) (m : String) : l.moduleFunds m = l.modules.amount m := rfl

theorem deposit_eq (l : Ledger) (a : Address) : l.deposit a = l.deposits.amount a := rfl

theorem claim_eq (l : Ledger) (a : Address) : l.claim a = l.claimable.amount a := rfl

def sent (l : Ledger) (source target : Address) (n : Nat) : Ledger :=
  { l with balances := (l.balances.lowered source n).raised target n }

def collected (l : Ledger) (source : Address) (target : String) (n : Nat) : Ledger :=
  { l with balances := l.balances.lowered source n, modules := l.modules.raised target n }

def refunded (l : Ledger) (source : String) (target : Address) (n : Nat) : Ledger :=
  { l with balances := l.balances.raised target n, modules := l.modules.lowered source n }

def committed (l : Ledger) (account : Address) (n : Nat) : Ledger :=
  { l with deposits := l.deposits.raised account n }

/-- An amount of a trust deposit becomes claimable. -/
def released (l : Ledger) (account : Address) (n : Nat) : Ledger :=
  { l with
    deposits := l.deposits.lowered account n
    claimable := l.claimable.raised account n }

def slashed (l : Ledger) (account : Address) (n : Nat) : Ledger :=
  { l with deposits := l.deposits.lowered account n, burned := l.burned + n }

@[simp] theorem collected_zero (l : Ledger) (a : Address) (m : String) : l.collected a m 0 = l := by
  simp [collected, Table.lowered, Table.raised]

@[simp] theorem refunded_zero (l : Ledger) (m : String) (a : Address) : l.refunded m a 0 = l := by
  simp [refunded, Table.lowered, Table.raised]

@[simp] theorem committed_zero (l : Ledger) (a : Address) : l.committed a 0 = l := by
  simp [committed, Table.raised]

@[simp] theorem released_zero (l : Ledger) (a : Address) : l.released a 0 = l := by
  simp [released, Table.lowered, Table.raised]

/-- All that the ledger owes or has burned. -/
def promised (l : Ledger) : Nat := l.deposits.sum + l.claimable.sum + l.burned

def held (l : Ledger) : Nat := l.modules.sum

section Views

variable (l : Ledger) (a b c : Address) (m : String) (n : Nat)

theorem balance_sent (h : c ≠ a) :
    (l.sent a b n).balance c = l.balance c + if c = b then n else 0 := by
  change ((l.balances.lowered a n).raised b n).amount c = l.balances.amount c + _
  rw [Table.amount_raised, Table.amount_lowered, if_neg h, Nat.sub_zero]

theorem balance_collected (h : c ≠ a) : (l.collected a m n).balance c = l.balance c := by
  change (l.balances.lowered a n).amount c = l.balances.amount c
  rw [Table.amount_lowered, if_neg h, Nat.sub_zero]

@[simp] theorem balance_refunded :
    (l.refunded m a n).balance c = l.balance c + if c = a then n else 0 :=
  l.balances.amount_raised a n c

@[simp] theorem balance_committed : (l.committed a n).balance c = l.balance c := rfl

@[simp] theorem balance_released : (l.released a n).balance c = l.balance c := rfl

@[simp] theorem balance_slashed : (l.slashed a n).balance c = l.balance c := rfl

@[simp] theorem deposit_sent : (l.sent a b n).deposit c = l.deposit c := rfl

@[simp] theorem deposit_collected : (l.collected a m n).deposit c = l.deposit c := rfl

@[simp] theorem deposit_refunded : (l.refunded m a n).deposit c = l.deposit c := rfl

@[simp] theorem deposit_committed :
    (l.committed a n).deposit c = l.deposit c + if c = a then n else 0 :=
  l.deposits.amount_raised a n c

@[simp] theorem deposit_released :
    (l.released a n).deposit c = l.deposit c - if c = a then n else 0 :=
  l.deposits.amount_lowered a n c

@[simp] theorem deposit_slashed :
    (l.slashed a n).deposit c = l.deposit c - if c = a then n else 0 :=
  l.deposits.amount_lowered a n c

@[simp] theorem claim_released :
    (l.released a n).claim c = l.claim c + if c = a then n else 0 :=
  l.claimable.amount_raised a n c

@[simp] theorem promised_sent : (l.sent a b n).promised = l.promised := rfl

@[simp] theorem promised_collected : (l.collected a m n).promised = l.promised := rfl

@[simp] theorem promised_refunded : (l.refunded m a n).promised = l.promised := rfl

@[simp] theorem promised_committed : (l.committed a n).promised = l.promised + n := by
  simp only [promised, committed, Table.sum_raised]
  omega

theorem promised_released (h : n ≤ l.deposit a) : (l.released a n).promised = l.promised := by
  have := l.deposits.sum_lowered a h
  simp only [promised, released, Table.sum_raised]
  omega

theorem promised_slashed (h : n ≤ l.deposit a) : (l.slashed a n).promised = l.promised := by
  have := l.deposits.sum_lowered a h
  simp only [promised, slashed]
  omega

@[simp] theorem held_sent : (l.sent a b n).held = l.held := rfl

@[simp] theorem held_collected : (l.collected a m n).held = l.held + n :=
  l.modules.sum_raised m n

theorem held_refunded (h : n ≤ l.moduleFunds m) : (l.refunded m a n).held + n = l.held :=
  l.modules.sum_lowered m h

@[simp] theorem held_committed : (l.committed a n).held = l.held := rfl

@[simp] theorem held_released : (l.released a n).held = l.held := rfl

@[simp] theorem held_slashed : (l.slashed a n).held = l.held := rfl

end Views

end Ledger

@[simp] theorem toDelta_eq_ok_iff {n : Nat} {d : Int} :
    toDelta n = .ok d ↔ n < deltaBound ∧ (n : Int) = d := by
  simp [toDelta]

namespace Host

@[simp] theorem withLedger_withLedger (h : Host) (l₁ l₂ : Ledger) :
    (h.withLedger l₁).withLedger l₂ = h.withLedger l₂ := rfl

@[simp] theorem ledger_withLedger (h : Host) (l : Ledger) : (h.withLedger l).ledger = l := rfl

variable {h h' : Host} {a b : Address} {m denom : String} {n : Nat} {u : Unit}

theorem book_eq_ok_iff {f : Ledger → Except HostFault Ledger} :
    book f h = .ok u h' ↔ ∃ l, f h.ledger = .ok l ∧ h.withLedger l = h' := by
  simp [book]

@[simp] theorem guardDenom_eq_ok_iff {coin : Coin} :
    guardDenom coin h = .ok u h' ↔ coin.denom = h.denom ∧ h = h' := by
  simp [guardDenom]

@[simp] theorem guardFrozen_eq_ok_iff :
    guardFrozen a h = .ok u h' ↔ a ∉ h.frozen ∧ h = h' := by
  simp [guardFrozen]

theorem send_eq_ok_iff (hn : n ≠ 0) :
    send a b ⟨denom, n⟩ h = .ok u h' ↔ denom = h.denom ∧ n ≤ h.ledger.balance a ∧
      (h.ledger.balances.lowered a n).amount b + n < amountBound ∧
      h.withLedger (h.ledger.sent a b n) = h' := by
  simp [send, book_eq_ok_iff, Ledger.debitAccount, Ledger.creditAccount, and_assoc,
    Ledger.debit_eq_ok_iff hn, Ledger.credit_eq_ok_iff hn, Ledger.balance_eq, Ledger.sent]

theorem sendToModule_eq_ok_iff (hn : n ≠ 0) :
    sendToModule a m ⟨denom, n⟩ h = .ok u h' ↔ denom = h.denom ∧ n ≤ h.ledger.balance a ∧
      h.ledger.moduleFunds m + n < amountBound ∧
      h.withLedger (h.ledger.collected a m n) = h' := by
  simp [sendToModule, book_eq_ok_iff, Ledger.debitAccount, Ledger.creditModule, and_assoc,
    Ledger.debit_eq_ok_iff hn, Ledger.credit_eq_ok_iff hn, Ledger.balance_eq,
    Ledger.moduleFunds_eq, Ledger.collected]

theorem sendFromModule_eq_ok_iff (hn : n ≠ 0) :
    sendFromModule m a ⟨denom, n⟩ h = .ok u h' ↔ denom = h.denom ∧ n ≤ h.ledger.moduleFunds m ∧
      h.ledger.balance a + n < amountBound ∧
      h.withLedger (h.ledger.refunded m a n) = h' := by
  simp [sendFromModule, book_eq_ok_iff, Ledger.debitModule, Ledger.creditAccount, and_assoc,
    Ledger.debit_eq_ok_iff hn, Ledger.credit_eq_ok_iff hn, Ledger.balance_eq,
    Ledger.moduleFunds_eq, Ledger.refunded]

theorem commit_eq_ok_iff (hn : n ≠ 0) :
    commit a n h = .ok u h' ↔ n < deltaBound ∧ a ∉ h.frozen ∧
      h.ledger.deposit a + n < amountBound ∧ h.withLedger (h.ledger.committed a n) = h' := by
  simp [commit, adjustDeposit, book_eq_ok_iff, Ledger.creditDeposit, and_assoc,
    Ledger.credit_eq_ok_iff hn, Ledger.deposit_eq, Ledger.committed]

theorem release_eq_ok_iff (hn : n ≠ 0) :
    release a n h = .ok u h' ↔ n < deltaBound ∧ a ∉ h.frozen ∧ n ≤ h.ledger.deposit a ∧
      h.ledger.claim a + n < amountBound ∧ h.withLedger (h.ledger.released a n) = h' := by
  simp [release, adjustDeposit, hn, book_eq_ok_iff, Ledger.debitDeposit, Ledger.creditClaim,
    and_assoc, Ledger.debit_eq_ok_iff hn, Ledger.credit_eq_ok_iff hn, Ledger.deposit_eq,
    Ledger.claim_eq, Ledger.released]

theorem burnDeposit_eq_ok_iff (hn : n ≠ 0) :
    burnDeposit a n h = .ok u h' ↔ a ∉ h.frozen ∧ n ≤ h.ledger.deposit a ∧
      h.ledger.burned + n < amountBound ∧ h.withLedger (h.ledger.slashed a n) = h' := by
  simp [burnDeposit, book_eq_ok_iff, Ledger.debitDeposit, and_assoc, Ledger.debit_eq_ok_iff hn,
    Ledger.burn_eq_ok_iff, Ledger.deposit_eq, Ledger.slashed]

end Host

end TrustPermit
