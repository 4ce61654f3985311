import TrustPermit.Proofs.Entitlement

/-! # Outsiders

What an account can do to a permission in which it has no part, to the sessions of others and to
their coins, however many messages it signs: it may add to the deposit, repay what was slashed,
and pay.
-/

namespace TrustPermit

namespace SettlementTerms

variable {t : SettlementTerms} {l : Ledger} {a b : Address} {n : Nat}

theorem balance_direct (h : t.payer ≠ .account a) :
    (t.direct l b n).balance a = l.balance a + if a = b then n else 0 := by
  cases hp : t.payer with
  | account payer =>
    have hne : a ≠ payer := by
      rintro rfl
      exact h hp
    simp only [direct, hp, Ledger.balance_sent _ _ _ _ _ hne]
  | escrow => simp only [direct, hp, Ledger.balance_refunded]

theorem balance_collect (h : t.payer ≠ .account a) : (t.collect l n).balance a = l.balance a := by
  cases hp : t.payer with
  | account payer =>
    have hne : a ≠ payer := by
      rintro rfl
      exact h hp
    simp only [collect, hp, Ledger.balance_collected _ _ _ _ _ hne]
  | escrow => simp only [collect, hp]

end SettlementTerms

@[simp] theorem Ledger.balance_committedTo (l : Ledger) (account : Option Address) (n : Nat)
    (a : Address) : (l.committedTo account n).balance a = l.balance a := by
  cases account <;> simp [committedTo]

/-- Who does not pay for a payout receives its direct part, or nothing. -/
theorem World.balance_paid {w : World} {t : SettlementTerms} {a : Address}
    (h : t.payer ≠ .account a) (b : Permission) (split : FeeShares) :
    (w.paid t b split).host.ledger.balance a =
      w.host.ledger.balance a + if a = b.grantee then split.direct else 0 := by
  simp only [paid, shared, host_withLedger, Host.ledger_withLedger, Ledger.balance_committedTo,
    Ledger.balance_committed, SettlementTerms.balance_collect h, SettlementTerms.balance_direct h]

theorem World.balance_paid_le {w : World} {t : SettlementTerms} {a : Address}
    (h : t.payer ≠ .account a) (b : Permission) (split : FeeShares) :
    w.host.ledger.balance a ≤ (w.paid t b split).host.ledger.balance a := by
  rw [balance_paid h]
  apply Nat.le_add_right

theorem Settles.balance_le {t : SettlementTerms} {bs : List Permission} {w w' : World}
    {lines : List Payout} (hs : Settles t bs w lines w') {a : Address}
    (h : t.payer ≠ .account a) : w.host.ledger.balance a ≤ w'.host.ledger.balance a := by
  induction hs with
  | nil => exact le_rfl
  | skip _ _ ih => exact ih
  | pay _ _ _ _ _ _ ih => exact (World.balance_paid_le h _ _).trans ih

theorem Outcome.balance_le {e e' : Engine} {now : Instant} {m : Message} {r : Response}
    (h : Outcome e now m r e') {a : Address} (ha : a ≠ m.signer) :
    e.host.ledger.balance a ≤ e'.host.ledger.balance a := by
  cases h with
  | start | renew =>
    simp only [Engine.host_after, Host.ledger_withLedger, Engine.charged,
      Ledger.balance_committed, Ledger.balance_collected _ _ _ _ _ ha]
    exact le_rfl
  | paidConsent =>
    exact World.balance_paid_le (by simp [Engine.terms]) _ _
  | cancel =>
    simp only [Engine.host_after, Host.ledger_withLedger, Ledger.balance_released,
      Ledger.balance_refunded]
    apply Nat.le_add_right
  | confirmTermination =>
    simp only [Engine.host_after, Host.ledger_withLedger, Ledger.terminated,
      Ledger.shareReturned]
    split <;> exact le_rfl
  | exchange _ _ _ hw =>
    exact (Transfer.settle_ok hw).2.2.balance_le (by simpa [Engine.terms] using ha.symm)
  | repay =>
    simp only [Engine.host_after, Host.ledger_withLedger, Ledger.balance_committed,
      Ledger.balance_collected _ _ _ _ _ ha]
    exact le_rfl
  | _ => exact le_rfl

namespace Records

def KeysSessions (r : Records) : Prop := ∀ id s, r.session? id = some s → s.id = id

theorem sessions_terminated (r : Records) (p : Permission) (actor : Address) (now : Instant) :
    (r.terminated p actor now).sessions = r.sessions := by
  unfold terminated shareReturned
  split <;> rfl

theorem openSession_ok {r : Records} {signer : Address} {id : String} {agent : PermissionId}
    {a : Authorization} {now : Instant} {s : Session} (hk : r.KeysSessions)
    (h : r.openSession signer id agent a now = .ok s) :
    s.id = id ∧ s.controller = signer ∧ ∀ s', r.session? id = some s' → s' = s := by
  unfold openSession at h
  split at h
  · rename_i s' hs
    simp only [Guard.bind_eq_ok_iff, authorize_eq_ok_iff, Guard.demand_eq_ok_iff,
      Guard.pure_eq_ok_iff] at h
    obtain ⟨_, hc, _, -, rfl⟩ := h
    refine ⟨hk id s' hs, hc.symm, ?_⟩
    intro s'' hs''
    exact Option.some.inj (hs''.symm.trans hs)
  · rename_i hn
    cases h
    refine ⟨rfl, rfl, ?_⟩
    intro s' hs'
    cases hn.symm.trans hs'

theorem admitExchange_ok {r : Records} {signer : Address} {x : Exchange} {now : Instant}
    {s : Session} (hk : r.KeysSessions) (h : r.admitExchange signer x now = .ok s) :
    s.id = x.sessionId ∧ s.controller = signer ∧
      ∀ s', r.session? x.sessionId = some s' → s' = s := by
  simp only [admitExchange, Guard.bind_eq_ok_iff] at h
  obtain ⟨_, -, _, -, _, -, _, -, _, -, h⟩ := h
  exact openSession_ok hk h

end Records

/-- Messages write one session at most, the signer's own. -/
theorem Outcome.sessions {e e' : Engine} {now : Instant} {m : Message} {r : Response}
    (hk : e.records.KeysSessions) (h : Outcome e now m r e') :
    e'.records.sessions = e.records.sessions ∨ ∃ s a, s.controller = m.signer ∧
      (∀ s', e.records.session? s.id = some s' → s' = s) ∧
      e'.records.sessions = e.records.sessions.insert s.id (s.append a now) := by
  cases h with
  | @exchange signer x s beneficiaries receipt w ha hx hb hw =>
    obtain ⟨hid, hc, hold⟩ := Records.admitExchange_ok hk ha
    obtain ⟨⟨g, hg⟩, -⟩ := (Transfer.settle_ok hw).2.2.world
    refine .inr ⟨s, x.authorization, hc, hid ▸ hold, ?_⟩
    simp only [Engine.records_after, Records.insertSession, hg]
    rfl
  | confirmTermination => exact .inl (Records.sessions_terminated ..)
  | _ => exact .inl rfl

theorem Engine.session_after {e e' : Engine} {s : Session} {a : Authorization} {now : Instant}
    (h : e'.records.sessions = e.records.sessions.insert s.id (s.append a now)) (id : String) :
    e'.records.session? id =
      if id = s.id then some (s.append a now) else e.records.session? id := by
  simp [Records.session?, h]

theorem Outcome.keysSessions {e e' : Engine} {now : Instant} {m : Message} {r : Response}
    (hk : e.records.KeysSessions) (h : Outcome e now m r e') : e'.records.KeysSessions := by
  rcases h.sessions hk with he | ⟨s, a, -, -, he⟩
  · intro id s hs
    exact hk id s (by rwa [Records.session?, he] at hs)
  · intro id s' hs'
    rw [Engine.session_after he] at hs'
    split at hs'
    · cases hs'
      exact (‹id = s.id›).symm
    · exact hk id s' hs'

namespace Engine

variable {e : Engine}

theorem step_keysSessions (hk : e.records.KeysSessions) (s : Step) :
    (e.step s).records.KeysSessions :=
  step_invariant (P := fun e => e.records.KeysSessions) (fun hk h => h.keysSessions hk)
    (fun _ hk => hk) e s hk

theorem run_keysSessions (hk : e.records.KeysSessions) (steps : List Step) :
    (e.run steps).records.KeysSessions :=
  run_invariant (P := fun e => e.records.KeysSessions) hk (fun _ s hk => step_keysSessions hk s)
    steps

end Engine

theorem Outcome.session_iff {e e' : Engine} {now : Instant} {m : Message} {r : Response}
    (hk : e.records.KeysSessions) (h : Outcome e now m r e') {s : Session}
    (hc : s.controller ≠ m.signer) (id : String) :
    e'.records.session? id = some s ↔ e.records.session? id = some s := by
  rcases h.sessions hk with he | ⟨own, a, ho, hold, he⟩
  · rw [Records.session?, he]
    rfl
  · rw [Engine.session_after he]
    split
    · rename_i hid
      subst hid
      apply iff_of_false
      · rintro ⟨⟩
        exact hc ho
      · intro hs
        exact hc (hold s hs ▸ ho)
    · rfl

def Step.signer? : Step → Option Address
  | .deliver _ m => some m.signer
  | .surround _ => none

namespace Engine

def Repays (e : Engine) (x : Address) (id : PermissionId) (now : Instant) (steps : List Step) :
    Prop :=
  ∃ earlier, earlier ++ [.deliver now ⟨x, .repay id⟩] <+: steps ∧
    (e.run earlier).Accepts now ⟨x, .repay id⟩

/-- What an outsider leaves of a row: deposits were added, and a slash may be repaid. -/
def Spares (e : Engine) (x : Address) (p : Permission) (calls : List Step) (q : Permission) :
    Prop :=
  ∃ n, (q = p.raiseDeposit n ∧ ∀ now, ¬ e.Repays x p.id now calls) ∨
    ∃ now, e.Repays x p.id now calls ∧ p.slashedDeposit ≠ 0 ∧
      q = (p.repaidInFull x now).raiseDeposit n

variable {e : Engine} {x : Address} {id : PermissionId} {p q : Permission} {calls : List Step}

theorem repays_concat {now : Instant} {s : Step} :
    e.Repays x id now (calls ++ [s]) ↔ e.Repays x id now calls ∨
      s = .deliver now ⟨x, .repay id⟩ ∧ (e.run calls).Accepts now ⟨x, .repay id⟩ := by
  constructor
  · rintro ⟨earlier, h⟩
    rcases acceptedAfter_concat.mp h with h | ⟨-, hs, ha⟩
    · exact .inl ⟨earlier, h⟩
    · exact .inr ⟨hs, ha⟩
  · rintro (⟨earlier, h⟩ | ⟨hs, ha⟩)
    · exact ⟨earlier, acceptedAfter_concat.mpr (.inl h)⟩
    · exact ⟨calls, acceptedAfter_concat.mpr (.inr ⟨rfl, hs, ha⟩)⟩

namespace Spares

theorem nil (e : Engine) (x : Address) (p : Permission) : e.Spares x p [] p := by
  refine ⟨0, .inl ⟨rfl, ?_⟩⟩
  rintro now ⟨earlier, h⟩
  exact not_acceptedAfter_nil h

theorem raised (h : e.Spares x p calls q) {s : Step} (n : Nat)
    (hr : ∀ now, s = .deliver now ⟨x, .repay p.id⟩ →
      ¬ (e.run calls).Accepts now ⟨x, .repay p.id⟩) :
    e.Spares x p (calls ++ [s]) (q.raiseDeposit n) := by
  have hiff : ∀ now, e.Repays x p.id now (calls ++ [s]) ↔ e.Repays x p.id now calls := by
    intro now
    rw [repays_concat, or_iff_left]
    rintro ⟨hs, ha⟩
    exact hr now hs ha
  obtain ⟨k, ⟨rfl, hn⟩ | ⟨now, hp, hs, rfl⟩⟩ := h
  · refine ⟨k + n, .inl ⟨by simp [Permission.raiseDeposit, Nat.add_assoc], ?_⟩⟩
    intro now
    rw [hiff]
    exact hn now
  · refine ⟨k + n, .inr ⟨now, (hiff now).mpr hp, hs, ?_⟩⟩
    simp [Permission.raiseDeposit, Nat.add_assoc]

theorem repaid (h : e.Spares x p calls q) {now : Instant} (hq : q.slashedDeposit ≠ 0)
    (ha : (e.run calls).Accepts now ⟨x, .repay p.id⟩) :
    e.Spares x p (calls ++ [.deliver now ⟨x, .repay p.id⟩]) (q.repaidInFull x now) := by
  obtain ⟨k, ⟨rfl, -⟩ | ⟨_, -, -, rfl⟩⟩ := h
  · exact ⟨k, .inr ⟨now, repays_concat.mpr (.inr ⟨rfl, ha⟩), hq, rfl⟩⟩
  · exact absurd rfl hq

end Spares

/-- What is kept while an outsider signs. -/
structure Untouched (e : Engine) (x : Address) (p : Permission) (calls : List Step) : Prop where
  row : ∃ q, (e.run calls).records.get? p.id = some q ∧ e.Spares x p calls q ∧
    (e.run calls).Outsider q x
  sessions : ∀ s id, s.controller ≠ x →
    ((e.run calls).records.session? id = some s ↔ e.records.session? id = some s)
  balances : ∀ a, a ≠ x → e.host.ledger.balance a ≤ (e.run calls).host.ledger.balance a

namespace Untouched

theorem nil (hp : e.records.get? p.id = some p) (hx : e.Outsider p x) : e.Untouched x p [] where
  row := ⟨p, hp, .nil e x p, hx⟩
  sessions _ _ _ := Iff.rfl
  balances _ _ := le_rfl

theorem concat (hs : e.records.Sound) (hh : e.records.IsHierarchy) (hk : e.records.KeysSessions)
    (h : e.Untouched x p calls) {s : Step} (hx : s.signer? = some x) :
    e.Untouched x p (calls ++ [s]) := by
  obtain ⟨⟨q, hq, hsp, hout⟩, hses, hbal⟩ := h
  have hs' := run_sound hs calls
  have hh' := run_hierarchy hs hh calls
  have hk' := run_keysSessions hk calls
  cases s with
  | surround host => cases hx
  | deliver now m =>
    obtain ⟨signer, action⟩ := m
    obtain rfl : signer = x := Option.some.inj hx
    rcases (e.run calls).deliver_cases now ⟨signer, action⟩ with ⟨f, hd⟩ | ⟨r, e', hd, ho⟩
    · have hrun : e.run (calls ++ [.deliver now ⟨signer, action⟩]) = e.run calls := by
        rw [run_concat, step, hd]
      refine ⟨⟨q, hrun ▸ hq, hsp.raised 0 ?_, hrun ▸ hout⟩, hrun ▸ hses, hrun ▸ hbal⟩
      intro now' hstep ha
      cases hstep
      simp [Accepts, hd, Except.isOk, Except.toBool] at ha
    · have hrun : e.run (calls ++ [.deliver now ⟨signer, action⟩]) = e' := by
        rw [run_concat, step, hd]
      have hrow : ∃ q', e'.records.get? p.id = some q' ∧ q.SameOrigin q' ∧
          e.Spares signer p (calls ++ [.deliver now ⟨signer, action⟩]) q' := by
        rcases ho.spares hs' hh' hq hout with ⟨hne, n, hrow⟩ | ⟨hre, hn, hrow⟩
        · refine ⟨_, hrow, .raiseDeposit q n, hsp.raised n ?_⟩
          intro now' hstep _
          cases hstep
          exact hne rfl
        · obtain rfl : action = .repay p.id := hre
          exact ⟨_, hrow, .repaidInFull q _ _, hsp.repaid hn (accepts_iff.mpr ⟨r, e', hd⟩)⟩
      obtain ⟨q', hrow, hsame, hsp'⟩ := hrow
      refine ⟨⟨q', hrun ▸ hrow, hsp', ?_⟩, ?_, ?_⟩
      · rw [hrun]
        exact hout.develops hsame (ho.develops hs') ho.around
      · intro s id hne
        rw [hrun, ho.session_iff hk' hne]
        exact hses s id hne
      · intro a ha
        rw [hrun]
        exact (hbal a ha).trans (ho.balance_le ha)

end Untouched

end Engine

def Sample.slashedGrantor : List Step := founding ++ [signed controller (.slash 2 10)]

end TrustPermit
