import Mathlib.Order.Defs.Unbundled
import TrustPermit.Proofs.Outcome

/-! # Atomicity

A handler that fails has changed the records, the ledger and later events, and nothing else, so
delivery puts the engine back as it was. A delivery therefore leaves either the engine of before
or one of the outcomes.
-/

namespace TrustPermit

namespace Effect

variable {ε δ σ τ α β : Type}

/-- An effect relates the state of before to the one of after, whether it succeeds or fails. -/
structure Keeps (R : σ → σ → Prop) (x : Effect ε σ α) : Prop where
  ok {s t a} : x s = .ok a t → R s t
  error {s t e} : x s = .error e t → R s t

namespace Keeps

variable {R : σ → σ → Prop} [IsPreorder σ R]

theorem pure (a : α) : Keeps R (Pure.pure a : Effect ε σ α) where
  ok h := by
    obtain ⟨-, rfl⟩ := pure_eq_ok_iff.mp h
    exact refl_of R _
  error h := absurd h pure_ne_error

theorem bind {x : Effect ε σ α} {f : α → Effect ε σ β} (hx : Keeps R x)
    (hf : ∀ a, Keeps R (f a)) : Keeps R (x >>= f) where
  ok h := by
    obtain ⟨a, _, h₁, h₂⟩ := bind_eq_ok_iff.mp h
    exact trans_of R (hx.ok h₁) ((hf a).ok h₂)
  error h := by
    rcases bind_eq_error_iff.mp h with h₁ | ⟨a, _, h₁, h₂⟩
    · exact hx.error h₁
    · exact trans_of R (hx.ok h₁) ((hf a).error h₂)

theorem get : Keeps R (MonadState.get : Effect ε σ σ) where
  ok h := by
    obtain ⟨-, rfl⟩ := get_eq_ok_iff.mp h
    exact refl_of R _
  error h := absurd h get_ne_error

theorem ask (f : σ → Except ε α) : Keeps R (Effect.ask f) where
  ok h := by
    obtain ⟨-, rfl⟩ := ask_eq_ok_iff.mp h
    exact refl_of R _
  error h := by
    obtain ⟨-, rfl⟩ := ask_eq_error_iff.mp h
    exact refl_of R _

theorem change {f : σ → Except ε σ} (hf : ∀ {s t}, f s = .ok t → R s t) :
    Keeps R (Effect.change f) where
  ok h := hf (change_eq_ok_iff.mp h)
  error h := by
    obtain ⟨-, rfl⟩ := change_eq_error_iff.mp h
    exact refl_of R _

omit [IsPreorder σ R] in
theorem update {f : σ → σ} (hf : ∀ s, R s (f s)) : Keeps R (Effect.update f : Effect ε σ Unit) where
  ok h := update_eq_ok_iff.mp h ▸ hf _
  error h := absurd h update_ne_error

theorem unlessZero {x : Effect ε σ Unit} (hx : Keeps R x) (n : Nat) :
    Keeps R (Effect.unlessZero n x) := by
  unfold Effect.unlessZero
  split
  · exact .pure ()
  · exact hx

omit [IsPreorder σ R] in
theorem within {S : τ → τ → Prop} {part : σ → τ} {put : σ → τ → σ} {wrap : δ → ε}
    {x : Effect δ τ α} (hx : Keeps S x) (hp : ∀ {s u}, S (part s) u → R s (put s u)) :
    Keeps R (Effect.within part put wrap x) where
  ok h := by
    obtain ⟨_, hu, rfl⟩ := within_eq_ok_iff.mp h
    exact hp (hx.ok hu)
  error h := by
    obtain ⟨_, _, hu, -, rfl⟩ := within_eq_error_iff.mp h
    exact hp (hx.error hu)

end Keeps

end Effect

def Host.SameAround (h h' : Host) : Prop := h' = h.withLedger h'.ledger

instance : IsPreorder Host Host.SameAround where
  refl _ := rfl
  trans _ _ _ h₁ h₂ := h₂.trans (by rw [h₁]; rfl)

def World.SameAround (w w' : World) : Prop := w.host.SameAround w'.host

instance : IsPreorder World World.SameAround where
  refl w := refl_of Host.SameAround w.host
  trans _ _ _ := trans_of Host.SameAround

namespace Host

open Effect

theorem book_keeps (f : Ledger → Except HostFault Ledger) : Keeps SameAround (book f) :=
  .change fun h => by
    obtain ⟨_, -, rfl⟩ := Guard.exceptMap_eq_ok_iff.mp h
    rfl

theorem send_keeps (a b : Address) (c : Coin) : Keeps SameAround (send a b c) :=
  .bind (.ask _) fun _ => .bind (book_keeps _) fun _ => book_keeps _

theorem sendToModule_keeps (a : Address) (m : String) (c : Coin) :
    Keeps SameAround (sendToModule a m c) :=
  .bind (.ask _) fun _ => .bind (book_keeps _) fun _ => book_keeps _

theorem sendFromModule_keeps (m : String) (a : Address) (c : Coin) :
    Keeps SameAround (sendFromModule m a c) :=
  .bind (.ask _) fun _ => .bind (book_keeps _) fun _ => book_keeps _

theorem adjustDeposit_keeps (a : Address) (delta : Int) :
    Keeps SameAround (adjustDeposit a delta) :=
  .bind (.ask _) fun _ => by
    split
    · exact book_keeps _
    · exact .bind (.ask _) fun _ => .bind (book_keeps _) fun _ => book_keeps _

theorem commit_keeps (a : Address) (n : Nat) : Keeps SameAround (commit a n) :=
  .bind (.ask _) fun _ => adjustDeposit_keeps a _

theorem release_keeps (a : Address) (n : Nat) : Keeps SameAround (release a n) :=
  .bind (.ask _) fun _ => adjustDeposit_keeps a _

theorem burnDeposit_keeps (a : Address) (n : Nat) : Keeps SameAround (burnDeposit a n) :=
  .bind (.ask _) fun _ => .bind (book_keeps _) fun _ => book_keeps _

end Host

namespace Transfer

open Effect

theorem onHost_keeps {α : Type} {x : HostAction α} (hx : Keeps Host.SameAround x) :
    Keeps World.SameAround (onHost x) :=
  .within hx id

variable (t : SettlementTerms) (b : Permission) (n : Nat)

theorem creditShare_keeps (id : PermissionId) (a : Address) :
    Keeps World.SameAround (creditShare id a n) :=
  .bind (onHost_keeps (Host.commit_keeps a n)) fun _ => .change fun h => by
    obtain ⟨_, -, rfl⟩ := Guard.exceptMap_eq_ok_iff.mp h
    exact refl_of World.SameAround _

theorem creditExecutor_keeps (x : Option PermissionId) :
    Keeps World.SameAround (creditExecutor x n) := by
  cases x with
  | none => exact .pure ()
  | some id => exact .bind (.ask _) fun p => creditShare_keeps n id p.grantee

theorem payDirect_keeps (a : Address) : Keeps World.SameAround (payDirect t a n) := by
  refine .unlessZero ?_ n
  cases t.payer with
  | account payer => exact onHost_keeps (Host.send_keeps payer a _)
  | escrow => exact onHost_keeps (Host.sendFromModule_keeps t.moduleAccount a _)

theorem collectShare_keeps : Keeps World.SameAround (collectShare t n) := by
  unfold collectShare
  cases t.payer with
  | account payer => exact onHost_keeps (Host.sendToModule_keeps payer t.moduleAccount _)
  | escrow => exact .pure ()

theorem payShare_keeps : Keeps World.SameAround (payShare t b n) :=
  .unlessZero (.bind (collectShare_keeps t n) fun _ =>
    .bind (creditShare_keeps n b.id b.grantee) fun _ => creditExecutor_keeps n t.executor) n

theorem payOut_keeps : Keeps World.SameAround (payOut t b n) :=
  .bind (.ask _) fun split => .bind (payDirect_keeps t split.direct b.grantee) fun _ =>
    .bind (payShare_keeps t b split.share) fun _ => .ask _

theorem payOutAll_keeps (bs : List Permission) : Keeps World.SameAround (payOutAll t bs) := by
  induction bs with
  | nil => exact .pure []
  | cons b rest ih =>
    unfold payOutAll
    split
    · exact ih
    · exact .bind (.ask _) fun n => .bind (payOut_keeps t b n) fun _ => .bind ih fun _ => .pure _

theorem settle_keeps (bs : List Permission) : Keeps World.SameAround (settle t bs) :=
  .bind (payOutAll_keeps t bs) fun _ => .pure _

end Transfer

namespace Engine

/-- The records and the ledger may differ, and there may be later events. -/
structure Undoable (e e' : Engine) : Prop where
  around : e.host.SameAround e'.host
  params : e'.params = e.params
  authority : e'.authority = e.authority
  events : e.events <+: e'.events

instance : IsPreorder Engine Undoable where
  refl e := ⟨refl_of Host.SameAround e.host, rfl, rfl, List.prefix_rfl⟩
  trans _ _ _ h₁ h₂ := ⟨trans_of Host.SameAround h₁.around h₂.around, h₂.params.trans h₁.params,
    h₂.authority.trans h₁.authority, h₁.events.trans h₂.events⟩

theorem Undoable.rollback_eq {e failed : Engine} (h : Undoable e failed) :
    e.rollback failed = e := by
  obtain ⟨ha, hp, hg, he⟩ := h
  have hh : failed.host.withLedger e.host.ledger = e.host := by rw [ha]; rfl
  simp [rollback, hp, hg, hh, (List.prefix_iff_eq_take.mp he).symm]

theorem undoable_withRecords (e : Engine) (r : Records) : e.Undoable (e.withRecords r) :=
  ⟨rfl, rfl, rfl, List.prefix_rfl⟩

theorem undoable_report (e : Engine) (events : List Event) : e.Undoable (e.report events) :=
  ⟨rfl, rfl, rfl, List.prefix_append _ _⟩

end Engine

namespace Transaction

open Effect Engine

theorem transfer_keeps {α : Type} {x : Transfer α} (hx : Keeps World.SameAround x) :
    Keeps Undoable (transfer x) :=
  .within hx fun h => ⟨h, rfl, rfl, List.prefix_rfl⟩

theorem onHost_keeps {α : Type} {x : HostAction α} (hx : Keeps Host.SameAround x) :
    Keeps Undoable (onHost x) :=
  transfer_keeps (Transfer.onHost_keeps hx)

theorem store_keeps (p : Permission) : Keeps Undoable (store p) :=
  .update fun e => e.undoable_withRecords _

theorem emit_keeps (event : Event) : Keeps Undoable (emit event) :=
  .update fun e => e.undoable_report _

theorem allocate_keeps : Keeps Undoable allocate :=
  .bind (.ask _) fun _ => .bind (.update fun e => e.undoable_withRecords _) fun _ => .pure _

variable (a : Address) (n : Nat) (p : Permission)

theorem collect_keeps : Keeps Undoable (collect a n) :=
  .unlessZero (.bind .get fun _ => onHost_keeps (Host.sendToModule_keeps a _ _)) n

theorem refund_keeps : Keeps Undoable (refund a n) :=
  .unlessZero (.bind .get fun _ => onHost_keeps (Host.sendFromModule_keeps _ a _)) n

theorem commit_keeps : Keeps Undoable (commit a n) :=
  .unlessZero (onHost_keeps (Host.commit_keeps a n)) n

theorem release_keeps : Keeps Undoable (release a n) :=
  .unlessZero (onHost_keeps (Host.release_keeps a n)) n

theorem escrow_keeps : Keeps Undoable (escrow a p) :=
  .bind (.ask _) fun cost => .bind (.ask _) fun _ => .bind (collect_keeps a cost.total) fun _ =>
    .bind (commit_keeps a cost.deposit) fun _ => .pure cost

theorem payValidator_keeps : Keeps Undoable (payValidator p) := by
  unfold payValidator
  split
  · exact .pure 0
  · exact .bind (.ask _) fun _ => .bind (.ask _) fun validator => .bind .get fun e =>
      .bind (transfer_keeps (Transfer.payOut_keeps _ validator _)) fun _ =>
        .bind (emit_keeps _) fun _ => .pure _

theorem releaseShare_keeps : Keeps Undoable (releaseShare p a) := by
  unfold releaseShare
  split
  · exact .unlessZero (.bind (onHost_keeps (Host.release_keeps a _)) fun _ =>
      .update fun e => e.undoable_withRecords _) _
  · exact .pure ()

theorem payBeneficiaries_keeps (x : Exchange) : Keeps Undoable (payBeneficiaries a x) :=
  .bind (.ask _) fun bs => .bind .get fun _ =>
    .bind (transfer_keeps (Transfer.settle_keeps _ bs)) fun _ =>
      .update fun e => e.undoable_report _

theorem conclude_keeps {α : Type} (q : Permission) (event : Event) (r : α) :
    Keeps Undoable (do store q; emit event; return r) :=
  .bind (store_keeps q) fun _ => .bind (emit_keeps event) fun _ => .pure r

/-- A failed handler can be undone. -/
theorem perform_error {e failed : Engine} {now : Instant} {m : Message} {f : Fault}
    (h : perform m now e = .error f failed) : e.Undoable failed := by
  obtain ⟨signer, action⟩ := m
  cases action with
  | start application =>
    exact (Keeps.bind (.ask _) fun _ => .bind (escrow_keeps signer _) fun _ =>
      .bind allocate_keeps fun _ => .bind (.ask _) fun _ => conclude_keeps ..).error h
  | renew id =>
    exact (Keeps.bind (.ask _) fun _ => .bind (escrow_keeps signer _) fun _ =>
      .bind (.ask _) fun _ => conclude_keeps ..).error h
  | validate id terms =>
    exact (Keeps.bind (.ask _) fun _ => .bind (payValidator_keeps _) fun _ =>
      .bind (.ask _) fun _ => conclude_keeps ..).error h
  | extend id finish => exact (Keeps.bind (.ask _) fun _ => conclude_keeps ..).error h
  | revoke id => exact (Keeps.bind (.ask _) fun _ => conclude_keeps ..).error h
  | cancel id =>
    exact (Keeps.bind (.ask _) fun _ => .bind (refund_keeps _ _) fun _ =>
      .bind (release_keeps _ _) fun _ => conclude_keeps ..).error h
  | requestTermination id => exact (Keeps.bind (.ask _) fun _ => conclude_keeps ..).error h
  | confirmTermination id =>
    exact (Keeps.bind (.ask _) fun _ => .bind (release_keeps _ _) fun _ =>
      .bind (.update fun e => e.undoable_withRecords _) fun _ =>
        .bind (releaseShare_keeps signer _) fun _ => conclude_keeps ..).error h
  | createRoot grant =>
    exact (Keeps.bind (.ask _) fun _ => .bind allocate_keeps fun _ => conclude_keeps ..).error h
  | create grant =>
    exact (Keeps.bind (.ask _) fun _ => .bind allocate_keeps fun _ => conclude_keeps ..).error h
  | exchange x =>
    exact (Keeps.bind (.ask _) fun _ => .bind (payBeneficiaries_keeps signer x) fun _ =>
      .bind (.update fun e => e.undoable_withRecords _) fun _ =>
        .bind (emit_keeps _) fun _ => .pure _).error h
  | slash id amount =>
    exact (Keeps.bind (.ask _) fun _ =>
      .bind (onHost_keeps (Host.burnDeposit_keeps _ amount)) fun _ => conclude_keeps ..).error h
  | repay id =>
    exact (Keeps.bind (.ask _) fun _ => .bind .get fun _ =>
      .bind (onHost_keeps (Host.sendToModule_keeps signer _ _)) fun _ =>
        .bind (onHost_keeps (Host.commit_keeps _ _)) fun _ =>
          .bind (.ask _) fun _ => conclude_keeps ..).error h
  | setParams params =>
    -- Nothing fails after the parameters are replaced.
    have hu : ∀ (g : Engine → Engine) (x : Response) (s : Engine),
        ¬ (do Effect.update g; return x : Transaction Response) s = .error f failed := by
      intro g x s hs
      rcases bind_eq_error_iff.mp hs with hs | ⟨_, _, -, hs⟩
      · exact update_ne_error hs
      · exact pure_ne_error hs
    rcases bind_eq_error_iff.mp h with h | ⟨_, _, h₁, h⟩
    · exact (Keeps.ask _).error h
    · obtain ⟨-, rfl⟩ := ask_eq_ok_iff.mp h₁
      rcases bind_eq_error_iff.mp h with h | ⟨_, _, -, h⟩
      · exact (Keeps.ask _).error h
      · rcases bind_eq_error_iff.mp h with h | ⟨_, _, -, h⟩
        · exact absurd h update_ne_error
        · exact absurd h (hu _ _ _)

end Transaction

namespace Engine

variable {e e' : Engine} {now : Instant} {m : Message}

/-- A refused message leaves the engine as it was. -/
theorem deliver_error {f : Fault} (h : e.deliver now m = (.error f, e')) : e' = e := by
  unfold deliver at h
  split at h
  · cases h
    rfl
  · split at h
    · cases h
    · rename_i hp
      cases h
      exact (Transaction.perform_error hp).rollback_eq

theorem deliver_eq_error {f : Fault} {failed : Engine} (hc : m.check = .ok ())
    (h : Transaction.perform m now e = .error f failed) : e.deliver now m = (.error f, e) := by
  have hd : e.deliver now m = (.error f, e.rollback failed) := by
    unfold deliver
    rw [hc, h]
  rw [hd, deliver_error hd]

theorem deliver_eq_ok_iff {r : Response} : e.deliver now m = (.ok r, e') ↔
    m.check = .ok () ∧ Transaction.perform m now e = .ok r e' := by
  unfold deliver
  split
  · simp [*]
  · split <;> simp [*]

theorem deliver_ok {r : Response} (h : e.deliver now m = (.ok r, e')) : Outcome e now m r e' := by
  obtain ⟨hc, hp⟩ := deliver_eq_ok_iff.mp h
  exact Transaction.perform_ok hc hp

end Engine

end TrustPermit
