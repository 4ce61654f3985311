import TrustPermit.Engine.Deliver

/-! # Faults that cannot come up

Which faults a check or an effect does not stop with. A sequence rules out what each of its parts
rules out, in the states to which the parts before it lead. `Stops` is for the cases where a fault
does come up. Admissions stop for many reasons, but not for what becomes of a payment.
-/

namespace TrustPermit

namespace Guard

variable {ε δ α β : Type} {bad : ε → Bool}

/-- A check does not stop with one of the faults. -/
structure RulesOut (bad : ε → Bool) (x : Except ε α) : Prop where
  of_error {f} : x = .error f → bad f = false

namespace RulesOut

theorem ok (a : α) : RulesOut bad (.ok a : Except ε α) := ⟨nofun⟩

theorem error {f : ε} (hf : bad f = false) : RulesOut bad (.error f : Except ε α) :=
  ⟨fun h => Except.error.inj h ▸ hf⟩

theorem demand {c : Prop} [Decidable c] {f : ε} (hf : bad f = false) :
    RulesOut bad (demand c f) :=
  ⟨fun h => (demand_eq_error_iff.mp h).2 ▸ hf⟩

theorem expect {o : Option α} {f : ε} (hf : bad f = false) : RulesOut bad (expect o f) :=
  ⟨fun h => (expect_eq_error_iff.mp h).2 ▸ hf⟩

theorem bind_ok {x : Except ε α} {f : α → Except ε β} (hx : RulesOut bad x)
    (hf : ∀ a, x = .ok a → RulesOut bad (f a)) : RulesOut bad (x >>= f) := by
  cases x with
  | error e => exact .error (hx.of_error rfl)
  | ok a => exact hf a rfl

theorem bind {x : Except ε α} {f : α → Except ε β} (hx : RulesOut bad x)
    (hf : ∀ a, RulesOut bad (f a)) : RulesOut bad (x >>= f) :=
  .bind_ok hx fun a _ => hf a

theorem map {x : Except ε α} (hx : RulesOut bad x) (f : α → β) : RulesOut bad (x.map f) := by
  cases x with
  | error e => exact .error (hx.of_error rfl)
  | ok a => exact .ok (f a)

theorem mapError {x : Except δ α} {g : δ → ε} (hg : ∀ f, bad (g f) = false) :
    RulesOut bad (x.mapError g) := by
  cases x with
  | error f => exact .error (hg f)
  | ok a => exact .ok a

theorem mono {fewer : ε → Bool} (hle : ∀ f, bad f = false → fewer f = false) {x : Except ε α}
    (hx : RulesOut bad x) : RulesOut fewer x :=
  ⟨fun h => hle _ (hx.of_error h)⟩

end RulesOut

end Guard

namespace Effect

variable {ε δ σ τ α β : Type} {bad : ε → Bool} {s : σ}

/-- An effect on a state does not stop with one of the faults. -/
structure RulesOut (bad : ε → Bool) (x : Effect ε σ α) (s : σ) : Prop where
  of_error {f t} : x s = .error f t → bad f = false

namespace RulesOut

theorem of_forall (h : ∀ f, bad f = false) (x : Effect ε σ α) : RulesOut bad x s :=
  ⟨fun {f _} _ => h f⟩

theorem pure (a : α) : RulesOut bad (Pure.pure a : Effect ε σ α) s :=
  ⟨fun h => absurd h pure_ne_error⟩

theorem get : RulesOut bad (MonadState.get : Effect ε σ σ) s := ⟨fun h => absurd h get_ne_error⟩

theorem ask {f : σ → Except ε α} (hf : Guard.RulesOut bad (f s)) : RulesOut bad (Effect.ask f) s :=
  ⟨fun h => hf.of_error (ask_eq_error_iff.mp h).1⟩

theorem change {f : σ → Except ε σ} (hf : Guard.RulesOut bad (f s)) :
    RulesOut bad (Effect.change f) s :=
  ⟨fun h => hf.of_error (change_eq_error_iff.mp h).1⟩

theorem update (f : σ → σ) : RulesOut bad (Effect.update f : Effect ε σ Unit) s :=
  ⟨fun h => absurd h update_ne_error⟩

/-- What follows an effect starts from a state to which it led. -/
theorem bind {x : Effect ε σ α} {f : α → Effect ε σ β} (hx : RulesOut bad x s)
    (hf : ∀ a t, x s = .ok a t → RulesOut bad (f a) t) : RulesOut bad (x >>= f) s where
  of_error h := by
    rcases bind_eq_error_iff.mp h with h | ⟨a, u, h₁, h₂⟩
    · exact hx.of_error h
    · exact (hf a u h₁).of_error h₂

theorem ask_bind {g : σ → Except ε α} {f : α → Effect ε σ β} (hg : Guard.RulesOut bad (g s))
    (hf : ∀ a, g s = .ok a → RulesOut bad (f a) s) : RulesOut bad (Effect.ask g >>= f) s :=
  .bind (.ask hg) fun a _ h => by
    obtain ⟨ha, rfl⟩ := ask_eq_ok_iff.mp h
    exact hf a ha

theorem get_bind {f : σ → Effect ε σ β} (hf : RulesOut bad (f s) s) :
    RulesOut bad (MonadState.get >>= f) s :=
  .bind .get fun _ _ h => by
    obtain ⟨rfl, rfl⟩ := get_eq_ok_iff.mp h
    exact hf

theorem unlessZero {x : Effect ε σ Unit} {n : Nat} (hx : n ≠ 0 → RulesOut bad x s) :
    RulesOut bad (Effect.unlessZero n x) s where
  of_error h := by
    obtain ⟨hn, h⟩ := unlessZero_eq_error_iff.mp h
    exact (hx hn).of_error h

theorem within {part : σ → τ} {put : σ → τ → σ} {wrap : δ → ε} {x : Effect δ τ α}
    (hx : RulesOut (bad <| wrap ·) x (part s)) :
    RulesOut bad (Effect.within part put wrap x) s where
  of_error h := by
    obtain ⟨_, _, hx', rfl, -⟩ := within_eq_error_iff.mp h
    exact hx.of_error hx'

end RulesOut

def Stops (x : Effect ε σ α) (s : σ) (e : ε) : Prop := ∃ t, x s = .error e t

variable {e : ε}

theorem RulesOut.not_stops {x : Effect ε σ α} (h : RulesOut bad x s) (he : bad e = true) :
    ¬ Stops x s e := by
  rintro ⟨_, hx⟩
  simp [h.of_error hx] at he

theorem stops_bind_iff {x : Effect ε σ α} {f : α → Effect ε σ β} :
    Stops (x >>= f) s e ↔ Stops x s e ∨ ∃ a t, x s = .ok a t ∧ Stops (f a) t e := by
  simp only [Stops, bind_eq_error_iff, exists_or]
  refine or_congr_right ⟨?_, ?_⟩
  · rintro ⟨u, a, t, hx, hf⟩
    exact ⟨a, t, hx, u, hf⟩
  · rintro ⟨a, t, hx, u, hf⟩
    exact ⟨u, a, t, hx, hf⟩

theorem stops_ask_iff {f : σ → Except ε α} : Stops (Effect.ask f) s e ↔ f s = .error e := by
  simp [Stops]

theorem stops_ask_bind_iff {g : σ → Except ε α} {f : α → Effect ε σ β} :
    Stops (Effect.ask g >>= f) s e ↔ g s = .error e ∨ ∃ a, g s = .ok a ∧ Stops (f a) s e := by
  rw [stops_bind_iff, stops_ask_iff]
  refine or_congr_right (exists_congr fun a => ?_)
  simp only [ask_eq_ok_iff, and_assoc, exists_and_left, exists_eq_left']

theorem not_stops_update {g : σ → σ} : ¬ Stops (Effect.update g) s e := by
  simp [Stops]

theorem stops_update_bind_iff {g : σ → σ} {x : Effect ε σ α} :
    Stops (Effect.update g >>= fun _ => x) s e ↔ Stops x (g s) e := by
  simp [stops_bind_iff, not_stops_update]

theorem stops_unlessZero_iff {x : Effect ε σ Unit} {n : Nat} :
    Stops (Effect.unlessZero n x) s e ↔ n ≠ 0 ∧ Stops x s e := by
  simp [Stops, unlessZero_eq_error_iff]

theorem stops_within_iff {part : σ → τ} {put : σ → τ → σ} {wrap : δ → ε} {x : Effect δ τ α} :
    Stops (Effect.within part put wrap x) s e ↔ ∃ f, Stops x (part s) f ∧ wrap f = e := by
  simp only [Stops, within_eq_error_iff]
  constructor
  · rintro ⟨_, f, t, hx, he, -⟩
    exact ⟨f, ⟨t, hx⟩, he⟩
  · rintro ⟨f, ⟨t, hx⟩, he⟩
    exact ⟨_, f, t, hx, he, rfl⟩

end Effect

/-- The host refused a call, or an amount left its range: admissions do not stop with these. -/
def Fault.isPayment : Fault → Bool
  | overflow _ | host _ => true
  | _ => false

theorem validityWindow_rulesOut (base : Instant) (days : Nat) :
    Guard.RulesOut Fault.isPayment (validityWindow base days) := by
  unfold validityWindow
  split
  · exact .ok none
  · exact .map (.expect rfl) _

theorem Host.controller_rulesOut (h : Host) (schemaId : Nat) :
    Guard.RulesOut Fault.isPayment (h.controller schemaId) :=
  .bind (.expect rfl) fun _ => .bind (.expect rfl) fun _ => .ok _

theorem checkUpcoming_rulesOut (start finish : Option Instant) (now : Instant) :
    Guard.RulesOut Fault.isPayment (checkUpcoming start finish now) := by
  refine .bind ?_ fun _ => ?_
  · cases start with
    | none => exact .ok ()
    | some start => exact .demand rfl
  · cases finish with
    | none => exact .ok ()
    | some finish => exact .demand rfl

theorem CredentialSchema.checkValidator_rulesOut {bad : Fault → Bool} (s : CredentialSchema)
    (validator : Permission) (requested : PermissionKind)
    (hmode : ∀ id mode cause, bad (.modeMismatch id mode cause) = false)
    (hwrong : ∀ id kind requested cause, bad (.wrongValidator id kind requested cause) = false) :
    Guard.RulesOut bad (s.checkValidator validator requested) := by
  refine .bind ?_ fun _ => .demand (hwrong ..)
  cases requested with
  | issuerGrantor | verifierGrantor => exact .bind (.demand (hmode ..)) fun _ => .ok _
  | issuer | verifier =>
    simp only [validatorKind, memberValidator]
    split
    · exact .error (hmode ..)
    · exact .ok _
    · exact .ok _
  | holder => exact .ok _
  | ecosystem | trustRegistry => exact .error (hwrong ..)

namespace Permission

variable (p : Permission)

theorem checkEligible_rulesOut (id : PermissionId) (country : Option Country) (now : Instant) :
    Guard.RulesOut Fault.isPayment (p.checkEligible id country now) := by
  unfold checkEligible
  split
  · exact .error rfl
  · exact .demand rfl

theorem checkActive_rulesOut (id : PermissionId) (now : Instant) :
    Guard.RulesOut Fault.isPayment (p.checkActive id now) := by
  unfold checkActive
  split
  · exact .error rfl
  · exact .ok ()

theorem checkCeiling_rulesOut (finish : Instant) :
    Guard.RulesOut Fault.isPayment (p.checkCeiling finish) := by
  unfold checkCeiling
  split
  · exact .demand rfl
  · exact .ok ()

theorem checkKept_rulesOut (terms : Terms) :
    Guard.RulesOut Fault.isPayment (p.checkKept terms) := by
  unfold checkKept
  split
  · exact .bind (.demand rfl) fun _ => .bind (.demand rfl) fun _ => .bind (.demand rfl) fun _ =>
      .demand rfl
  · exact .ok ()

theorem checkFinish_rulesOut (requested windowEnd : Option Instant) (now : Instant) :
    Guard.RulesOut Fault.isPayment (p.checkFinish requested windowEnd now) := by
  cases requested with
  | none => exact .ok ()
  | some finish =>
    refine .bind ?_ fun _ => ?_
    · cases p.finishFloor now with
      | none => exact .ok ()
      | some floor => exact .demand rfl
    · cases windowEnd with
      | none => exact .ok ()
      | some last => exact .demand rfl

end Permission

namespace Records

variable (r : Records)

theorem validatorFor_rulesOut (id : PermissionId) (country : Option Country) (now : Instant) :
    Guard.RulesOut Fault.isPayment (r.validatorFor id country now) :=
  .bind (.expect rfl) fun p => .bind (p.checkEligible_rulesOut id country now) fun _ => .ok p

theorem checkParticipant_rulesOut (expected : PermissionKind) (now : Instant)
    (part : Option PermissionId) :
    Guard.RulesOut Fault.isPayment (r.checkParticipant expected now part) := by
  cases part with
  | none => exact .ok ()
  | some id =>
    exact .bind (.expect rfl) fun p => .bind (.demand rfl) fun _ => p.checkActive_rulesOut id now

theorem openSession_rulesOut (signer : Address) (id : String) (agent : PermissionId)
    (a : Authorization) (now : Instant) :
    Guard.RulesOut Fault.isPayment (r.openSession signer id agent a now) := by
  unfold openSession
  split
  · exact .bind (.demand rfl) fun _ => .bind (.demand rfl) fun _ => .ok _
  · exact .ok _

end Records

namespace World

variable (w : World) (id : PermissionId) (signer : Address) (deed : Deed)

theorem authorityOver_rulesOut (p : Permission) :
    Guard.RulesOut Fault.isPayment (w.authorityOver p) := by
  unfold authorityOver
  split
  · exact .map (.expect rfl) _
  · exact w.host.controller_rulesOut _

theorem loadAsValidator_rulesOut :
    Guard.RulesOut Fault.isPayment (w.loadAsValidator id signer deed) :=
  .bind (.expect rfl) fun p => .bind (w.authorityOver_rulesOut p) fun _ =>
    .bind (.demand rfl) fun _ => .ok p

theorem loadAsGrantee_rulesOut :
    Guard.RulesOut Fault.isPayment (w.loadAsGrantee id signer deed) :=
  .bind (.expect rfl) fun p => .bind (.demand rfl) fun _ => .ok p

theorem admitCancellation_rulesOut :
    Guard.RulesOut Fault.isPayment (w.admitCancellation signer id) :=
  .bind (w.loadAsGrantee_rulesOut id signer .cancel) fun p => .bind (.demand rfl) fun _ => .ok p

theorem admitConsent_rulesOut (terms : Terms) (now : Instant) :
    Guard.RulesOut Fault.isPayment (w.admitConsent signer id terms now) :=
  .bind (w.loadAsValidator_rulesOut id signer .validate) fun p =>
    .bind (.demand rfl) fun _ => .bind (p.checkKept_rulesOut terms) fun _ =>
      .bind (.demand rfl) fun _ => .bind (.expect rfl) fun _ =>
        .bind (validityWindow_rulesOut _ _) fun _ =>
          .bind (p.checkFinish_rulesOut _ _ now) fun _ => .ok _

theorem admitApplication_rulesOut (a : Application) (now : Instant) :
    Guard.RulesOut Fault.isPayment (w.admitApplication a now) :=
  .bind (.expect rfl) fun id =>
    .bind (w.records.validatorFor_rulesOut id a.country now) fun validator =>
      .bind (.expect rfl) fun schema =>
        .bind (schema.checkValidator_rulesOut validator a.kind (fun _ _ _ => rfl)
          fun _ _ _ _ => rfl) fun _ => .ok _

theorem admitRenewal_rulesOut (now : Instant) :
    Guard.RulesOut Fault.isPayment (w.admitRenewal signer id now) :=
  .bind (w.loadAsGrantee_rulesOut id signer .renew) fun p => .bind (.demand rfl) fun _ =>
    .bind (.expect rfl) fun v =>
      .bind (w.records.validatorFor_rulesOut v p.country now) fun _ => .ok _

theorem admitExtension_rulesOut (finish : Instant) :
    Guard.RulesOut Fault.isPayment (w.admitExtension signer id finish) :=
  .bind (w.loadAsValidator_rulesOut id signer .extend) fun p => .bind (.demand rfl) fun _ =>
    .bind (.demand rfl) fun _ => .bind (.demand rfl) fun _ =>
      .bind (p.checkCeiling_rulesOut finish) fun _ => .ok p

theorem admitRevocation_rulesOut :
    Guard.RulesOut Fault.isPayment (w.admitRevocation signer id) :=
  .bind (w.loadAsValidator_rulesOut id signer .revoke) fun p => .bind (.demand rfl) fun _ =>
    .bind (.demand rfl) fun _ => .ok p

theorem admitDeparture_rulesOut : Guard.RulesOut Fault.isPayment (w.admitDeparture signer id) :=
  .bind (w.loadAsGrantee_rulesOut id signer .requestTermination) fun p =>
    .bind (.demand rfl) fun _ => .ok p

theorem admitTermination_rulesOut :
    Guard.RulesOut Fault.isPayment (w.admitTermination signer id) :=
  .bind (w.loadAsValidator_rulesOut id signer .confirmTermination) fun p =>
    .bind (.demand rfl) fun _ => .ok p

theorem admitRoot_rulesOut (g : RootGrant) (now : Instant) :
    Guard.RulesOut Fault.isPayment (w.admitRoot signer g now) :=
  .bind (w.host.controller_rulesOut _) fun _ => .bind (.demand rfl) fun _ =>
    checkUpcoming_rulesOut ..

theorem admitSelfGrant_rulesOut (g : SelfGrant) (now : Instant) :
    Guard.RulesOut Fault.isPayment (w.admitSelfGrant g now) :=
  .bind (.expect rfl) fun _ => .bind (.demand rfl) fun _ =>
    .bind (checkUpcoming_rulesOut ..) fun _ => .expect rfl

end World

namespace Records

variable (r : Records)

theorem admitExchange_rulesOut (signer : Address) (x : Exchange) (now : Instant) :
    Guard.RulesOut Fault.isPayment (r.admitExchange signer x now) :=
  .bind (.expect rfl) fun _ => .bind (r.checkParticipant_rulesOut ..) fun _ =>
    .bind (r.checkParticipant_rulesOut ..) fun _ => .bind (r.checkParticipant_rulesOut ..) fun _ =>
      .bind (r.checkParticipant_rulesOut ..) fun _ => r.openSession_rulesOut ..

theorem walkFrom_rulesOut {stop : Fault} (hstop : stop.isPayment = false) (hops : Nat)
    (seen : List PermissionId) (start : Option PermissionId) :
    ∀ f, (r.walkFrom stop hops seen start).fault = some f → f.isPayment = false := by
  fun_induction walkFrom r stop hops seen start with
  | case1 => rintro f ⟨⟩
  | case2 | case3 =>
    rintro f ⟨⟩
    exact hstop
  | case4 =>
    rintro f ⟨⟩
    rfl
  | case5 _ _ _ _ _ _ _ ih => exact ih

theorem chainOption_rulesOut (start : Option PermissionId) (maxDepth : Nat) :
    Guard.RulesOut Fault.isPayment (r.chainOption start maxDepth) := by
  cases start with
  | none => exact .ok []
  | some id =>
    have hend : (Fault.endlessChain id maxDepth).isPayment = false := rfl
    simp only [chainOption, chain, walk]
    split
    · exact .ok _
    · rename_i f hf
      exact .error (r.walkFrom_rulesOut hend (maxDepth + 1) [] (some id) f hf)

theorem beneficiaries_rulesOut (schemas : Table Nat CredentialSchema)
    (issuer verifier : Option PermissionId) (maxDepth : Nat) :
    Guard.RulesOut Fault.isPayment (r.beneficiaries schemas issuer verifier maxDepth) := by
  have hpart : ∀ part, Guard.RulesOut Fault.isPayment (r.requireOption part) := by
    rintro (_ | id)
    · exact .ok none
    · exact .map (.expect rfl) _
  have hcommon : ∀ i v, Guard.RulesOut Fault.isPayment (commonSchema i v) := by
    intro i v
    unfold commonSchema
    split
    · split
      · exact .ok _
      · exact .error rfl
    · exact .ok _
    · exact .ok _
    · exact .error rfl
  refine .bind (hpart issuer) fun i => .bind (hpart verifier) fun v => .bind (hcommon i v) fun _ =>
    .bind (.expect rfl) fun _ => ?_
  split
  · exact .ok _
  · exact .bind (r.chainOption_rulesOut ..) fun _ => .bind (r.chainOption_rulesOut ..) fun _ =>
      .ok _

end Records

namespace Engine

variable (e : Engine) (signer : Address) (id : PermissionId)

theorem checkSlasher_rulesOut (p : Permission) (now : Instant) :
    Guard.RulesOut Fault.isPayment (e.checkSlasher signer p now) := by
  refine .bind (e.host.controller_rulesOut _) fun controller => ?_
  split
  · exact .ok ()
  · exact .bind (e.records.chainOption_rulesOut ..) fun _ => .demand rfl

theorem admitSlash_rulesOut (amount : Nat) (now : Instant) :
    Guard.RulesOut Fault.isPayment (e.admitSlash signer id amount now) :=
  .bind (.expect rfl) fun p => .bind (e.checkSlasher_rulesOut signer p now) fun _ =>
    .bind (.demand rfl) fun _ => .ok p

theorem admitRepayment_rulesOut :
    Guard.RulesOut Fault.isPayment (e.admitRepayment signer id) :=
  .bind (.expect rfl) fun p => .bind (.demand rfl) fun _ => .bind (.demand rfl) fun _ => .ok p

end Engine

theorem Transaction.conclude_rulesOut {α : Type} {bad : Fault → Bool} {e : Engine}
    {p : Permission} (event : Event) (a : α) :
    Effect.RulesOut bad (do store p; emit event; return a) e :=
  .bind (.update _) fun _ _ _ => .bind (.update _) fun _ _ _ => .pure a

theorem Engine.deliver_rulesOut {e : Engine} {now : Instant} {m : Message} {bad : Fault → Bool}
    (hc : Guard.RulesOut bad m.check) (hp : Effect.RulesOut bad (Transaction.perform m now) e) :
    Guard.RulesOut bad (e.deliver now m).1 := by
  unfold deliver
  split
  · rename_i h
    exact .error (hc.of_error h)
  · split
    · exact .ok _
    · rename_i h
      exact .error (hp.of_error h)

end TrustPermit
