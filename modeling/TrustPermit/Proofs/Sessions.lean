import TrustPermit.Proofs.Outsiders

/-! # Sessions

A session is a log of exchanges. Each exchange that is accepted for it is signed by its controller,
settles its fees once and leaves its authorization at the end of the log; nothing else touches the
session. So a session holds the authorizations of the exchanges accepted for it, each once.
-/

namespace TrustPermit

structure Session.Continues (s s' : Session) : Prop where
  controller : s'.controller = s.controller
  agent : s'.agent = s.agent
  created : s'.created = s.created
  authorizations : s.authorizations <+: s'.authorizations

namespace Session.Continues

theorem refl (s : Session) : s.Continues s := ⟨rfl, rfl, rfl, List.prefix_rfl⟩

theorem trans {s s' s'' : Session} (h : s.Continues s') (h' : s'.Continues s'') :
    s.Continues s'' where
  controller := h'.controller.trans h.controller
  agent := h'.agent.trans h.agent
  created := h'.created.trans h.created
  authorizations := h.authorizations.trans h'.authorizations

theorem append (s : Session) (a : Authorization) (now : Instant) :
    s.Continues (s.append a now) := ⟨rfl, rfl, rfl, List.prefix_append _ _⟩

end Session.Continues

namespace Records

variable {r : Records} {signer : Address} {x : Exchange} {now : Instant} {s : Session}

def authorizations (r : Records) (id : String) : List Authorization :=
  (r.session? id).elim [] (·.authorizations)

theorem authorizations_eq {id : String} (h : r.session? id = some s) :
    r.authorizations id = s.authorizations := by
  rw [authorizations, h, Option.elim_some]

def sessionFor (r : Records) (signer : Address) (x : Exchange) (now : Instant) : Session :=
  (r.session? x.sessionId).getD (.fresh x.sessionId signer x.agent now)

theorem authorizations_sessionFor (r : Records) (signer : Address) (x : Exchange) (now : Instant) :
    (r.sessionFor signer x now).authorizations = r.authorizations x.sessionId := by
  rw [sessionFor, authorizations]
  cases r.session? x.sessionId <;> rfl

theorem KeysSessions.id_sessionFor (hk : r.KeysSessions) (signer : Address) (x : Exchange)
    (now : Instant) : (r.sessionFor signer x now).id = x.sessionId := by
  cases hs : r.session? x.sessionId with
  | none => rw [sessionFor, hs, Option.getD_none]; rfl
  | some s => rw [sessionFor, hs, Option.getD_some, hk _ s hs]

theorem admitExchange_session (h : r.admitExchange signer x now = .ok s) :
    r.sessionFor signer x now = s ∧ s.controller = signer ∧
      x.authorization ∉ s.authorizations := by
  simp only [admitExchange, Guard.bind_eq_ok_iff, Guard.expect_eq_ok_iff] at h
  obtain ⟨agent, hagent, _, -, _, -, _, -, _, -, h⟩ := h
  obtain rfl : x.agent = agent := by
    unfold PermissionId.given? at hagent
    split at hagent
    · cases hagent
    · exact Option.some.inj hagent
  rw [sessionFor]
  unfold openSession at h
  split at h
  · rename_i s' hs
    simp only [Guard.bind_eq_ok_iff, authorize_eq_ok_iff, Guard.demand_eq_ok_iff,
      Guard.pure_eq_ok_iff] at h
    obtain ⟨_, hc, _, hn, rfl⟩ := h
    rw [hs]
    refine ⟨rfl, hc.symm, ?_⟩
    simpa [Session.holds] using hn
  · rename_i hn
    cases h
    rw [hn]
    exact ⟨rfl, rfl, List.not_mem_nil⟩

end Records

namespace Engine

/-- An exchange settles its fees once, and is appended to a session. -/
def Exchanges (e : Engine) (signer : Address) (x : Exchange) (now : Instant) (s : Session)
    (e' : Engine) : Prop :=
  ∃ beneficiaries receipt w, e.admitPayment signer x = .ok beneficiaries ∧
    Transfer.settle (e.terms x.feeKind (.account signer) x.executor?) beneficiaries e.toWorld =
      .ok receipt w ∧
    e' = e.after (w.records.insertSession (s.append x.authorization now)) w.host.ledger
      (receipt.lines.map (·.event x.feeKind x.executor?) ++ [x.event signer])

/-- What a message does to the session of an id: it is an exchange of its controller and appends a
new authorization, or it leaves the session. -/
inductive Appends (e : Engine) (now : Instant) (m : Message) (e' : Engine) (id : String) :
    Prop where

  | exchange {x : Exchange} : m.action = .exchange x → x.sessionId = id →
      (e.records.sessionFor m.signer x now).controller = m.signer →
      x.authorization ∉ e.records.authorizations id →
      e'.records.session? id =
        some ((e.records.sessionFor m.signer x now).append x.authorization now) →
      e.Exchanges m.signer x now (e.records.sessionFor m.signer x now) e' →
      Appends e now m e' id

  | other : (∀ x, m.action = .exchange x → x.sessionId ≠ id) →
      e'.records.session? id = e.records.session? id → Appends e now m e' id

end Engine

theorem Engine.Exchanges.session? {e e' : Engine} {now : Instant} {signer : Address} {x : Exchange}
    {s : Session} (h : e.Exchanges signer x now s e') (id : String) :
    e'.records.session? id =
      if id = s.id then some (s.append x.authorization now) else e.records.session? id := by
  obtain ⟨beneficiaries, receipt, w, -, hw, rfl⟩ := h
  obtain ⟨⟨g, hg⟩, -⟩ := (Transfer.settle_ok hw).2.2.world
  apply Engine.session_after
  rw [Engine.records_after, hg]
  rfl

theorem Outcome.appends {e e' : Engine} {now : Instant} {m : Message} {r : Response}
    (hk : e.records.KeysSessions) (h : Outcome e now m r e') (id : String) :
    e.Appends now m e' id := by
  cases h with
  | @exchange signer x s beneficiaries receipt w ha hx hb hw =>
    obtain ⟨rfl, hc, hn⟩ := Records.admitExchange_session ha
    have hid := hk.id_sessionFor signer x now
    have hex : e.Exchanges signer x now (e.records.sessionFor signer x now) _ :=
      ⟨beneficiaries, receipt, w, hb, hw, rfl⟩
    by_cases hs : x.sessionId = id
    · refine .exchange rfl hs hc ?_ ?_ hex
      · rwa [← hs, ← Records.authorizations_sessionFor]
      · rw [hex.session?, hid, if_pos hs.symm]
    · refine .other ?_ ?_
      · rintro _ ⟨⟩
        exact hs
      · rw [hex.session?, hid, if_neg (Ne.symm hs)]
  | confirmTermination =>
    refine .other (by rintro _ ⟨⟩) ?_
    simp [Records.session?, Records.sessions_terminated]
  | _ => exact .other (by rintro _ ⟨⟩) rfl

namespace Engine

variable {e e' : Engine} {now : Instant} {m : Message} {id : String}

namespace Appends

theorem continues (h : e.Appends now m e' id) {s : Session}
    (hs : e.records.session? id = some s) :
    ∃ s', e'.records.session? id = some s' ∧ s.Continues s' := by
  cases h with
  | exchange _ hid _ _ hs' _ =>
    subst hid
    refine ⟨_, hs', ?_⟩
    rw [Records.sessionFor, hs, Option.getD_some]
    exact .append s _ now
  | other _ hs' => exact ⟨s, hs'.trans hs, .refl s⟩

theorem authorizations (h : e.Appends now m e' id) :
    (∃ x, m.action = .exchange x ∧ x.sessionId = id ∧
      x.authorization ∉ e.records.authorizations id ∧
      e'.records.authorizations id = e.records.authorizations id ++ [x.authorization]) ∨
    (∀ x, m.action = .exchange x → x.sessionId ≠ id) ∧
      e'.records.authorizations id = e.records.authorizations id := by
  cases h with
  | exchange hm hid _ hn hs' _ =>
    subst hid
    refine .inl ⟨_, hm, rfl, hn, ?_⟩
    rw [Records.authorizations_eq hs', ← Records.authorizations_sessionFor]
    rfl
  | other hm hs' =>
    refine .inr ⟨hm, ?_⟩
    rw [Records.authorizations, hs']
    rfl

end Appends

/-- An exchange with an authorization is accepted for a session in a run, right after a part of
it. -/
def Authorizes (e : Engine) (steps earlier : List Step) (id : String) (a : Authorization) : Prop :=
  ∃ now signer x, x.sessionId = id ∧ x.authorization = a ∧
    e.AcceptedAfter steps earlier now ⟨signer, .exchange x⟩

variable {steps earlier later : List Step} {a : Authorization}

theorem new_keysSessions {host : Host} {params : Params} {authority : Address}
    (h : new host params authority = .ok e) : e.records.KeysSessions := by
  obtain ⟨-, rfl⟩ := new_eq_ok_iff.mp h
  rintro id s ⟨⟩

theorem run_continues (hk : e.records.KeysSessions) (hpre : earlier <+: steps) {s : Session}
    (hs : (e.run earlier).records.session? id = some s) :
    ∃ s', (e.run steps).records.session? id = some s' ∧ s.Continues s' := by
  obtain ⟨rest, rfl⟩ := hpre
  rw [run_append]
  refine (run_invariant (P := fun e' => e'.records.KeysSessions ∧
    ∃ s', e'.records.session? id = some s' ∧ s.Continues s')
    ⟨run_keysSessions hk earlier, s, hs, .refl s⟩ (step_invariant ?_ fun _ h => h) rest).2
  rintro e₁ e₂ now m r ⟨hk₁, s₁, hs₁, hc⟩ h
  obtain ⟨s₂, hs₂, hc'⟩ := (h.appends hk₁ id).continues hs₁
  exact ⟨h.keysSessions hk₁, s₂, hs₂, hc.trans hc'⟩

theorem mem_authorizations_later (hk : e.records.KeysSessions) (hpre : earlier <+: steps)
    (h : a ∈ (e.run earlier).records.authorizations id) :
    a ∈ (e.run steps).records.authorizations id := by
  cases hs : (e.run earlier).records.session? id with
  | none =>
    rw [Records.authorizations, hs] at h
    cases h
  | some s =>
    obtain ⟨s', hs', hc⟩ := run_continues hk hpre hs
    rw [Records.authorizations_eq hs] at h
    rw [Records.authorizations_eq hs']
    exact hc.authorizations.subset h

theorem Authorizes.before (h : e.Authorizes steps earlier id a) : earlier <+: steps := by
  obtain ⟨_, _, _, -, -, hacc⟩ := h
  exact hacc.before

theorem Authorizes.authorizations (hk : e.records.KeysSessions)
    (h : e.Authorizes steps earlier id a) :
    a ∉ (e.run earlier).records.authorizations id ∧ ∃ s, earlier ++ [s] <+: steps ∧
      a ∈ (e.run (earlier ++ [s])).records.authorizations id := by
  obtain ⟨now, signer, x, hid, rfl, hpre, ha⟩ := h
  obtain ⟨r, e', hd⟩ := accepts_iff.mp ha
  rcases ((deliver_ok hd).appends (run_keysSessions hk earlier) id).authorizations with
    ⟨y, hy, -, hn, hadd⟩ | ⟨hm, -⟩
  · cases hy
    refine ⟨hn, _, hpre, ?_⟩
    rw [run_concat, step, hd, hadd]
    exact List.mem_append_right _ List.mem_cons_self
  · exact absurd hid (hm x rfl)

/-- No two exchanges with one authorization are accepted for a session. -/
theorem Authorizes.unique (hk : e.records.KeysSessions) (h : e.Authorizes steps earlier id a)
    (h' : e.Authorizes steps later id a) : earlier = later := by
  have hlt : ∀ {u v : List Step}, e.Authorizes steps u id a → e.Authorizes steps v id a →
      ¬ u.length < v.length := by
    intro u v hu hv hlen
    obtain ⟨-, s, hpre, hmem⟩ := hu.authorizations hk
    obtain ⟨hn, -⟩ := hv.authorizations hk
    have huv : u ++ [s] <+: v := by
      apply List.prefix_of_prefix_length_le hpre hv.before
      rw [List.length_append, List.length_singleton]
      exact hlen
    exact hn (mem_authorizations_later hk huv hmem)
  have hlen := le_antisymm (not_lt.mp (hlt h' h)) (not_lt.mp (hlt h h'))
  exact (List.prefix_of_prefix_length_le h.before h'.before hlen.le).eq_of_length hlen

theorem authorizes_concat {s : Step} :
    (∃ earlier, e.Authorizes (steps ++ [s]) earlier id a) ↔
      (∃ earlier, e.Authorizes steps earlier id a) ∨
        ∃ now signer x, x.sessionId = id ∧ x.authorization = a ∧
          s = .deliver now ⟨signer, .exchange x⟩ ∧
          (e.run steps).Accepts now ⟨signer, .exchange x⟩ := by
  constructor
  · rintro ⟨earlier, now, signer, x, hid, hx, h⟩
    rcases acceptedAfter_concat.mp h with h | ⟨-, hs, ha⟩
    · exact .inl ⟨earlier, now, signer, x, hid, hx, h⟩
    · exact .inr ⟨now, signer, x, hid, hx, hs, ha⟩
  · rintro (⟨earlier, now, signer, x, hid, hx, h⟩ | ⟨now, signer, x, hid, hx, hs, ha⟩)
    · exact ⟨earlier, now, signer, x, hid, hx, acceptedAfter_concat.mpr (.inl h)⟩
    · exact ⟨steps, now, signer, x, hid, hx, acceptedAfter_concat.mpr (.inr ⟨rfl, hs, ha⟩)⟩

/-- The log of a session after a run: the authorizations of the accepted exchanges, without
duplicates. -/
structure Logs (e : Engine) (steps : List Step) (id : String) : Prop where
  nodup : ((e.run steps).records.authorizations id).Nodup
  mem_iff : ∀ a, a ∈ (e.run steps).records.authorizations id ↔
    ∃ earlier, e.Authorizes steps earlier id a

namespace Logs

theorem nil (hz : e.records.session? id = none) : e.Logs [] id := by
  have hnil : (e.run []).records.authorizations id = [] := by
    rw [Records.authorizations, run, List.foldl_nil, hz, Option.elim_none]
  constructor
  · rw [hnil]
    exact List.nodup_nil
  · intro a
    rw [hnil]
    refine iff_of_false List.not_mem_nil ?_
    rintro ⟨_, _, _, _, -, -, h⟩
    exact not_acceptedAfter_nil h

theorem idle (h : e.Logs steps id) {s : Step}
    (hr : (e.run (steps ++ [s])).records.authorizations id =
      (e.run steps).records.authorizations id)
    (hn : ∀ now signer x, s = .deliver now ⟨signer, .exchange x⟩ → x.sessionId = id →
      ¬ (e.run steps).Accepts now ⟨signer, .exchange x⟩) : e.Logs (steps ++ [s]) id := by
  constructor
  · rw [hr]
    exact h.nodup
  · intro a
    rw [hr, h.mem_iff, authorizes_concat, or_iff_left]
    rintro ⟨now, signer, x, hid, -, hs, ha⟩
    exact hn now signer x hs hid ha

theorem concat (hk : e.records.KeysSessions) (h : e.Logs steps id) (s : Step) :
    e.Logs (steps ++ [s]) id := by
  cases s using (e.run steps).step_cases with
  | surround host =>
    refine h.idle ?_ ?_
    · rw [run_concat]
      rfl
    · rintro now signer x ⟨⟩
  | refused now m hn hstep =>
    refine h.idle ?_ ?_
    · rw [run_concat, hstep]
    · rintro now' signer x ⟨⟩ - ha
      exact hn ha
  | accepted now m r e' hd hstep ho =>
    rcases (ho.appends (run_keysSessions hk steps) id).authorizations with
      ⟨x, hm, hid, hn, hadd⟩ | ⟨hm, hsame⟩
    · obtain ⟨signer, action⟩ := m
      obtain rfl : action = .exchange x := hm
      have hrun : (e.run (steps ++ [.deliver now ⟨signer, .exchange x⟩])).records.authorizations
          id = (e.run steps).records.authorizations id ++ [x.authorization] := by
        rw [run_concat, hstep, hadd]
      constructor
      · rw [hrun, ← List.concat_eq_append, List.nodup_concat]
        exact ⟨hn, h.nodup⟩
      · intro a
        rw [hrun, List.mem_append, h.mem_iff, authorizes_concat, List.mem_singleton]
        apply or_congr_right
        constructor
        · rintro rfl
          exact ⟨now, signer, x, hid, rfl, rfl, accepts_iff.mpr ⟨r, e', hd⟩⟩
        · rintro ⟨_, _, _, -, rfl, hs, -⟩
          cases hs
          rfl
    · refine h.idle ?_ ?_
      · rw [run_concat, hstep, hsame]
      · rintro now' signer x ⟨⟩ hid
        exact absurd hid (hm x rfl)

end Logs

theorem run_logs (hk : e.records.KeysSessions) (hz : e.records.session? id = none)
    (steps : List Step) : e.Logs steps id := by
  induction steps using List.reverseRecOn with
  | nil => exact .nil hz
  | append_singleton steps s ih => exact ih.concat hk s

end Engine

/-- A session keeps its controller, its agent and the time of its creation through every run, and
its authorizations are those of the exchanges accepted for it, each accepted once. An accepted
exchange of a session is signed by its controller, settles its fees once and appends its
authorization, which was not there. No other message touches the session, and one that is refused
changes nothing. -/
theorem sessions_log_accepted_exchanges {host : Host} {params : Params} {authority : Address}
    {e : Engine} (hn : Engine.new host params authority = .ok e) (steps : List Step) (id : String) :
    (∀ earlier, earlier <+: steps → ∀ s, (e.run earlier).records.session? id = some s →
      ∃ s', (e.run steps).records.session? id = some s' ∧ s'.controller = s.controller ∧
        s'.agent = s.agent ∧ s'.created = s.created ∧ s.authorizations <+: s'.authorizations) ∧
    ((e.run steps).records.authorizations id).Nodup ∧
    (∀ a, a ∈ (e.run steps).records.authorizations id ↔
      ∃ earlier, e.Authorizes steps earlier id a) ∧
    (∀ a earlier later, e.Authorizes steps earlier id a → e.Authorizes steps later id a →
      earlier = later) ∧
    (∀ now m r e', (e.run steps).deliver now m = (.ok r, e') →
      (e.run steps).Appends now m e' id) ∧
    ∀ now m f e', (e.run steps).deliver now m = (.error f, e') → e' = e.run steps := by
  have hk := Engine.new_keysSessions hn
  have hz : e.records.session? id = none := by
    obtain ⟨-, rfl⟩ := Engine.new_eq_ok_iff.mp hn
    rfl
  have hlogs := Engine.run_logs hk hz steps
  refine ⟨?_, hlogs.nodup, hlogs.mem_iff, ?_, ?_, ?_⟩
  · intro earlier hpre s hs
    obtain ⟨s', hs', hc⟩ := Engine.run_continues hk hpre hs
    exact ⟨s', hs', hc.controller, hc.agent, hc.created, hc.authorizations⟩
  · intro a earlier later h h'
    exact h.unique hk h'
  · intro now m r e' hd
    exact (Engine.deliver_ok hd).appends (Engine.run_keysSessions hk steps) id
  · intro now m f e' hd
    exact Engine.deliver_error hd

namespace Sample

def opening : List Step := founding ++ [signed issuer (.exchange ⟨"s", 3, 0, 3, 0⟩)]

def exchanges : List Step :=
  opening ++
    [signed issuer (.exchange ⟨"s", 3, 0, 3, 3⟩), signed issuer (.exchange ⟨"s", 3, 0, 3, 0⟩)]

end Sample

theorem sessions_log_accepted_exchanges_twice :
    (Sample.engine.run Sample.exchanges).records.authorizations "s" =
        [⟨some 3, none, none⟩, ⟨some 3, none, some 3⟩] ∧
      (∃ s, (Sample.engine.run Sample.exchanges).records.session? "s" = some s ∧
        s.controller = Sample.issuer ∧ s.agent = 3 ∧ s.created = Sample.noon) ∧
      ∃ earlier, Sample.engine.Authorizes Sample.exchanges earlier "s" ⟨some 3, none, some 3⟩ := by
  have hlog : (Sample.engine.run Sample.exchanges).records.authorizations "s" =
      [⟨some 3, none, none⟩, ⟨some 3, none, some 3⟩] := by decide +kernel
  have hopening : ((Sample.engine.run Sample.opening).records.session? "s").map
      (fun s => (s.controller, s.agent, s.created)) =
        some (Sample.issuer, 3, Sample.noon) := by decide +kernel
  obtain ⟨s, hs, hsame⟩ := Option.map_eq_some_iff.mp hopening
  simp only [Prod.mk.injEq] at hsame
  obtain ⟨hcontinues, -, hmem, -⟩ :=
    sessions_log_accepted_exchanges Sample.engine_new Sample.exchanges "s"
  refine ⟨hlog, ?_, ?_⟩
  · obtain ⟨s', hs', hc, ha, ht, -⟩ := hcontinues Sample.opening (List.prefix_append _ _) s hs
    exact ⟨s', hs', hc.trans hsame.1, ha.trans hsame.2.1, ht.trans hsame.2.2⟩
  · rw [← hmem, hlog]
    exact List.mem_cons_of_mem _ List.mem_cons_self

end TrustPermit
