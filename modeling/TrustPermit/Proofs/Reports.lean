import TrustPermit.Proofs.Exclusion

/-! # What is reported

A delivery changes nothing or reports its payouts and then itself, behind what was reported before.
So the reports of a run, apart from payouts, list the messages that were accepted, in their order.
-/

namespace TrustPermit

def Event.isPayout (event : Event) : Bool := event.kind = "settle_fee"

theorem Payout.isPayout_event (line : Payout) (kind : FeeKind) (executor : Option PermissionId) :
    (line.event kind executor).isPayout = true :=
  decide_eq_true (line.event_kind kind executor)

theorem Action.isPayout_eq_false {a : Action} {event : Event} (h : event.kind = a.name) :
    event.isPayout = false :=
  decide_eq_false (h ▸ a.name_ne_settle)

/-- A message that succeeds reports payouts and then itself. -/
theorem Outcome.payouts_then_self {e e' : Engine} {now : Instant} {m : Message} {r : Response}
    (h : Outcome e now m r e') : ∃ fees own, e'.events = e.events ++ (fees ++ [own]) ∧
      (∀ fee ∈ fees, fee.isPayout = true) ∧ own.kind = m.action.name := by
  cases h with
  | @paidConsent _ _ _ p _ _ _ line =>
    refine ⟨[line.event .validation (some p.id)], _, rfl, ?_, rfl⟩
    intro fee hf
    rw [List.mem_singleton.mp hf]
    apply Payout.isPayout_event
  | @exchange _ x _ _ receipt =>
    refine ⟨receipt.lines.map (·.event x.feeKind x.executor?), _, rfl, ?_, rfl⟩
    intro fee hf
    obtain ⟨line, -, rfl⟩ := List.mem_map.mp hf
    apply Payout.isPayout_event
  | _ => exact ⟨[], _, rfl, fun _ hf => (List.not_mem_nil hf).elim, rfl⟩

namespace Engine

/-- A delivery is refused and leaves the whole engine as it was, or it succeeds and only adds to
the events: any number of payouts, and then one event of the message's name. -/
theorem deliver_refused_or_reported (e : Engine) (now : Instant) (m : Message) :
    (∃ f, e.deliver now m = (.error f, e)) ∨
      ∃ r e' fees own, e.deliver now m = (.ok r, e') ∧ e'.events = e.events ++ (fees ++ [own]) ∧
        (∀ fee ∈ fees, fee.kind = "settle_fee") ∧ own.kind = m.action.name := by
  rcases e.deliver_cases now m with hf | ⟨r, e', hd, h⟩
  · exact .inl hf
  · obtain ⟨fees, own, he, hfees, hown⟩ := h.payouts_then_self
    refine .inr ⟨r, e', fees, own, hd, he, ?_, hown⟩
    intro fee hf
    exact of_decide_eq_true (hfees fee hf)

theorem step_events (e : Engine) (s : Step) : e.events <+: (e.step s).events := by
  cases s with
  | surround host => exact List.prefix_rfl
  | deliver now m =>
    rcases e.deliver_cases now m with ⟨f, hd⟩ | ⟨r, e', hd, h⟩
    · exact ⟨[], by simp [step, hd]⟩
    · obtain ⟨fees, own, he, -⟩ := h.payouts_then_self
      exact ⟨fees ++ [own], by simp [step, hd, he]⟩

theorem run_events (e : Engine) {earlier steps : List Step} (hpre : earlier <+: steps) :
    (e.run earlier).events <+: (e.run steps).events := by
  obtain ⟨rest, rfl⟩ := hpre
  rw [run_append]
  exact run_invariant (P := fun e' => (e.run earlier).events <+: e'.events) List.prefix_rfl
    (fun e' s h => h.trans (e'.step_events s)) rest

def reportedNames (e : Engine) : List String :=
  (e.events.filter fun event => !event.isPayout).map (·.kind)

def acceptedNames (e : Engine) : List Step → List String
  | [] => []
  | .deliver now m :: rest =>
    (if (e.deliver now m).1.isOk then [m.action.name] else []) ++
      (e.step (.deliver now m)).acceptedNames rest
  | .surround host :: rest => (e.step (.surround host)).acceptedNames rest

end Engine

theorem Outcome.reportedNames {e e' : Engine} {now : Instant} {m : Message} {r : Response}
    (h : Outcome e now m r e') : e'.reportedNames = e.reportedNames ++ [m.action.name] := by
  obtain ⟨fees, own, he, hfees, hown⟩ := h.payouts_then_self
  have hnone : fees.filter (fun event => !event.isPayout) = [] := by
    rw [List.filter_eq_nil_iff]
    intro fee hf
    simp [hfees fee hf]
  simp [Engine.reportedNames, he, hnone, Action.isPayout_eq_false hown, hown]

theorem Engine.run_reportedNames (e : Engine) (steps : List Step) :
    (e.run steps).reportedNames = e.reportedNames ++ e.acceptedNames steps := by
  induction steps generalizing e with
  | nil => simp [run, acceptedNames]
  | cons s rest ih =>
    change ((e.step s).run rest).reportedNames = _
    rw [ih]
    cases s with
    | surround host => rfl
    | deliver now m =>
      rcases e.deliver_cases now m with ⟨f, hd⟩ | ⟨r, e', hd, h⟩
      · simp [step, acceptedNames, hd, Except.isOk, Except.toBool]
      · simp [step, acceptedNames, hd, h.reportedNames, Except.isOk, Except.toBool]

end TrustPermit
