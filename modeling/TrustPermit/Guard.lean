/-! # Guards

A check either lets a computation go on or stops it with a fault. A sequence of checks succeeds
exactly when each succeeds in turn.
-/

namespace TrustPermit

variable {ε δ α β : Type}

/-- Stops with the fault unless the condition holds. -/
def demand (condition : Prop) [Decidable condition] (fault : ε) : Except ε Unit :=
  if condition then .ok () else .error fault

/-- The value, or the fault if there is none. -/
def expect (value : Option α) (fault : ε) : Except ε α :=
  match value with
  | some a => .ok a
  | none => .error fault

namespace Guard

theorem ok_bind (a : α) (f : α → Except ε β) : (.ok a >>= f) = f a := rfl

theorem error_bind (x : ε) (f : α → Except ε β) : (.error x >>= f) = .error x := rfl

@[simp] theorem bind_eq_ok_iff {x : Except ε α} {f : α → Except ε β} {b : β} :
    (x >>= f) = .ok b ↔ ∃ a, x = .ok a ∧ f a = .ok b := by
  cases x <;> simp [bind, Except.bind]

theorem bind_eq_error_iff {x : Except ε α} {f : α → Except ε β} {y : ε} :
    (x >>= f) = .error y ↔ x = .error y ∨ ∃ a, x = .ok a ∧ f a = .error y := by
  cases x <;> simp [bind, Except.bind]

@[simp] theorem map_eq_ok_iff {x : Except ε α} {f : α → β} {b : β} :
    (f <$> x) = .ok b ↔ ∃ a, x = .ok a ∧ f a = b := by
  cases x <;> simp [Functor.map, Except.map]

@[simp] theorem exceptMap_eq_ok_iff {x : Except ε α} {f : α → β} {b : β} :
    x.map f = .ok b ↔ ∃ a, x = .ok a ∧ f a = b := by
  cases x <;> simp [Except.map]

@[simp] theorem pure_eq_ok_iff {a b : α} : (pure a : Except ε α) = .ok b ↔ a = b := by
  simp [pure, Except.pure]

theorem pure_ne_error {a : α} {y : ε} : (pure a : Except ε α) ≠ .error y := nofun

@[simp] theorem demand_eq_ok_iff {c : Prop} [Decidable c] {x : ε} {u : Unit} :
    demand c x = .ok u ↔ c := by
  by_cases h : c <;> simp [demand, h]

@[simp] theorem demand_eq_error_iff {c : Prop} [Decidable c] {x y : ε} :
    demand c x = .error y ↔ ¬ c ∧ x = y := by
  by_cases h : c <;> simp [demand, h]

@[simp] theorem expect_eq_ok_iff {o : Option α} {x : ε} {a : α} :
    expect o x = .ok a ↔ o = some a := by
  cases o <;> simp [expect]

@[simp] theorem expect_eq_error_iff {o : Option α} {x y : ε} :
    expect o x = .error y ↔ o = none ∧ x = y := by
  cases o <;> simp [expect]

@[simp] theorem mapError_ok {f : ε → δ} {a : α} :
    (Except.ok a : Except ε α).mapError f = .ok a := rfl

@[simp] theorem mapError_error {f : ε → δ} {x : ε} :
    (Except.error x : Except ε α).mapError f = .error (f x) := rfl

@[simp] theorem mapError_eq_ok_iff {x : Except ε α} {f : ε → δ} {a : α} :
    x.mapError f = .ok a ↔ x = .ok a := by
  cases x <;> simp

/-- Of several demands the first one that fails decides. -/
theorem forM_demand {ι : Type} (c : ι → Prop) [DecidablePred c] (f : ι → ε)
    (l : List ι) : l.forM (fun i => demand (c i) (f i)) =
      match l.find? (fun i => ¬ c i) with
      | some i => .error (f i)
      | none => .ok () := by
  induction l with
  | nil => rfl
  | cons i rest ih =>
    change (demand (c i) (f i) >>= fun _ => rest.forM fun i => demand (c i) (f i)) = _
    by_cases h : c i
    · rw [demand, if_pos h, List.find?_cons_of_neg (by simp [h])]
      exact ih
    · rw [demand, if_neg h, List.find?_cons_of_pos (by simp [h])]
      rfl

end Guard

end TrustPermit
