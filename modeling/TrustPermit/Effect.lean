/-! # Effects

An effect changes a state and answers a value, or fails on its way and keeps the changes it made
until then. Effects are sequences of questions and changes; a lemma for each says what a success
of it means.
-/

namespace TrustPermit

abbrev Effect (ε σ α : Type) := EStateM ε σ α

namespace Effect

variable {ε δ σ τ α β : Type}

/-- Asks the state for a value that may be refused. -/
def ask (f : σ → Except ε α) : Effect ε σ α := fun s =>
  match f s with
  | .ok a => .ok a s
  | .error x => .error x s

/-- Changes the state, unless the change is refused. -/
def change (f : σ → Except ε σ) : Effect ε σ Unit := fun s =>
  match f s with
  | .ok t => .ok () t
  | .error x => .error x s

def update (f : σ → σ) : Effect ε σ Unit := fun s => .ok () (f s)

/-- An effect for an amount; none for an amount of zero. -/
def unlessZero (amount : Nat) (x : Effect ε σ Unit) : Effect ε σ Unit :=
  if amount = 0 then pure () else x

def within (part : σ → τ) (put : σ → τ → σ) (wrap : δ → ε) (x : Effect δ τ α) :
    Effect ε σ α := fun s =>
  match x (part s) with
  | .ok a t => .ok a (put s t)
  | .error e t => .error (wrap e) (put s t)

@[simp] theorem bind_eq_ok_iff {x : Effect ε σ α} {f : α → Effect ε σ β} {s t : σ} {b : β} :
    (x >>= f) s = .ok b t ↔ ∃ a u, x s = .ok a u ∧ f a u = .ok b t := by
  simp only [bind, EStateM.bind]
  split
  · rename_i a u h
    simp [h, and_assoc]
  · rename_i h
    simp [h]

@[simp] theorem bind_eq_error_iff {x : Effect ε σ α} {f : α → Effect ε σ β} {s t : σ} {e : ε} :
    (x >>= f) s = .error e t ↔
      x s = .error e t ∨ ∃ a u, x s = .ok a u ∧ f a u = .error e t := by
  simp only [bind, EStateM.bind]
  split
  · rename_i a u h
    simp [h, and_assoc]
  · rename_i h
    simp [h]

@[simp] theorem map_eq_ok_iff {x : Effect ε σ α} {f : α → β} {s t : σ} {b : β} :
    (f <$> x) s = .ok b t ↔ ∃ a, x s = .ok a t ∧ f a = b := by
  simp only [Functor.map, EStateM.map]
  split
  · rename_i a u h
    rw [h]
    constructor
    · intro hb
      cases hb
      exact ⟨a, rfl, rfl⟩
    · rintro ⟨_, ha, rfl⟩
      cases ha
      rfl
  · rename_i h
    simp [h]

@[simp] theorem map_eq_error_iff {x : Effect ε σ α} {f : α → β} {s t : σ} {e : ε} :
    (f <$> x) s = .error e t ↔ x s = .error e t := by
  simp only [Functor.map, EStateM.map]
  split <;> simp [*]

@[simp] theorem pure_eq_ok_iff {a b : α} {s t : σ} :
    (pure a : Effect ε σ α) s = .ok b t ↔ a = b ∧ s = t := by
  simp [pure, EStateM.pure]

@[simp] theorem pure_ne_error {a : α} {s t : σ} {e : ε} :
    (pure a : Effect ε σ α) s ≠ .error e t := by
  simp [pure, EStateM.pure]

@[simp] theorem get_eq_ok_iff {s t u : σ} :
    (get : Effect ε σ σ) s = .ok u t ↔ s = u ∧ s = t := by
  change EStateM.Result.ok s s = .ok u t ↔ _
  simp

@[simp] theorem get_ne_error {s t : σ} {e : ε} : (get : Effect ε σ σ) s ≠ .error e t :=
  fun h => nomatch h

@[simp] theorem ask_eq_ok_iff {f : σ → Except ε α} {s t : σ} {a : α} :
    ask f s = .ok a t ↔ f s = .ok a ∧ s = t := by
  simp only [ask]
  split <;> simp [*]

@[simp] theorem ask_eq_error_iff {f : σ → Except ε α} {s t : σ} {e : ε} :
    ask f s = .error e t ↔ f s = .error e ∧ s = t := by
  simp only [ask]
  split <;> simp [*]

@[simp] theorem change_eq_ok_iff {f : σ → Except ε σ} {s t : σ} {u : Unit} :
    change f s = .ok u t ↔ f s = .ok t := by
  simp only [change]
  split <;> simp [*]

@[simp] theorem change_eq_error_iff {f : σ → Except ε σ} {s t : σ} {e : ε} :
    change f s = .error e t ↔ f s = .error e ∧ s = t := by
  simp only [change]
  split <;> simp [*]

@[simp] theorem update_eq_ok_iff {f : σ → σ} {s t : σ} {u : Unit} :
    (update f : Effect ε σ Unit) s = .ok u t ↔ f s = t := by
  simp [update]

@[simp] theorem update_ne_error {f : σ → σ} {s t : σ} {e : ε} :
    (update f : Effect ε σ Unit) s ≠ .error e t := by
  simp [update]

theorem unlessZero_eq_ok_iff {n : Nat} {x : Effect ε σ Unit} {s t : σ} {u : Unit} :
    unlessZero n x s = .ok u t ↔ n = 0 ∧ s = t ∨ n ≠ 0 ∧ x s = .ok u t := by
  by_cases h : n = 0 <;> simp [unlessZero, h]

theorem unlessZero_eq_error_iff {n : Nat} {x : Effect ε σ Unit} {s t : σ} {e : ε} :
    unlessZero n x s = .error e t ↔ n ≠ 0 ∧ x s = .error e t := by
  by_cases h : n = 0 <;> simp [unlessZero, h]

@[simp] theorem within_eq_ok_iff {part : σ → τ} {put : σ → τ → σ} {wrap : δ → ε}
    {x : Effect δ τ α} {s t : σ} {a : α} :
    within part put wrap x s = .ok a t ↔ ∃ u, x (part s) = .ok a u ∧ put s u = t := by
  simp only [within]
  split <;> simp [*, and_assoc]

@[simp] theorem within_eq_error_iff {part : σ → τ} {put : σ → τ → σ} {wrap : δ → ε}
    {x : Effect δ τ α} {s t : σ} {e : ε} :
    within part put wrap x s = .error e t ↔
      ∃ d u, x (part s) = .error d u ∧ wrap d = e ∧ put s u = t := by
  simp only [within]
  split <;> simp [*, and_assoc]

end Effect

end TrustPermit
