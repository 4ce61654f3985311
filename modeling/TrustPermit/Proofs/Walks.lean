import Mathlib.Data.List.Perm.Subperm
import TrustPermit.Proofs.Table
import TrustPermit.ValidatorChain

/-! # Walks and the chains they follow

A row names at most one validator, so the ids above a permission form a sequence, and each fault of
a walk says something about that sequence. No condition is put on the rows: they may point to
themselves, in a circle or at nothing.
-/

namespace TrustPermit

namespace Records

variable {r : Records} {start id : PermissionId} {maxDepth i j k : Nat}

def hop (r : Records) (start : PermissionId) : Nat → Option PermissionId
  | 0 => some start
  | k + 1 => ((r.hop start k).bind r.get?).bind (·.validator)

def rowAt (r : Records) (start : PermissionId) (k : Nat) : Option Permission :=
  (r.hop start k).bind r.get?

def RootWithin (r : Records) (start : PermissionId) (maxDepth : Nat) : Prop :=
  ∃ k ≤ maxDepth, ∃ root, r.rowAt start k = some root ∧ root.validator = none

def MissingWithin (r : Records) (start : PermissionId) (maxDepth : Nat) (id : PermissionId) :
    Prop :=
  ∃ k ≤ maxDepth, r.hop start k = some id ∧ r.get? id = none

def Cyclic (r : Records) (start : PermissionId) : Prop :=
  ∃ i j, i < j ∧ (r.hop start j).isSome ∧ r.hop start i = r.hop start j

/-- The chain comes to an id a second time or goes on after the last hop allowed. -/
def Endless (r : Records) (start : PermissionId) (maxDepth : Nat) : Prop :=
  r.Cyclic start ∨ (r.hop start (maxDepth + 1)).isSome

theorem hop_succ (k : Nat) : r.hop start (k + 1) = (r.rowAt start k).bind (·.validator) := rfl

theorem hop_none_of_le (h : r.hop start i = none) (hij : i ≤ j) : r.hop start j = none := by
  induction hij with
  | refl => exact h
  | step _ ih => simp [hop, ih]

theorem isSome_hop_of_le (h : (r.hop start j).isSome) (hij : i ≤ j) : (r.hop start i).isSome := by
  by_contra hn
  have := hop_none_of_le (Option.not_isSome_iff_eq_none.mp hn) hij
  simp [this] at h

/-- What comes after an id does not depend on when the chain comes to it. -/
theorem hop_add_congr (h : r.hop start i = r.hop start j) (n : Nat) :
    r.hop start (i + n) = r.hop start (j + n) := by
  induction n with
  | zero => exact h
  | succ n ih =>
    change r.hop start (i + n + 1) = r.hop start (j + n + 1)
    simp only [hop, ih]

theorem not_cyclic_of_end (h : r.hop start k = none) : ¬ r.Cyclic start := by
  rintro ⟨i, j, hij, hj, he⟩
  -- The ids repeat with the period `j - i`, so the chain is never over.
  have hlive : ∀ n, (r.hop start (i + n)).isSome := by
    intro n
    induction n using Nat.strongRecOn with
    | ind n ih =>
      by_cases hn : n < j - i
      · exact isSome_hop_of_le hj (by omega)
      · have hback := hop_add_congr he (n - (j - i))
        rw [show j + (n - (j - i)) = i + n by omega] at hback
        exact hback ▸ ih (n - (j - i)) (by omega)
  simpa [hop_none_of_le h (Nat.le_add_left k i)] using hlive k

/-- The chain ends after so many hops, at a root or at an id without a row. -/
def EndsAfter (r : Records) (start : PermissionId) (k : Nat) : Prop :=
  (r.hop start k).isSome ∧ r.hop start (k + 1) = none

theorem EndsAfter.le (hi : (r.hop start i).isSome) (h : r.EndsAfter start k) : i ≤ k := by
  by_contra hlt
  simp [hop_none_of_le h.2 (Nat.lt_of_not_le hlt)] at hi

theorem EndsAfter.unique (hi : r.EndsAfter start i) (hj : r.EndsAfter start j) : i = j :=
  Nat.le_antisymm (hj.le hi.1) (hi.le hj.1)

theorem EndsAfter.not_endless (h : r.EndsAfter start k) (hk : k ≤ maxDepth) :
    ¬ r.Endless start maxDepth := by
  rintro (hc | hl)
  · exact not_cyclic_of_end h.2 hc
  · exact Nat.not_succ_le_self _ ((h.le hl).trans hk)

theorem endsAfter_of_root {root : Permission} (h : r.rowAt start k = some root)
    (hv : root.validator = none) : r.EndsAfter start k := by
  refine ⟨?_, by simp [hop_succ, h, hv]⟩
  obtain ⟨id, hid, -⟩ := Option.bind_eq_some_iff.mp h
  simp [hid]

theorem endsAfter_of_missing (h : r.hop start k = some id) (hg : r.get? id = none) :
    r.EndsAfter start k := by
  simp [EndsAfter, hop, h, hg]

theorem RootWithin.not_missing (h : r.RootWithin start maxDepth) :
    ¬ r.MissingWithin start maxDepth id := by
  obtain ⟨k, -, root, hp, hv⟩ := h
  rintro ⟨k', -, hid, hg⟩
  cases (endsAfter_of_root hp hv).unique (endsAfter_of_missing hid hg)
  simp [rowAt, hid, hg] at hp

theorem RootWithin.not_endless (h : r.RootWithin start maxDepth) :
    ¬ r.Endless start maxDepth := by
  obtain ⟨k, hk, root, hp, hv⟩ := h
  exact (endsAfter_of_root hp hv).not_endless hk

theorem MissingWithin.unique {other : PermissionId} (h : r.MissingWithin start maxDepth id)
    (h' : r.MissingWithin start maxDepth other) : id = other := by
  obtain ⟨k, -, hid, hg⟩ := h
  obtain ⟨k', -, hid', hg'⟩ := h'
  cases (endsAfter_of_missing hid hg).unique (endsAfter_of_missing hid' hg')
  exact Option.some.inj (hid.symm.trans hid')

theorem MissingWithin.not_endless (h : r.MissingWithin start maxDepth id) :
    ¬ r.Endless start maxDepth := by
  obtain ⟨k, hk, hid, hg⟩ := h
  exact (endsAfter_of_missing hid hg).not_endless hk

/-- How a walk ends that made `n` hops of the `most` it may make. -/
inductive Ends (r : Records) (start : PermissionId) (stop : Fault) (most n : Nat) :
    Option Fault → Prop where
  | root (h : r.hop start n = none) : Ends r start stop most n none
  | missing {id : PermissionId} (h : r.hop start n = some id) (hn : n < most)
      (hg : r.get? id = none) : Ends r start stop most n (some (.permissionNotFound id))
  | stopped (h : (r.hop start n).isSome)
      (hs : n = most ∨ ∃ j < n, r.hop start j = r.hop start n) :
      Ends r start stop most n (some stop)

/-- A walk that goes on after `n` hops shows the chain from there, up to its own end. -/
structure Follows (r : Records) (start : PermissionId) (stop : Fault) (most n : Nat) (w : Walk) :
    Prop where
  rows : ∀ k < w.visited.length, w.visited[k]? = r.rowAt start (n + k)
  fresh : ∀ k < w.visited.length, ∀ j < n + k, r.hop start j ≠ r.hop start (n + k)
  within : n + w.visited.length ≤ most
  ends : r.Ends start stop most (n + w.visited.length) w.fault

section

variable {stop : Fault} {most n : Nat}

theorem Follows.nil {f : Option Fault} (hn : n ≤ most) (h : r.Ends start stop most n f) :
    r.Follows start stop most n ⟨[], f⟩ :=
  ⟨by simp, by simp, hn, h⟩

theorem Follows.cons {p : Permission} {w : Walk} (hp : r.rowAt start n = some p)
    (hfresh : ∀ j < n, r.hop start j ≠ r.hop start n)
    (h : r.Follows start stop most (n + 1) w) :
    r.Follows start stop most n ⟨p :: w.visited, w.fault⟩ where
  rows := by
    intro k hk
    cases k with
    | zero => simp [hp]
    | succ k =>
      rw [← Nat.add_assoc, Nat.add_right_comm]
      exact h.rows k (Nat.lt_of_succ_lt_succ hk)
  fresh := by
    intro k hk
    cases k with
    | zero => exact hfresh
    | succ k =>
      rw [← Nat.add_assoc, Nat.add_right_comm]
      exact h.fresh k (Nat.lt_of_succ_lt_succ hk)
  within := by simpa [Nat.add_assoc, Nat.add_comm 1] using h.within
  ends := by simpa [Nat.add_assoc, Nat.add_comm 1] using h.ends

/-- The ids passed so far are those of the hops made so far. -/
theorem walkFrom_follows {hops : Nat} {seen : List PermissionId} (hmost : n + hops = most)
    (hseen : ∀ id, id ∈ seen ↔ ∃ j < n, r.hop start j = some id) :
    r.Follows start stop most n (r.walkFrom stop hops seen (r.hop start n)) := by
  have hn : n ≤ most := hmost ▸ Nat.le_add_right n hops
  induction hops generalizing n seen with
  | zero =>
    cases h : r.hop start n with
    | none => exact .nil hn (.root h)
    | some id => exact .nil hn (.stopped (h ▸ rfl) (.inl hmost))
  | succ hops ih =>
    cases h : r.hop start n with
    | none => exact .nil hn (.root h)
    | some id =>
      by_cases hm : id ∈ seen
      · simp only [walkFrom, List.contains_iff_mem, hm, if_true]
        exact .nil hn (.stopped (h ▸ rfl) (.inr (h ▸ (hseen id).mp hm)))
      · simp only [walkFrom, List.contains_iff_mem, hm, if_false]
        cases hg : r.get? id with
        | none => exact .nil hn (.missing h (by omega) hg)
        | some p =>
          have hp : r.rowAt start n = some p := by simp [rowAt, h, hg]
          have hv : r.hop start (n + 1) = p.validator := by simp [hop_succ, hp]
          have hseen' : ∀ other, other ∈ id :: seen ↔ ∃ j < n + 1, r.hop start j = some other := by
            intro other
            simp only [List.mem_cons, hseen, Nat.lt_succ_iff_lt_or_eq, or_and_right, exists_or,
              exists_eq_left, h, Option.some.injEq]
            rw [or_comm, eq_comm]
          refine .cons hp (fun j hj he => hm ((hseen id).mpr ⟨j, hj, he.trans h⟩)) ?_
          rw [← hv]
          exact ih (by omega) hseen' (by omega)

end

theorem walk_follows (r : Records) (start : PermissionId) (maxDepth : Nat) :
    r.Follows start (.endlessChain start maxDepth) (maxDepth + 1) 0 (r.walk start maxDepth) :=
  walkFrom_follows (Nat.zero_add _) (by simp)

section

variable {stop : Fault} {w : Walk}

theorem Follows.root (h : r.Follows start stop (maxDepth + 1) 0 w) (hf : w.fault = none) :
    r.hop start w.visited.length = none ∧ r.RootWithin start maxDepth := by
  have hend := h.ends
  rw [hf, Nat.zero_add] at hend
  cases hend with
  | root hnone =>
    refine ⟨hnone, ?_⟩
    -- The start is an id, so a row was seen, and the last one seen is the root.
    cases hlen : w.visited.length with
    | zero => simp [hlen, hop] at hnone
    | succ m =>
      have hrow := h.rows m (by omega)
      rw [Nat.zero_add, List.getElem?_eq_getElem (by omega)] at hrow
      rw [hlen, hop_succ, ← hrow] at hnone
      exact ⟨m, by have := h.within; omega, _, hrow.symm, hnone⟩

theorem Follows.missing (h : r.Follows start stop (maxDepth + 1) 0 w)
    (hstop : stop ≠ .permissionNotFound id) (hf : w.fault = some (.permissionNotFound id)) :
    r.MissingWithin start maxDepth id := by
  have hend := h.ends
  rw [hf] at hend
  generalize 0 + w.visited.length = n at hend
  cases hend with
  | missing hid hn hg => exact ⟨n, Nat.le_of_lt_succ hn, hid, hg⟩
  | stopped => exact absurd rfl hstop

theorem Follows.endless (h : r.Follows start stop (maxDepth + 1) 0 w)
    (hstop : ∀ id, stop ≠ .permissionNotFound id) (hf : w.fault = some stop) :
    r.Endless start maxDepth := by
  have hend := h.ends
  rw [hf] at hend
  generalize 0 + w.visited.length = n at hend
  cases hend with
  | missing => exact absurd rfl (hstop _)
  | stopped hlive hs =>
    rcases hs with rfl | ⟨j, hj, he⟩
    · exact .inr hlive
    · exact .inl ⟨j, n, hj, hlive, he⟩

theorem Follows.fault_cases (h : r.Follows start stop (maxDepth + 1) 0 w)
    (hstop : ∀ id, stop ≠ .permissionNotFound id) :
    (w.fault = none ∧ r.RootWithin start maxDepth) ∨
      (∃ id, w.fault = some (.permissionNotFound id) ∧ r.MissingWithin start maxDepth id) ∨
      (w.fault = some stop ∧ r.Endless start maxDepth) := by
  cases hf : w.fault with
  | none => exact .inl ⟨rfl, (h.root hf).2⟩
  | some f =>
    have hend := h.ends
    rw [hf] at hend
    cases hend with
    | missing => exact .inr (.inl ⟨_, rfl, h.missing (hstop _) hf⟩)
    | stopped => exact .inr (.inr ⟨rfl, h.endless hstop hf⟩)

theorem Follows.length_le_size {most : Nat} (h : r.Follows start stop most 0 w) :
    w.visited.length ≤ r.permissions.size := by
  let ids := (List.range w.visited.length).map (r.hop start)
  have hnodup : ids.Nodup := by
    refine List.nodup_range.map_on fun i hi j hj he => ?_
    rw [List.mem_range] at hi hj
    have hne {a b : Nat} (hb : b < w.visited.length) (hab : a < b) :
        r.hop start a ≠ r.hop start b := by
      simpa using h.fresh b hb a (by omega)
    rcases Nat.lt_trichotomy i j with hij | hij | hij
    · exact absurd he (hne hj hij)
    · exact hij
    · exact absurd he.symm (hne hi hij)
  have hsub : ids ⊆ r.permissions.keys.map some := by
    intro o ho
    obtain ⟨k, hk, rfl⟩ := List.mem_map.mp ho
    rw [List.mem_range] at hk
    have hrow := h.rows k hk
    rw [List.getElem?_eq_getElem hk, Nat.zero_add, eq_comm, rowAt, Option.bind_eq_some_iff] at hrow
    obtain ⟨id, hid, hg⟩ := hrow
    rw [hid]
    exact List.mem_map_of_mem (List.mem_map_of_mem (Table.get?_eq_some_iff.mp hg))
  simpa [ids, Table.keys, Table.size] using (hnodup.subperm hsub).length_le

end

/-- A walk shows the rows of the chain, each once, and its fault says how the chain goes on: to a
root, to an id without a row, or past every bound. -/
theorem walk_exact (r : Records) (start : PermissionId) (maxDepth : Nat) :
    let w := r.walk start maxDepth
    let n := w.visited.length
    (∀ k < n, w.visited[k]? = r.rowAt start k) ∧
      (∀ j k, j < k → k < n → r.hop start j ≠ r.hop start k) ∧
      n ≤ maxDepth + 1 ∧ n ≤ r.permissions.size ∧
      r.Ends start (.endlessChain start maxDepth) (maxDepth + 1) n w.fault ∧
      (w.fault = none ↔ r.RootWithin start maxDepth) ∧
      (∀ id, w.fault = some (.permissionNotFound id) ↔ r.MissingWithin start maxDepth id) ∧
      (w.fault = some (.endlessChain start maxDepth) ↔ r.Endless start maxDepth) ∧
      (r.Endless start maxDepth ↔
        ¬ r.RootWithin start maxDepth ∧ ∀ id, ¬ r.MissingWithin start maxDepth id) := by
  intro w n
  have h : r.Follows start (.endlessChain start maxDepth) (maxDepth + 1) 0 w :=
    r.walk_follows start maxDepth
  refine ⟨by simpa using h.rows, ?_, by simpa using h.within, h.length_le_size,
    by simpa using h.ends, ?_⟩
  · intro j k hjk hk
    simpa using h.fresh k hk j (by omega)
  -- No two of the three conditions hold together.
  rcases h.fault_cases (by simp) with ⟨hf, hr⟩ | ⟨id, hf, hm⟩ | ⟨hf, he⟩
  · have hnm : ∀ other, ¬ r.MissingWithin start maxDepth other := fun _ => hr.not_missing
    simp [hf, hr, hnm, hr.not_endless]
  · have hnr : ¬ r.RootWithin start maxDepth := fun hr => hr.not_missing hm
    refine ⟨by simp [hf, hnr], fun other => ?_, by simp [hf, hm.not_endless], ?_⟩
    · rw [hf]
      constructor
      · rintro ⟨⟩
        exact hm
      · intro ho
        rw [hm.unique ho]
    · exact iff_of_false hm.not_endless fun hn => hn.2 id hm
  · have hnr : ¬ r.RootWithin start maxDepth := fun hr => hr.not_endless he
    have hnm : ∀ other, ¬ r.MissingWithin start maxDepth other := fun _ hm => hm.not_endless he
    simp [hf, he, hnr, hnm]

end Records

end TrustPermit
