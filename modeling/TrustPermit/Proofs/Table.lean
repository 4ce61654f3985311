import Mathlib.Algebra.GroupWithZero.Nat
import Mathlib.Algebra.Order.BigOperators.Group.Finset
import Mathlib.Algebra.Order.BigOperators.Group.List
import Mathlib.Algebra.Order.Group.Nat
import Mathlib.Algebra.Ring.Int.Defs
import TrustPermit.Table

/-! # Totals of tables

A total adds up a quantity over the values of a table. Writing an entry changes a total by the
new value less the old one.
-/

namespace TrustPermit

namespace Table

variable {κ α β M : Type} [Ord κ]

def total [AddCommMonoid M] (t : Table κ α) (f : α → M) : M := (t.values.map f).sum

section Lookup

variable [Std.LawfulEqOrd κ]

theorem find?_eq_some_iff {key : κ} {entries : List (κ × α)} {a : α}
    (h : entries.Pairwise fun a b => compare a.1 b.1 = .lt) :
    find? key entries = some a ↔ (key, a) ∈ entries := by
  induction entries with
  | nil => simp [find?]
  | cons head rest ih =>
    obtain ⟨k, v⟩ := head
    obtain ⟨hk, hr⟩ := List.pairwise_cons.mp h
    by_cases he : compare key k = .eq
    · have := Std.LawfulEqCmp.eq_of_compare he
      subst this
      have hn : (key, a) ∉ rest := fun hm => by simpa using hk _ hm
      simp [find?, hn, eq_comm]
    · have hne : key ≠ k := by rintro rfl; simp at he
      simp [find?, he, hne, ih hr]

theorem get?_eq_some_iff {t : Table κ α} {key : κ} {a : α} :
    t.get? key = some a ↔ (key, a) ∈ t.toList := find?_eq_some_iff t.sorted

theorem mem_values_iff {t : Table κ α} {a : α} : a ∈ t.values ↔ ∃ key, t.get? key = some a := by
  simp [values, get?_eq_some_iff]

theorem nodup_keys (t : Table κ α) : t.keys.Nodup := by
  refine List.Pairwise.map Prod.fst (fun a b hlt he => ?_) t.sorted
  simp [he] at hlt

/-- The values carry the keys under which they are stored. -/
def Keyed (t : Table κ α) (key : α → κ) : Prop := ∀ k a, t.get? k = some a → key a = k

section Keyed

variable {t : Table κ α} {key : α → κ} (hk : ∀ {k a}, t.get? k = some a → key a = k)
include hk

theorem eq_of_key_eq {a b : α} (ha : a ∈ t.values) (hb : b ∈ t.values) (h : key a = key b) :
    a = b := by
  obtain ⟨i, hi⟩ := mem_values_iff.mp ha
  obtain ⟨j, hj⟩ := mem_values_iff.mp hb
  rw [← hk hi, h, hk hj, hj] at hi
  exact (Option.some.inj hi).symm

theorem nodup_values : t.values.Nodup := by
  have hkey {e : κ × α} (he : e ∈ t.toList) : key e.2 = e.1 := hk (get?_eq_some_iff.mpr he)
  refine List.pairwise_map.mpr (t.sorted.imp_of_mem fun {a b} ha hb hlt he => ?_)
  rw [← hkey ha, he, hkey hb] at hlt
  simp at hlt

end Keyed

/-- A table is determined by its answers. -/
theorem ext_get? [Std.TransOrd κ] {t u : Table κ α} (h : ∀ key, t.get? key = u.get? key) :
    t = u := by
  have hn : ∀ t : Table κ α, t.toList.Nodup := fun t => t.nodup_keys.of_map
  have hm : ∀ e, e ∈ t.toList ↔ e ∈ u.toList := fun ⟨k, v⟩ => by
    rw [← get?_eq_some_iff, ← get?_eq_some_iff, h]
  have hp : t.toList.Perm u.toList := (List.perm_ext_iff_of_nodup (hn t) (hn u)).mpr hm
  refine Table.ext (hp.eq_of_pairwise (fun a b _ _ hab hba => ?_) t.sorted u.sorted)
  exact absurd (Std.TransCmp.lt_trans hab hba) (by simp)

end Lookup

section Sum

variable [AddCommMonoid M]

@[simp] theorem total_empty (f : α → M) : (∅ : Table κ α).total f = 0 := rfl

theorem total_congr {t : Table κ α} {f g : α → M} (h : ∀ a ∈ t.values, f a = g a) :
    t.total f = t.total g := by
  simp only [total, List.map_congr_left h]

@[simp] theorem total_mapValues (t : Table κ α) (g : κ → α → β) (f : β → M) :
    (t.mapValues g).total f = (t.toList.map fun e => f (g e.1 e.2)).sum := by
  simp [total, values, mapValues, Function.comp_def]

theorem sum_filter_values (t : Table κ α) (p : α → Prop) [DecidablePred p] (f : α → M) :
    ((t.values.filter p).map f).sum = t.total fun a => if p a then f a else 0 := by
  simp only [total]
  induction t.values with
  | nil => rfl
  | cons a rest ih => by_cases h : p a <;> simp [h, ih]

theorem sum_place [Std.TransOrd κ] [Std.LawfulEqOrd κ] (key : κ) (value : α) (f : α → M)
    {entries : List (κ × α)} (h : entries.Pairwise fun a b => compare a.1 b.1 = .lt) :
    ((place key value entries).map fun e => f e.2).sum + ((find? key entries).map f).getD 0 =
      (entries.map fun e => f e.2).sum + f value := by
  induction entries with
  | nil => simp [place, find?]
  | cons head rest ih =>
    obtain ⟨k, v⟩ := head
    obtain ⟨hk, hr⟩ := List.pairwise_cons.mp h
    simp only [place]
    split
    · rename_i hc
      have hn : find? key rest = none := by
        refine Option.eq_none_iff_forall_ne_some.mpr fun a ha => ?_
        have hm := hk _ ((find?_eq_some_iff hr).mp ha)
        exact absurd (Std.TransCmp.lt_trans hc hm) (by simp)
      simp [find?, hc, hn, add_comm]
    · rename_i hc
      simp [find?, hc, add_comm, add_left_comm]
    · rename_i hc
      simp only [List.map_cons, List.sum_cons, find?, hc, reduceCtorEq, if_false]
      rw [add_assoc, ih hr, add_assoc]

theorem total_insert [Std.TransOrd κ] [Std.LawfulEqOrd κ] (t : Table κ α) (key : κ) (value : α)
    (f : α → M) :
    (t.insert key value).total f + ((t.get? key).map f).getD 0 = t.total f + f value := by
  have h := sum_place key value f t.sorted
  simp only [total, values, List.map_map, Function.comp_def]
  exact h

end Sum

theorem total_eq_sum [AddCommMonoid M] [Std.LawfulEqOrd κ] [DecidableEq κ] (t : Table κ α)
    (f : α → M) {ks : Finset κ} (hk : t.keys.toFinset ⊆ ks) :
    t.total f = ∑ k ∈ ks, ((t.get? k).map f).getD 0 := by
  rw [← Finset.sum_subset hk, List.sum_toFinset _ t.nodup_keys]
  · simp only [total, values, Table.keys, List.map_map]
    refine congrArg List.sum (List.map_congr_left fun e he => ?_)
    simp [get?_eq_some_iff.mpr he]
  · intro k _ hk
    have hnone : t.get? k = none := by
      refine Option.eq_none_iff_forall_ne_some.mpr fun a ha => hk ?_
      exact List.mem_toFinset.mpr (List.mem_map.mpr ⟨_, get?_eq_some_iff.mp ha, rfl⟩)
    simp [hnone]

theorem total_le_total [Std.LawfulEqOrd κ] [DecidableEq κ] {t u : Table κ α} {f g : α → Nat}
    (h : ∀ k, ((t.get? k).map f).getD 0 ≤ ((u.get? k).map g).getD 0) : t.total f ≤ u.total g := by
  have hl : t.keys.toFinset ⊆ t.keys.toFinset ∪ u.keys.toFinset := Finset.subset_union_left
  have hr : u.keys.toFinset ⊆ t.keys.toFinset ∪ u.keys.toFinset := Finset.subset_union_right
  rw [t.total_eq_sum f hl, u.total_eq_sum g hr]
  exact Finset.sum_le_sum fun k _ => h k

theorem le_total [Std.LawfulEqOrd κ] {t : Table κ α} {key : κ} {a : α}
    (h : t.get? key = some a) (f : α → Nat) : f a ≤ t.total f :=
  List.le_sum_of_mem (List.mem_map_of_mem (mem_values_iff.mpr ⟨key, h⟩))

end Table

end TrustPermit
