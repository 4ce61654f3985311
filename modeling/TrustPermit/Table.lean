/-! # Sorted tables

A table lists its entries by ascending key, each key once. It is determined by what it holds, so
two tables are equal exactly when they answer every look-up alike.
-/

namespace TrustPermit

/-- Entries by ascending key. -/
structure Table (κ : Type) (α : Type) [Ord κ] where
  toList : List (κ × α)
  sorted : toList.Pairwise fun a b => compare a.1 b.1 = .lt

namespace Table

variable {κ α β : Type} [Ord κ]

instance [DecidableEq κ] [DecidableEq α] : DecidableEq (Table κ α) := fun a b =>
  if h : a.toList = b.toList then
    isTrue (by cases a; cases b; cases h; rfl)
  else isFalse fun he => h (he ▸ rfl)

@[ext] theorem ext {a b : Table κ α} (h : a.toList = b.toList) : a = b := by
  cases a; cases b; cases h; rfl

def empty : Table κ α := ⟨[], .nil⟩

instance : EmptyCollection (Table κ α) := ⟨empty⟩

instance : Inhabited (Table κ α) := ⟨empty⟩

def find? (key : κ) : List (κ × α) → Option α
  | [] => none
  | (k, v) :: rest => if compare key k = .eq then some v else find? key rest

def get? (t : Table κ α) (key : κ) : Option α := find? key t.toList

/-- Puts a value in its place, over the one that the key had. -/
def place (key : κ) (value : α) : List (κ × α) → List (κ × α)
  | [] => [(key, value)]
  | (k, v) :: rest =>
    match compare key k with
    | .lt => (key, value) :: (k, v) :: rest
    | .eq => (key, value) :: rest
    | .gt => (k, v) :: place key value rest

theorem mem_place {key : κ} {value : α} {entries : List (κ × α)} {e : κ × α}
    (h : e ∈ place key value entries) : e = (key, value) ∨ e ∈ entries := by
  induction entries with
  | nil => simpa [place] using h
  | cons head rest ih =>
    obtain ⟨k, v⟩ := head
    simp only [place] at h
    split at h <;> grind

section Lawful

variable [Std.TransOrd κ] [Std.LawfulEqOrd κ]

theorem place_sorted {key : κ} {value : α} {entries : List (κ × α)}
    (h : entries.Pairwise fun a b => compare a.1 b.1 = .lt) :
    (place key value entries).Pairwise fun a b => compare a.1 b.1 = .lt := by
  induction entries with
  | nil => simp [place]
  | cons head rest ih =>
    obtain ⟨k, v⟩ := head
    obtain ⟨hk, hr⟩ := List.pairwise_cons.1 h
    simp only [place]
    split
    · rename_i hc
      refine List.pairwise_cons.2 ⟨fun e he => ?_, h⟩
      rcases List.mem_cons.1 he with rfl | he
      · exact hc
      · exact Std.TransCmp.lt_trans hc (hk e he)
    · rename_i hc
      have := Std.LawfulEqCmp.eq_of_compare hc
      subst this
      exact List.pairwise_cons.2 ⟨hk, hr⟩
    · rename_i hc
      refine List.pairwise_cons.2 ⟨fun e he => ?_, ih hr⟩
      rcases mem_place he with rfl | he
      · exact Std.OrientedCmp.lt_of_gt hc
      · exact hk e he

def insert (t : Table κ α) (key : κ) (value : α) : Table κ α :=
  ⟨place key value t.toList, place_sorted t.sorted⟩

/-- A table of entries in any order; the last entry of a key counts. -/
def ofList (entries : List (κ × α)) : Table κ α :=
  entries.foldl (fun t e => t.insert e.1 e.2) empty

end Lawful

def mapValues (t : Table κ α) (f : κ → α → β) : Table κ β :=
  ⟨t.toList.map fun e => (e.1, f e.1 e.2), List.pairwise_map.2 t.sorted⟩

def modify (t : Table κ α) (key : κ) (f : α → α) : Table κ α :=
  t.mapValues fun k v => if compare key k = .eq then f v else v

def keys (t : Table κ α) : List κ := t.toList.map Prod.fst

def values (t : Table κ α) : List α := t.toList.map Prod.snd

def size (t : Table κ α) : Nat := t.toList.length

def isEmpty (t : Table κ α) : Bool := t.toList.isEmpty

section Lawful

variable [Std.TransOrd κ] [Std.LawfulEqOrd κ]

theorem find?_place (key : κ) (value : α) (entries : List (κ × α)) (other : κ) :
    find? other (place key value entries) =
      if compare other key = .eq then some value else find? other entries := by
  induction entries with
  | nil => simp [place, find?]
  | cons head rest ih =>
    obtain ⟨k, v⟩ := head
    simp only [place]
    split
    · simp [find?]
    · rename_i hc
      have := Std.LawfulEqCmp.eq_of_compare hc
      subst this
      by_cases ho : compare other key = .eq <;> simp [find?, ho]
    · rename_i hc
      by_cases ho : compare other k = .eq
      · have hk := Std.LawfulEqCmp.eq_of_compare ho
        subst hk
        have hne : ¬ compare other key = .eq := by
          rw [Std.OrientedOrd.eq_swap, hc]; simp
        simp [find?, hne]
      · simp [find?, ho, ih]

@[simp] theorem get?_insert (t : Table κ α) (key : κ) (value : α) (other : κ) :
    (t.insert key value).get? other =
      if compare other key = .eq then some value else t.get? other :=
  find?_place key value t.toList other

end Lawful

section LawfulEq

variable [Std.LawfulEqOrd κ]

theorem find?_map (f : κ → α → β) (key : κ) (entries : List (κ × α)) :
    find? key (entries.map fun e => (e.1, f e.1 e.2)) = (find? key entries).map (f key) := by
  induction entries with
  | nil => rfl
  | cons e rest ih =>
    by_cases h : compare key e.1 = .eq
    · have := Std.LawfulEqCmp.eq_of_compare h
      subst this
      simp [find?]
    · simp [find?, h, ih]

@[simp] theorem get?_mapValues (t : Table κ α) (f : κ → α → β) (key : κ) :
    (t.mapValues f).get? key = (t.get? key).map (f key) :=
  find?_map f key t.toList

@[simp] theorem get?_modify (t : Table κ α) (key : κ) (f : α → α) (other : κ) :
    (t.modify key f).get? other =
      if compare key other = .eq then (t.get? other).map f else t.get? other := by
  rw [modify, get?_mapValues]
  by_cases h : compare key other = .eq
  · simp [h]
  · simp [h]

end LawfulEq

@[simp] theorem get?_empty (key : κ) : (empty : Table κ α).get? key = none := rfl

end Table

end TrustPermit
