import Mathlib.Data.List.Count
import TrustPermit.Engine.Queries
import TrustPermit.Proofs.Sessions
import TrustPermit.Proofs.Validity

/-! # Lists in pages

A client that reads a list in pages names the time of the last row that it has seen. The next page
starts with the rows modified after that time, so the rows of one instant are read in full or up to
the end of a page. Where a page ends among them the others are never read.
-/

namespace TrustPermit

variable {α κ : Type}

section Order

variable [Ord κ] {a b c : Instant × κ}

theorem modifiedLE_iff :
    modifiedLE a b = true ↔ a.1 < b.1 ∨ a.1 = b.1 ∧ (compare a.2 b.2).isLE = true := by
  simp [modifiedLE]

variable [Std.TransOrd κ]

theorem modifiedLE_trans (hab : modifiedLE a b = true) (hbc : modifiedLE b c = true) :
    modifiedLE a c = true := by
  rw [modifiedLE_iff] at hab hbc ⊢
  obtain hab | ⟨hab, hkey⟩ := hab
  · obtain hbc | ⟨hbc, -⟩ := hbc
    · exact .inl (hab.trans hbc)
    · exact .inl (hbc ▸ hab)
  · obtain hbc | ⟨hbc, hkey'⟩ := hbc
    · exact .inl (hab ▸ hbc)
    · exact .inr ⟨hab.trans hbc, Std.TransCmp.isLE_trans hkey hkey'⟩

theorem modifiedLE_total (a b : Instant × κ) : (modifiedLE a b || modifiedLE b a) = true := by
  rw [Bool.or_eq_true, modifiedLE_iff, modifiedLE_iff]
  obtain h | h | h := lt_trichotomy a.1 b.1
  · exact .inl (.inl h)
  · cases hkey : compare a.2 b.2 with
    | lt | eq => exact .inl (.inr ⟨h, rfl⟩)
    | gt => exact .inr (.inr ⟨h.symm, by rw [Std.OrientedCmp.lt_of_gt hkey]; rfl⟩)
  · exact .inr (.inl h)

theorem modifiedLE_antisymm [Std.LawfulEqOrd κ] (hab : modifiedLE a b = true)
    (hba : modifiedLE b a = true) : a = b := by
  rw [modifiedLE_iff] at hab hba
  obtain hab | ⟨hab, hkey⟩ := hab
  · obtain hba | ⟨hba, -⟩ := hba
    · exact absurd hab hba.asymm
    · exact absurd hab hba.not_gt
  · obtain hba | ⟨-, hkey'⟩ := hba
    · exact absurd hba hab.not_gt
    · exact Prod.ext hab
        (Std.LawfulEqCmp.eq_of_compare (Std.OrientedCmp.isLE_antisymm hkey hkey'))

end Order

def Ascending (time : α → Instant) (rows : List α) : Prop :=
  rows.Pairwise fun a b => time a ≤ time b

def byModified [Ord κ] (key : α → Instant × κ) (rows : List α) : List α :=
  rows.mergeSort fun a b => modifiedLE (key a) (key b)

section ByModified

variable [Ord κ] {key : α → Instant × κ} {rows : List α}

theorem byModified_perm (key : α → Instant × κ) (rows : List α) :
    (byModified key rows).Perm rows := List.mergeSort_perm ..

theorem byModified_eq_self (h : rows.Pairwise fun a b => modifiedLE (key a) (key b) = true) :
    byModified key rows = rows := List.mergeSort_of_pairwise h

variable [Std.TransOrd κ]

theorem pairwise_byModified (key : α → Instant × κ) (rows : List α) :
    (byModified key rows).Pairwise fun a b => modifiedLE (key a) (key b) = true := by
  apply List.pairwise_mergeSort
  · intro a b c hab hbc
    exact modifiedLE_trans hab hbc
  · intro a b
    exact modifiedLE_total (key a) (key b)

theorem ascending_byModified (key : α → Instant × κ) (rows : List α) :
    Ascending (fun a => (key a).1) (byModified key rows) := by
  refine (pairwise_byModified key rows).imp fun {a b} h => ?_
  rw [modifiedLE_iff] at h
  exact h.elim le_of_lt fun h => h.1.le

theorem byModified_filter [Std.LawfulEqOrd κ] (hkey : ∀ a ∈ rows, ∀ b ∈ rows, key a = key b → a = b)
    (p : α → Bool) : byModified key (rows.filter p) = (byModified key rows).filter p := by
  refine List.Perm.eq_of_pairwise (fun a b ha hb hab hba => ?_) (pairwise_byModified key _)
    ((pairwise_byModified key rows).filter p) ?_
  · have ha' := List.mem_of_mem_filter ((byModified_perm key _).mem_iff.mp ha)
    have hb' := (byModified_perm key rows).mem_iff.mp (List.mem_of_mem_filter hb)
    exact hkey a ha' b hb' (modifiedLE_antisymm hab hba)
  · exact (byModified_perm key _).trans ((byModified_perm key rows).filter p).symm

end ByModified

/-- A client reads a list in pages of one size: each starts after the time of the last row on the
page before, and a page with room left is the last. -/
inductive Reads (list : Page → Except Fault (List α)) (time : α → Instant) (size : Nat) :
    Option Instant → List (List α) → Prop where
  | last {after page} : list ⟨after, some size⟩ = .ok page → page.length < size →
      Reads list time size after [page]
  | next {after page row pages} : list ⟨after, some size⟩ = .ok page → size ≤ page.length →
      page.getLast? = some row → Reads list time size (some (time row)) pages →
      Reads list time size after (page :: pages)

/-- The row is of the instant in which a full page ends, but not on that page. -/
def CutOff (time : α → Instant) (size : Nat) (pages : List (List α)) (a : α) : Prop :=
  ∃ page ∈ pages, size ≤ page.length ∧ a ∉ page ∧
    ∃ row, page.getLast? = some row ∧ time a = time row

/-- Pages of this size, if filled one after the other, would not all end with an instant. -/
def Straddles (time : α → Instant) (size : Nat) (rows : List α) : Prop :=
  ∃ t k, rows.countP (time · < t) < k * size ∧ k * size < rows.countP (time · ≤ t)

def later (time : α → Instant) (after : Option Instant) (rows : List α) : List α :=
  rows.filter fun a => after.all (· < time a)

def Shows (list : Page → Except Fault (List α)) (time : α → Instant) (size : Nat) (rows : List α) :
    Prop :=
  ∀ after, list ⟨after, some size⟩ = .ok ((later time after rows).take size)

section Pages

variable {time : α → Instant} {size : Nat} {rows rest : List α} {a row : α}
  {after : Option Instant} {list : Page → Except Fault (List α)} {pages : List (List α)}

@[simp] theorem later_none : later time none rows = rows := by simp [later]

theorem mem_later : a ∈ later time after rows ↔ a ∈ rows ∧ ∀ t ∈ after, t < time a := by
  cases after <;> simp [later]

theorem mem_later_some {t : Instant} : a ∈ later time (some t) rows ↔ a ∈ rows ∧ t < time a := by
  simp [later]

theorem Ascending.later (hs : Ascending time rows) (after : Option Instant) :
    Ascending time (later time after rows) := hs.filter _

theorem take_of_short (h : (rest.take size).length < size) : rest.take size = rest := by
  rw [List.length_take] at h
  exact List.take_of_length_le (by omega)

theorem take_append_eq_iff {back : List α} :
    rest.take size ++ back = rest ↔ back = rest.drop size := by
  constructor
  · intro h
    exact List.append_cancel_left (h.trans (List.take_append_drop size rest).symm)
  · rintro rfl
    exact List.take_append_drop size rest

theorem countP_eq_take_add_drop (rest : List α) (size : Nat) (p : α → Bool) :
    rest.countP p = (rest.take size).countP p + (rest.drop size).countP p := by
  rw [← List.countP_append, List.take_append_drop]

theorem not_straddles_of_length_le (h : rest.length ≤ size) : ¬ Straddles time size rest := by
  rintro ⟨t, k, hlt, hle⟩
  have hcount : rest.countP (time · ≤ t) ≤ rest.length := List.countP_le_length
  obtain _ | k := k
  · omega
  · rw [Nat.succ_mul] at hle
    omega

structure Fills (size : Nat) (rest : List α) (row : α) : Prop where
  full : size ≤ (rest.take size).length
  last : (rest.take size).getLast? = some row

namespace Fills

theorem length_take (h : Fills size rest row) : (rest.take size).length = size :=
  le_antisymm (List.length_take_le ..) h.full

theorem mem_take (h : Fills size rest row) : row ∈ rest.take size :=
  List.mem_of_getLast? h.last

theorem time_le (hs : Ascending time rest) (h : Fills size rest row) (ha : a ∈ rest.take size) :
    time a ≤ time row := by
  obtain ⟨init, hinit⟩ := List.getLast?_eq_some_iff.mp h.last
  have hfront : Ascending time (init ++ [row]) := hinit ▸ hs.sublist (List.take_sublist ..)
  rw [hinit] at ha
  obtain ha | ha := List.mem_append.mp ha
  · exact (List.pairwise_append.mp hfront).2.2 a ha row List.mem_cons_self
  · rw [List.mem_singleton.mp ha]

theorem le_time (hs : Ascending time rest) (h : Fills size rest row) (ha : a ∈ rest.drop size) :
    time row ≤ time a := by
  rw [Ascending, ← List.take_append_drop size rest, List.pairwise_append] at hs
  exact hs.2.2 row h.mem_take a ha

theorem later_eq (hs : Ascending time rows) (h : Fills size (later time after rows) row) :
    later time (some (time row)) rows =
      later time (some (time row)) ((later time after rows).drop size) := by
  have hrow : ∀ t ∈ after, t < time row := (mem_later.mp (List.mem_of_mem_take h.mem_take)).2
  have hrest : later time (some (time row)) rows =
      later time (some (time row)) (later time after rows) := by
    simp only [later, List.filter_filter]
    refine List.filter_congr fun a _ => ?_
    cases after with
    | none => simp
    | some t =>
      have ht : time row < time a → t < time a := (hrow t rfl).trans
      by_cases hlt : time row < time a <;> simp [hlt, ht]
  have hnone : later time (some (time row)) ((later time after rows).take size) = [] := by
    refine List.filter_eq_nil_iff.mpr fun a ha => ?_
    simpa using h.time_le (hs.later after) ha
  calc later time (some (time row)) rows
    _ = later time (some (time row)) (later time after rows) := hrest
    _ = later time (some (time row)) ((later time after rows).take size ++
          (later time after rows).drop size) := by rw [List.take_append_drop]
    _ = later time (some (time row)) ((later time after rows).take size) ++
          later time (some (time row)) ((later time after rows).drop size) :=
      List.filter_append ..
    _ = later time (some (time row)) ((later time after rows).drop size) := by
      rw [hnone, List.nil_append]

theorem straddles (hs : Ascending time rest) (h : Fills size rest row) (ha : a ∈ rest.drop size)
    (htime : time a = time row) : Straddles time size rest := by
  have hsize := h.length_take
  refine ⟨time row, 1, ?_, ?_⟩
  · have hnone : (rest.drop size).countP (time · < time row) = 0 :=
      List.countP_eq_zero.mpr fun b hb => by simpa using h.le_time hs hb
    have hsome : (rest.take size).countP (time · < time row) < (rest.take size).length := by
      refine lt_of_le_of_ne List.countP_le_length fun he => ?_
      simpa using List.countP_eq_length.mp he row h.mem_take
    rw [countP_eq_take_add_drop rest size, hnone]
    omega
  · have hall : (rest.take size).countP (time · ≤ time row) = (rest.take size).length :=
      List.countP_eq_length.mpr fun b hb => by simpa using h.time_le hs hb
    have hone : 0 < (rest.drop size).countP (time · ≤ time row) :=
      List.countP_pos_iff.mpr ⟨a, ha, by simp [htime]⟩
    rw [countP_eq_take_add_drop rest size, hall]
    omega

/-- Behind a page that ends with an instant nothing changes for the pages to come. -/
theorem straddles_iff (hs : Ascending time rest) (h : Fills size rest row)
    (hlater : ∀ a ∈ rest.drop size, time row < time a) :
    Straddles time size rest ↔ Straddles time size (rest.drop size) := by
  have hsize := h.length_take
  have hbefore {t : Instant} (ht : t ≤ time row) : (rest.drop size).countP (time · ≤ t) = 0 :=
    List.countP_eq_zero.mpr fun a ha => by simpa using ht.trans_lt (hlater a ha)
  have hafter {t : Instant} (ht : time row < t) :
      rest.countP (time · < t) = size + (rest.drop size).countP (time · < t) ∧
        rest.countP (time · ≤ t) = size + (rest.drop size).countP (time · ≤ t) := by
    have hlt : (rest.take size).countP (time · < t) = (rest.take size).length :=
      List.countP_eq_length.mpr fun a ha => by simpa using (h.time_le hs ha).trans_lt ht
    have hle : (rest.take size).countP (time · ≤ t) = (rest.take size).length :=
      List.countP_eq_length.mpr fun a ha => by simpa using (h.time_le hs ha).trans ht.le
    rw [countP_eq_take_add_drop rest size (time · < t), hlt,
      countP_eq_take_add_drop rest size (time · ≤ t), hle, hsize]
    exact ⟨rfl, rfl⟩
  constructor
  · rintro ⟨t, k, hlt, hle⟩
    obtain _ | k := k
    · omega
    rw [Nat.succ_mul] at hlt hle
    have htime : time row < t := by
      by_contra hn
      have hfront : (rest.take size).countP (time · ≤ t) ≤ (rest.take size).length :=
        List.countP_le_length
      rw [countP_eq_take_add_drop rest size, hbefore (not_lt.mp hn)] at hle
      omega
    obtain ⟨h₁, h₂⟩ := hafter htime
    exact ⟨t, k, by omega, by omega⟩
  · rintro ⟨t, k, hlt, hle⟩
    have htime : time row < t := by
      by_contra hn
      rw [hbefore (not_lt.mp hn)] at hle
      omega
    obtain ⟨h₁, h₂⟩ := hafter htime
    refine ⟨t, k + 1, ?_, ?_⟩ <;> rw [Nat.succ_mul] <;> omega

end Fills

namespace Reads

theorem sublist (hl : Shows list time size rows) (hs : Ascending time rows)
    (h : Reads list time size after pages) : pages.flatten.Sublist (later time after rows) := by
  induction h with
  | @last after page hpage _ =>
    cases (hl after).symm.trans hpage
    rw [List.flatten_singleton]
    exact List.take_sublist _ _
  | @next after page row pages hpage hfull hrow _ ih =>
    cases (hl after).symm.trans hpage
    have hfills : Fills size (later time after rows) row := ⟨hfull, hrow⟩
    rw [hfills.later_eq hs] at ih
    have hback := (List.Sublist.refl ((later time after rows).take size)).append
      (ih.trans List.filter_sublist)
    rwa [List.take_append_drop] at hback

/-- A row is missed just if a page was full before all rows of its instant were on it. -/
theorem not_mem_iff (hl : Shows list time size rows) (hs : Ascending time rows)
    (h : Reads list time size after pages) (ha : a ∈ later time after rows) :
    a ∉ pages.flatten ↔ CutOff time size pages a := by
  induction h with
  | @last after page hpage hlen =>
    cases (hl after).symm.trans hpage
    rw [take_of_short hlen, List.flatten_singleton]
    rw [take_of_short hlen] at hlen
    refine iff_of_false (not_not.mpr ha) ?_
    rintro ⟨page, hmem, hfull, -⟩
    rw [List.mem_singleton.mp hmem] at hfull
    omega
  | @next after page row pages hpage hfull hrow hreads ih =>
    cases (hl after).symm.trans hpage
    have hfills : Fills size (later time after rows) row := ⟨hfull, hrow⟩
    have hrest := hs.later after
    have hpages {b : α} (hb : b ∈ pages.flatten) : time row < time b :=
      (mem_later_some.mp ((hreads.sublist hl hs).subset hb)).2
    have hnext (hlt : time row < time a) : a ∉ pages.flatten ↔ CutOff time size pages a :=
      ih (mem_later_some.mpr ⟨(mem_later.mp ha).1, hlt⟩)
    rw [List.flatten_cons, List.mem_append, not_or]
    constructor
    · rintro ⟨hfront, hback⟩
      have hdrop : a ∈ (later time after rows).drop size := by
        rw [← List.take_append_drop size (later time after rows)] at ha
        exact (List.mem_append.mp ha).resolve_left hfront
      obtain hlt | heq := (hfills.le_time hrest hdrop).lt_or_eq
      · obtain ⟨page, hmem, hcut⟩ := (hnext hlt).mp hback
        exact ⟨page, List.mem_cons_of_mem _ hmem, hcut⟩
      · exact ⟨_, List.mem_cons_self, hfull, hfront, row, hrow, heq.symm⟩
    · rintro ⟨page, hmem, hfull', hn, row', hrow', htime⟩
      obtain rfl | hmem := List.mem_cons.mp hmem
      · cases hrow.symm.trans hrow'
        exact ⟨hn, fun hback => (hpages hback).ne' htime⟩
      · have hlt : time row < time a := by
          rw [htime]
          exact hpages (List.mem_flatten.mpr ⟨page, hmem, List.mem_of_getLast? hrow'⟩)
        exact ⟨fun hfront => (hfills.time_le hrest hfront).not_gt hlt,
          (hnext hlt).mpr ⟨page, hmem, hfull', hn, row', hrow', htime⟩⟩

theorem flatten_eq_iff (hl : Shows list time size rows) (hs : Ascending time rows)
    (h : Reads list time size after pages) :
    pages.flatten = later time after rows ↔ ¬ Straddles time size (later time after rows) := by
  induction h with
  | @last after page hpage hlen =>
    cases (hl after).symm.trans hpage
    rw [take_of_short hlen, List.flatten_singleton]
    rw [take_of_short hlen] at hlen
    exact iff_of_true rfl (not_straddles_of_length_le hlen.le)
  | @next after page row pages hpage hfull hrow hreads ih =>
    cases (hl after).symm.trans hpage
    have hfills : Fills size (later time after rows) row := ⟨hfull, hrow⟩
    have hrest := hs.later after
    have hsub := hreads.sublist hl hs
    rw [hfills.later_eq hs] at ih hsub
    rw [List.flatten_cons, take_append_eq_iff]
    by_cases hlater : ∀ a ∈ (later time after rows).drop size, time row < time a
    · have hall : later time (some (time row)) ((later time after rows).drop size) =
          (later time after rows).drop size :=
        List.filter_eq_self.mpr fun a ha => by simpa using hlater a ha
      rw [hall] at ih
      rw [ih, hfills.straddles_iff hrest hlater]
    · push Not at hlater
      obtain ⟨a, ha, htime⟩ := hlater
      have heq : time a = time row := le_antisymm htime (hfills.le_time hrest ha)
      refine iff_of_false (fun he => ?_) (not_not.mpr (hfills.straddles hrest ha heq))
      rw [he] at hsub
      exact (mem_later_some.mp (hsub.subset ha)).2.ne' heq

theorem unique {pages' : List (List α)} (h : Reads list time size after pages)
    (h' : Reads list time size after pages') : pages' = pages := by
  induction h generalizing pages' with
  | last hpage hlen =>
    cases h' with
    | last hpage' =>
      cases hpage.symm.trans hpage'
      rfl
    | next hpage' hfull =>
      cases hpage.symm.trans hpage'
      exact absurd hlen hfull.not_gt
  | next hpage hfull hrow _ ih =>
    cases h' with
    | last hpage' hlen =>
      cases hpage.symm.trans hpage'
      exact absurd hlen hfull.not_gt
    | next hpage' _ hrow' hreads =>
      cases hpage.symm.trans hpage'
      cases hrow.symm.trans hrow'
      rw [ih hreads]

end Reads

/-- A reading comes to an end, since no page shows a row that was on the page before. -/
theorem exists_reads (hl : Shows list time size rows) (hs : Ascending time rows) (hsize : 0 < size)
    (after : Option Instant) : ∃ pages, Reads list time size after pages := by
  induction hn : (later time after rows).length using Nat.strong_induction_on
    generalizing after with
  | _ n ih =>
    obtain hlen | hfull := Nat.lt_or_ge ((later time after rows).take size).length size
    · exact ⟨_, .last (hl after) hlen⟩
    · have hne : (later time after rows).take size ≠ [] :=
        List.ne_nil_of_length_pos (hsize.trans_le hfull)
      obtain ⟨row, hrow⟩ : ∃ row, ((later time after rows).take size).getLast? = some row :=
        ⟨_, List.getLast?_eq_some_getLast hne⟩
      have hfills : Fills size (later time after rows) row := ⟨hfull, hrow⟩
      have hfewer : (later time (some (time row)) rows).length < n :=
        calc (later time (some (time row)) rows).length
          _ = (later time (some (time row)) ((later time after rows).drop size)).length := by
            rw [hfills.later_eq hs]
          _ ≤ ((later time after rows).drop size).length := List.length_filter_le ..
          _ < n := by
            rw [List.length_take] at hfull
            rw [List.length_drop]
            omega
      obtain ⟨pages, hpages⟩ := ih _ hfewer _ rfl
      exact ⟨_, .next (hl after) hfull hrow hpages⟩

end Pages

/-- What a client finds that reads a list of the rows from the start, in pages of one size. -/
structure ReadInPages (list : Page → Except Fault (List α)) (time : α → Instant) (size : Nat)
    (rows : List α) : Prop where
  existsUnique : ∃! pages, Reads list time size none pages
  nodup {pages} : Reads list time size none pages → pages.flatten.Nodup
  mem_iff {pages} : Reads list time size none pages →
    ∀ a, a ∈ pages.flatten ↔ a ∈ rows ∧ ¬ CutOff time size pages a
  perm_iff {pages} : Reads list time size none pages →
    (pages.flatten.Perm rows ↔ ¬ Straddles time size rows)

theorem Straddles.of_perm {time : α → Instant} {size : Nat} {rows rows' : List α}
    (hp : rows.Perm rows') (h : Straddles time size rows) : Straddles time size rows' := by
  obtain ⟨t, k, hlt, hle⟩ := h
  exact ⟨t, k, hp.countP_eq (time · < t) ▸ hlt, hp.countP_eq (time · ≤ t) ▸ hle⟩

theorem readInPages [Ord κ] [Std.TransOrd κ] {list : Page → Except Fault (List α)} {size : Nat}
    {rows : List α} (key : α → Instant × κ) (hn : rows.Nodup) (hsize : 0 < size)
    (hl : Shows list (fun a => (key a).1) size (byModified key rows)) :
    ReadInPages list (fun a => (key a).1) size rows := by
  have hs := ascending_byModified key rows
  have hp := byModified_perm key rows
  have hsub {pages : List (List α)} (h : Reads list (fun a => (key a).1) size none pages) :
      pages.flatten.Sublist (byModified key rows) := by
    have := h.sublist hl hs
    rwa [later_none] at this
  constructor
  · obtain ⟨pages, hpages⟩ := exists_reads hl hs hsize none
    exact ⟨pages, hpages, fun _ h => hpages.unique h⟩
  · intro pages h
    exact (hsub h).nodup (hp.nodup_iff.mpr hn)
  · intro pages h a
    rw [← hp.mem_iff]
    constructor
    · intro ha
      have hrow := (hsub h).subset ha
      exact ⟨hrow, fun hcut => (h.not_mem_iff hl hs (by rwa [later_none])).mpr hcut ha⟩
    · rintro ⟨hrow, hcut⟩
      by_contra ha
      exact hcut ((h.not_mem_iff hl hs (by rwa [later_none])).mp ha)
  · intro pages h
    have hiff := h.flatten_eq_iff hl hs
    rw [later_none] at hiff
    have hstraddles : Straddles (fun a => (key a).1) size (byModified key rows) ↔
        Straddles (fun a => (key a).1) size rows := ⟨.of_perm hp, .of_perm hp.symm⟩
    rw [← hstraddles, ← hiff]
    constructor
    · intro hperm
      exact (hsub h).eq_of_length (hperm.trans hp.symm).length_eq
    · intro he
      rwa [he]

namespace Engine

variable {e : Engine} {size : Nat}

theorem pageLimit_eq (h₀ : 0 < size) (h₁ : size ≤ e.params.maxPageSize)
    (after : Option Instant) : e.pageLimit ⟨after, some size⟩ = .ok size := by
  simp [pageLimit, h₀, h₁]

theorem shows_permissions (hs : e.records.Sound) (h₀ : 0 < size)
    (h₁ : size ≤ e.params.maxPageSize) : Shows e.permissions (·.modified) size
      (byModified (fun p => (p.modified, p.id)) e.records.permissions.values) := by
  intro after
  rw [later, ← byModified_filter, permissions, pageLimit_eq h₀ h₁]
  · rfl
  · intro p hp q hq h
    exact Table.eq_of_key_eq hs.id_eq hp hq (Prod.mk.inj h).2

theorem shows_sessions (hk : e.records.KeysSessions) (h₀ : 0 < size)
    (h₁ : size ≤ e.params.maxPageSize) : Shows e.sessions (·.modified) size
      (byModified (fun s => (s.modified, s.id)) e.records.sessions.values) := by
  intro after
  rw [later, ← byModified_filter, sessions, pageLimit_eq h₀ h₁]
  · rfl
  · intro s hs s' hs' h
    exact Table.eq_of_key_eq (hk _ _) hs hs' (Prod.mk.inj h).2

end Engine

/-- A client that reads the permissions or the sessions in pages of an allowed size comes to an
end, without a row twice. It misses the rows of an instant in which a full page ended that were not
on that page, and so none just if no page would end among the rows of one instant. -/
theorem pages_show_all_iff {host : Host} {params : Params} {authority : Address} {e : Engine}
    (hn : Engine.new host params authority = .ok e) (steps : List Step) {size : Nat}
    (h₀ : 0 < size) (h₁ : size ≤ (e.run steps).params.maxPageSize) :
    ReadInPages (e.run steps).permissions (·.modified) size
        (e.run steps).records.permissions.values ∧
      ReadInPages (e.run steps).sessions (·.modified) size
        (e.run steps).records.sessions.values := by
  have hs := Engine.run_sound (Engine.new_sound hn) steps
  have hk := Engine.run_keysSessions (Engine.new_keysSessions hn) steps
  constructor
  · exact readInPages (fun p : Permission => (p.modified, p.id)) (Table.nodup_values hs.id_eq) h₀
      (Engine.shows_permissions hs h₀ h₁)
  · exact readInPages (fun s : Session => (s.modified, s.id)) (Table.nodup_values (hk _ _)) h₀
      (Engine.shows_sessions hk h₀ h₁)

/-- Three rows of one instant fit on a page of three, and one of them is missed by pages of two. -/
theorem pages_show_all_iff_founding :
    (∃ pages, Reads (Sample.engine.run Sample.founding).permissions (·.modified) 3 none pages ∧
      pages.flatten.Perm (Sample.engine.run Sample.founding).records.permissions.values) ∧
    ∃ pages, Reads (Sample.engine.run Sample.founding).permissions (·.modified) 2 none pages ∧
      pages.flatten.Nodup ∧
      ¬ pages.flatten.Perm (Sample.engine.run Sample.founding).records.permissions.values := by
  have hrows : (Sample.engine.run Sample.founding).records.permissions.values.length = 3 := by
    decide +kernel
  have hstraddles : Straddles (·.modified) 2
      (Sample.engine.run Sample.founding).records.permissions.values :=
    ⟨Sample.noon, 1, by decide +kernel, by decide +kernel⟩
  obtain ⟨hthree, -⟩ := pages_show_all_iff Sample.engine_new Sample.founding
    (show 0 < 3 by decide) (by decide +kernel)
  obtain ⟨htwo, -⟩ := pages_show_all_iff Sample.engine_new Sample.founding
    (show 0 < 2 by decide) (by decide +kernel)
  obtain ⟨pages, hpages, -⟩ := hthree.existsUnique
  obtain ⟨pages', hpages', -⟩ := htwo.existsUnique
  exact ⟨⟨pages, hpages, (hthree.perm_iff hpages).mpr (not_straddles_of_length_le hrows.le)⟩,
    pages', hpages', htwo.nodup hpages', fun hp => (htwo.perm_iff hpages').mp hp hstraddles⟩

/-- The grantor and the issuer of the one instant are on no page of one row. -/
theorem page_ends_among_rows : ∃ root grantor issuer : Permission,
    (Sample.engine.run Sample.founding).records.permissions.values = [root, grantor, issuer] ∧
      Reads (Sample.engine.run Sample.founding).permissions (·.modified) 1 none [[root], []] ∧
      ¬ [[root], []].flatten.Perm [root, grantor, issuer] := by
  have hl := Engine.shows_permissions (Engine.run_sound (Engine.new_sound Sample.engine_new)
    Sample.founding) (show 0 < 1 by decide) (by decide +kernel)
  rw [byModified_eq_self (by decide +kernel)] at hl
  have htimes : (Sample.engine.run Sample.founding).records.permissions.values.map (·.modified) =
      [Sample.noon, Sample.noon, Sample.noon] := by decide +kernel
  obtain ⟨root, _, hrows, hroot, h⟩ := List.map_eq_cons_iff.mp htimes
  obtain ⟨grantor, _, rfl, hgrantor, h⟩ := List.map_eq_cons_iff.mp h
  obtain ⟨issuer, rfl, hissuer⟩ := List.map_eq_singleton_iff.mp h
  rw [hrows] at hl
  have hlater : later (·.modified) (some Sample.noon) [root, grantor, issuer] = [] := by
    simp [later, hroot, hgrantor, hissuer]
  have hfirst : (Sample.engine.run Sample.founding).permissions ⟨none, some 1⟩ = .ok [root] := by
    rw [hl, later_none]
    rfl
  have hsecond : (Sample.engine.run Sample.founding).permissions ⟨some root.modified, some 1⟩ =
      .ok [] := by
    rw [hl, hroot, hlater]
    rfl
  refine ⟨root, grantor, issuer, hrows, .next hfirst le_rfl rfl (.last hsecond Nat.one_pos), ?_⟩
  intro h
  cases h.length_eq

end TrustPermit
