import TrustPermit.Proofs.Paging

/-! # What a page shows

A page shows the first of the rows that were modified after an instant, as many as it has room for.
They are in the order of their times and then of their ids, each row once, and every row for which
there was no room comes after those shown.
-/

namespace TrustPermit

variable {α κ : Type} [Ord κ]

def Precedes (a b : Instant × κ) : Prop := a.1 < b.1 ∨ a.1 = b.1 ∧ compare a.2 b.2 = .lt

/-- Entries go by the times and the ids in their rows. Rows that agree in both are told apart by
the keys under which they are stored. -/
def ListedBefore (place : α → Instant × κ) (x y : κ × α) : Prop :=
  Precedes (place x.2) (place y.2) ∨ place x.2 = place y.2 ∧ compare x.1 y.1 = .lt

theorem precedes_of_le [Std.LawfulEqOrd κ] {a b : Instant × κ} (h : modifiedLE a b = true) :
    Precedes a b ∨ a = b := by
  obtain hlt | ⟨htime, hkey⟩ := modifiedLE_iff.mp h
  · exact .inl (.inl hlt)
  · obtain hlt | heq := Ordering.isLE_iff_eq_lt_or_eq_eq.mp hkey
    · exact .inl (.inr ⟨htime, hlt⟩)
    · exact .inr (Prod.ext htime (Std.LawfulEqCmp.eq_of_compare heq))

theorem map_byModified (place : α → Instant × κ) (entries : List (κ × α)) :
    (byModified (fun x => place x.2) entries).map Prod.snd =
      byModified place (entries.map Prod.snd) :=
  List.map_mergeSort fun _ _ _ _ => rfl

/-- Sorting leaves rows of one place in the order in which they were. -/
theorem byModified_filter_of_tied [Std.TransOrd κ] {place : α → Instant × κ} {rows : List α}
    {p : α → Bool} (h : ∀ a ∈ rows.filter p, ∀ b ∈ rows.filter p, place a = place b) :
    (byModified place rows).filter p = rows.filter p := by
  have hle : (rows.filter p).Pairwise fun a b => modifiedLE (place a) (place b) = true := by
    refine List.pairwise_of_forall_mem_list fun a ha b hb => ?_
    rw [h a ha b hb]
    simpa using modifiedLE_total (place b) (place b)
  have hsub : (rows.filter p).Sublist (byModified place rows) := by
    apply List.sublist_mergeSort _ _ hle List.filter_sublist
    · intro a b c hab hbc
      exact modifiedLE_trans hab hbc
    · intro a b
      exact modifiedLE_total (place a) (place b)
  have hfilter : (rows.filter p).Sublist ((byModified place rows).filter p) := by
    simpa using hsub.filter p
  exact (hfilter.eq_of_length ((byModified_perm place rows).filter p).length_eq.symm).symm

theorem pairwise_listedBefore [Std.TransOrd κ] [Std.LawfulEqOrd κ] [DecidableEq κ]
    (place : α → Instant × κ) {entries : List (κ × α)}
    (h : entries.Pairwise fun x y => compare x.1 y.1 = .lt) :
    (byModified (fun x => place x.2) entries).Pairwise (ListedBefore place) := by
  have hle := pairwise_byModified (fun x : κ × α => place x.2) entries
  rw [List.pairwise_iff_forall_sublist] at hle h ⊢
  intro x y hxy
  obtain hlt | htie := precedes_of_le (hle hxy)
  · exact .inl hlt
  · -- Both are among the entries of one place, which sorting has left in their order.
    have hboth := hxy.filter fun z => place z.2 = place y.2
    rw [byModified_filter_of_tied (by simp +contextual)] at hboth
    have hold : [x, y].Sublist (entries.filter fun z => place z.2 = place y.2) := by
      simpa [htie] using hboth
    exact .inr ⟨htie, h (hold.trans List.filter_sublist)⟩

def Table.entriesAfter (t : Table κ α) (place : α → Instant × κ) (after : Option Instant) :
    List (κ × α) :=
  later (fun x => (place x.2).1) after t.toList

/-- The entries shown are as many as there is room for, and all of them are listed before the
entries left out. -/
structure Cut (place : α → Instant × κ) (size : Nat) (entries shown left : List (κ × α)) :
    Prop where
  perm : (shown ++ left).Perm entries
  length : shown.length = min size entries.length
  nodup : (shown.map Prod.fst).Nodup
  ascending : shown.Pairwise (ListedBefore place)
  before : ∀ x ∈ shown, ∀ y ∈ left, ListedBefore place x y

section Entries

variable {t : Table κ α} {place : α → Instant × κ} {after : Option Instant} {x y : κ × α}

theorem mem_entriesAfter : x ∈ t.entriesAfter place after ↔
    x ∈ t.toList ∧ ∀ i ∈ after, i < (place x.2).1 := mem_later

theorem map_entriesAfter : (t.entriesAfter place after).map Prod.snd =
    later (fun a => (place a).1) after t.values := by
  rw [later, Table.values, List.filter_map]
  rfl

variable [Std.LawfulEqOrd κ]

theorem precedes_of_listedBefore (hk : t.Keyed fun a => (place a).2) (hx : x ∈ t.toList)
    (hy : y ∈ t.toList) (h : ListedBefore place x y) : Precedes (place x.2) (place y.2) := by
  obtain h | ⟨hplace, hkey⟩ := h
  · exact h
  · have hsame : x.1 = y.1 :=
      calc x.1
        _ = (place x.2).2 := (hk _ _ (Table.get?_eq_some_iff.mpr hx)).symm
        _ = (place y.2).2 := by rw [hplace]
        _ = y.1 := hk _ _ (Table.get?_eq_some_iff.mpr hy)
    simp [hsame] at hkey

variable [Std.TransOrd κ] [DecidableEq κ]

theorem cut_entriesAfter (t : Table κ α) (place : α → Instant × κ) (after : Option Instant)
    (size : Nat) :
    Cut place size (t.entriesAfter place after)
      ((byModified (fun x => place x.2) (t.entriesAfter place after)).take size)
      ((byModified (fun x => place x.2) (t.entriesAfter place after)).drop size) := by
  have hp := byModified_perm (fun x : κ × α => place x.2) (t.entriesAfter place after)
  have hsorted : (t.entriesAfter place after).Pairwise fun x y => compare x.1 y.1 = .lt :=
    t.sorted.filter _
  have hkeys : ((t.entriesAfter place after).map Prod.fst).Nodup :=
    t.nodup_keys.sublist (List.filter_sublist.map Prod.fst)
  have hlisted := pairwise_listedBefore place hsorted
  rw [← List.take_append_drop size (byModified _ _), List.pairwise_append] at hlisted
  constructor
  · rw [List.take_append_drop]
    exact hp
  · rw [List.length_take, hp.length_eq]
  · refine List.Nodup.sublist ((List.take_sublist _ _).map Prod.fst) ?_
    exact (hp.map Prod.fst).nodup_iff.mpr hkeys
  · exact hlisted.1
  · exact hlisted.2.2

end Entries

def Page.sizeUnder (page : Page) (params : Params) : Nat := page.size.getD params.defaultPageSize

/-- The first rows of a table, by their places, of those modified after an instant. -/
structure Leads (place : α → Instant × κ) (size : Nat) (t : Table κ α) (after : Option Instant)
    (rows : List α) : Prop where
  mem : ∀ a ∈ rows, a ∈ t.values ∧ ∀ i ∈ after, i < (place a).1
  length : rows.length = min size (later (fun a => (place a).1) after t.values).length
  nodup : rows.Nodup
  ascending : rows.Pairwise fun a b => Precedes (place a) (place b)
  before : ∀ a ∈ rows, ∀ b ∈ t.values, (∀ i ∈ after, i < (place b).1) → b ∉ rows →
    Precedes (place a) (place b)

/-- The answer to a request for a page of the rows of a table. It is refused for its size alone.
Otherwise it shows the first entries, and the first rows where these carry their keys. -/
structure ShowsPage (answer : Except Fault (List α)) (place : α → Instant × κ) (t : Table κ α)
    (params : Params) (page : Page) : Prop where
  error_iff f : answer = .error f ↔
    (page.sizeUnder params = 0 ∨ params.maxPageSize < page.sizeUnder params) ∧
      f = .inconsistent (.pageSize params.maxPageSize (page.sizeUnder params))
  first : 0 < page.sizeUnder params → page.sizeUnder params ≤ params.maxPageSize →
    ∃ shown left, answer = .ok (shown.map Prod.snd) ∧
      Cut place (page.sizeUnder params) (t.entriesAfter place page.modifiedAfter) shown left
  keyed : t.Keyed (fun a => (place a).2) → ∀ rows, answer = .ok rows →
    Leads place (page.sizeUnder params) t page.modifiedAfter rows

theorem Cut.leads [Std.LawfulEqOrd κ] {place : α → Instant × κ} {t : Table κ α} {size : Nat}
    {after : Option Instant} {shown left : List (κ × α)} (hk : t.Keyed fun a => (place a).2)
    (h : Cut place size (t.entriesAfter place after) shown left) :
    Leads place size t after (shown.map Prod.snd) := by
  have hmem {x : κ × α} (hx : x ∈ shown) : x ∈ t.toList ∧ ∀ i ∈ after, i < (place x.2).1 :=
    mem_entriesAfter.mp (h.perm.mem_iff.mp (List.mem_append_left left hx))
  have hkey {x : κ × α} (hx : x ∈ shown) : (place x.2).2 = x.1 :=
    hk _ _ (Table.get?_eq_some_iff.mpr (hmem hx).1)
  constructor
  · intro a ha
    obtain ⟨x, hx, rfl⟩ := List.mem_map.mp ha
    exact ⟨List.mem_map_of_mem (hmem hx).1, (hmem hx).2⟩
  · rw [List.length_map, h.length, ← map_entriesAfter, List.length_map]
  · refine List.pairwise_map.mpr ((List.pairwise_map.mp h.nodup).imp_of_mem ?_)
    intro x y hx hy hne he
    rw [← hkey hx, he, hkey hy] at hne
    exact hne rfl
  · refine List.pairwise_map.mpr (h.ascending.imp_of_mem ?_)
    intro x y hx hy hlisted
    exact precedes_of_listedBefore hk (hmem hx).1 (hmem hy).1 hlisted
  · intro a ha b hb hafter hout
    obtain ⟨x, hx, rfl⟩ := List.mem_map.mp ha
    obtain ⟨y, hy, rfl⟩ := List.mem_map.mp hb
    have hleft : y ∈ left := by
      have hall := h.perm.mem_iff.mpr (mem_entriesAfter.mpr ⟨hy, hafter⟩)
      exact (List.mem_append.mp hall).resolve_left fun hin => hout (List.mem_map_of_mem hin)
    exact precedes_of_listedBefore hk (hmem hx).1 hy (h.before x hx y hleft)

namespace Engine

variable {e : Engine} {page : Page}

theorem pageLimit_eq_ok_iff {size : Nat} : e.pageLimit page = .ok size ↔
    (0 < page.sizeUnder e.params ∧ page.sizeUnder e.params ≤ e.params.maxPageSize) ∧
      page.sizeUnder e.params = size := by
  simp [pageLimit, Page.sizeUnder]

theorem pageLimit_eq_error_iff {f : Fault} : e.pageLimit page = .error f ↔
    (page.sizeUnder e.params = 0 ∨ e.params.maxPageSize < page.sizeUnder e.params) ∧
      f = .inconsistent (.pageSize e.params.maxPageSize (page.sizeUnder e.params)) := by
  simp only [pageLimit, Page.sizeUnder, Guard.bind_eq_error_iff, Guard.demand_eq_error_iff,
    Guard.pure_ne_error, and_false, exists_false, or_false, not_and_or, Nat.not_lt, Nat.le_zero,
    Nat.not_le]
  rw [eq_comm (a := f)]

theorem showsPage [Std.TransOrd κ] [Std.LawfulEqOrd κ] [DecidableEq κ] {place : α → Instant × κ}
    {t : Table κ α} {answer : Except Fault (List α)} (h : answer = do
      let size ← e.pageLimit page
      return (byModified place
        (later (fun a => (place a).1) page.modifiedAfter t.values)).take size) :
    ShowsPage answer place t e.params page := by
  have hcut := cut_entriesAfter t place page.modifiedAfter (page.sizeUnder e.params)
  have hrows : ((byModified (fun x => place x.2) (t.entriesAfter place page.modifiedAfter)).take
      (page.sizeUnder e.params)).map Prod.snd = (byModified place
        (later (fun a => (place a).1) page.modifiedAfter t.values)).take
          (page.sizeUnder e.params) := by
    rw [List.map_take, map_byModified, map_entriesAfter]
  constructor
  · intro f
    rw [h, Guard.bind_eq_error_iff, ← pageLimit_eq_error_iff]
    simp [Guard.pure_ne_error]
  · intro h₀ h₁
    refine ⟨_, _, ?_, hcut⟩
    rw [hrows, h, pageLimit_eq_ok_iff.mpr ⟨⟨h₀, h₁⟩, rfl⟩]
    rfl
  · intro hk rows hok
    rw [h, Guard.bind_eq_ok_iff] at hok
    obtain ⟨size, hsize, hok⟩ := hok
    obtain ⟨-, rfl⟩ := pageLimit_eq_ok_iff.mp hsize
    cases hok
    rw [← hrows]
    exact hcut.leads hk

end Engine

/-- A list of permissions or of sessions is refused exactly if the size of the page is zero or
above the greatest one allowed. Otherwise the page shows the first of those modified after the given
instant, each once, and what it leaves out comes after all that it shows. -/
theorem pages_are_sorted_prefixes (e : Engine) (page : Page) :
    ShowsPage (e.permissions page) (fun p => (p.modified, p.id)) e.records.permissions e.params
        page ∧
      ShowsPage (e.sessions page) (fun s => (s.modified, s.id)) e.records.sessions e.params
        page :=
  ⟨Engine.showsPage rfl, Engine.showsPage rfl⟩

namespace Sample

def slashedNextDay : List Step :=
  founding ++ [.deliver (inDays 1) ⟨controller, .slash 2 10⟩]

end Sample

/-- The grantor was modified last, so a page of two shows the other two rows. A page of none is
refused. -/
theorem pages_are_sorted_prefixes_slash :
    (∃ rows, (Sample.engine.run Sample.slashedNextDay).permissions ⟨none, some 2⟩ = .ok rows ∧
      rows.length = 2 ∧ rows.Nodup ∧ ∀ p ∈ rows, p.modified = Sample.noon) ∧
    ∃ f, (Sample.engine.run Sample.slashedNextDay).permissions ⟨none, some 0⟩ = .error f := by
  have hs := Engine.run_sound (Engine.new_sound Sample.engine_new) Sample.slashedNextDay
  obtain ⟨hsize, hcount, hlast⟩ : 2 ≤
      (Sample.engine.run Sample.slashedNextDay).params.maxPageSize ∧
      (Sample.engine.run Sample.slashedNextDay).records.permissions.values.length = 3 ∧
      ∀ p ∈ (Sample.engine.run Sample.slashedNextDay).records.permissions.values,
        ∀ q ∈ (Sample.engine.run Sample.slashedNextDay).records.permissions.values,
          p.modified ≠ Sample.noon → q = p ∨ q.modified < p.modified := by decide +kernel
  have htwo := (pages_are_sorted_prefixes (Sample.engine.run Sample.slashedNextDay)
    ⟨none, some 2⟩).1
  have hzero := (pages_are_sorted_prefixes (Sample.engine.run Sample.slashedNextDay)
    ⟨none, some 0⟩).1
  obtain ⟨shown, left, hshown, -⟩ := htwo.first (by decide) hsize
  have hleads := htwo.keyed hs.keyed _ hshown
  have hlength : (shown.map Prod.snd).length = 2 := by
    rw [hleads.length, later_none, hcount]
    rfl
  refine ⟨⟨_, hshown, hlength, hleads.nodup, fun p hp => ?_⟩, _,
    (hzero.error_iff _).mpr ⟨.inl rfl, rfl⟩⟩
  -- A row of a later time would be shown only after all the others, and there is no room for three.
  by_contra hnoon
  have hall : (Sample.engine.run Sample.slashedNextDay).records.permissions.values ⊆
      shown.map Prod.snd := by
    intro q hq
    by_contra hout
    obtain rfl | hlt := hlast p (hleads.mem p hp).1 q hq hnoon
    · exact hout hp
    · obtain hgt | ⟨heq, -⟩ := hleads.before p hp q hq (by simp) hout
      · exact hlt.asymm hgt
      · exact hlt.ne' heq
  have hcard := ((Table.nodup_values hs.id_eq).subperm hall).length_le
  omega

end TrustPermit
