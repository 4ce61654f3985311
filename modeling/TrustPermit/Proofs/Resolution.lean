import TrustPermit.Proofs.Exclusion
import TrustPermit.Proofs.Hierarchy

/-! # What the beneficiary search answers

The rows may point anywhere. Wherever a chain ends at a root within the bound the walk is the
chain, and elsewhere it fails: an id that a walk passed starts a longer chain than the ids after
it, so no id of a chain is met twice.
-/

namespace TrustPermit

theorem Table.lowest_of_find?_values {κ α : Type} [Ord κ] [Std.LawfulEqOrd κ] {t : Table κ α}
    {f : α → Bool} {a : α} (h : t.values.find? f = some a) :
    ∃ key, t.get? key = some a ∧
      ∀ other b, t.get? other = some b → f b → other = key ∨ compare key other = .lt := by
  rw [values, List.find?_map, Option.map_eq_some_iff] at h
  obtain ⟨⟨key, a⟩, h, rfl⟩ := h
  obtain ⟨-, before, after, hl, hn⟩ := List.find?_eq_some_iff_append.mp h
  refine ⟨key, get?_eq_some_iff.mpr (List.mem_of_find?_eq_some h), ?_⟩
  intro other b hb hf
  have hm := get?_eq_some_iff.mp hb
  have hs := t.sorted
  rw [hl] at hm hs
  obtain ⟨-, hs, -⟩ := List.pairwise_append.mp hs
  rcases List.mem_append.mp hm with hm | hm
  · have hfalse := hn _ hm
    simp [hf] at hfalse
  · rcases List.mem_cons.mp hm with heq | hm
    · exact .inl (congrArg Prod.fst heq)
    · exact .inr ((List.pairwise_cons.mp hs).1 _ hm)

namespace Records

variable {r : Records} {start : Option PermissionId} {rows rows' : List Permission}
  {stop : Fault} {hops maxDepth : Nat} {seen : List PermissionId}

theorem Chain.unique (h : r.Chain start rows) (h' : r.Chain start rows') : rows = rows' := by
  induction h generalizing rows' with
  | done =>
    cases h'
    rfl
  | up hp _ ih =>
    cases h' with
    | up hp' h' =>
      cases hp.symm.trans hp'
      rw [ih h']

theorem Chain.walkFrom_eq (h : r.Chain start rows) (hlen : rows.length ≤ hops)
    (hseen : ∀ other ∈ seen, ∃ longer, r.Chain (some other) longer ∧
      rows.length < longer.length) :
    r.walkFrom stop hops seen start = ⟨rows, none⟩ := by
  induction h generalizing hops seen with
  | done => simp [Records.walkFrom]
  | @up id p rows hp hc ih =>
    cases hops with
    | zero => cases hlen
    | succ hops =>
      have hfresh : id ∉ seen := by
        intro hm
        obtain ⟨longer, hl, hlt⟩ := hseen id hm
        rw [(Chain.up hp hc).unique hl] at hlt
        exact Nat.lt_irrefl _ hlt
      have hseen' : ∀ other ∈ id :: seen, ∃ longer, r.Chain (some other) longer ∧
          rows.length < longer.length := by
        intro other hm
        rcases List.mem_cons.mp hm with rfl | hm
        · exact ⟨p :: rows, .up hp hc, Nat.lt_succ_self _⟩
        · obtain ⟨longer, hl, hlt⟩ := hseen other hm
          exact ⟨longer, hl, (Nat.lt_succ_self _).trans hlt⟩
      simp [Records.walkFrom, hfresh, hp, ih (Nat.le_of_succ_le_succ hlen) hseen']

theorem chain_of_walkFrom (h : (r.walkFrom stop hops seen start).fault = none) :
    r.Chain start (r.walkFrom stop hops seen start).visited ∧
      (r.walkFrom stop hops seen start).visited.length ≤ hops := by
  induction hops generalizing seen start with
  | zero =>
    cases start with
    | none => exact ⟨.done, le_rfl⟩
    | some id => cases h
  | succ hops ih =>
    cases start with
    | none => exact ⟨.done, Nat.zero_le _⟩
    | some id =>
      simp only [walkFrom] at h ⊢
      split at h
      · cases h
      · rename_i hfresh
        split at h
        · cases h
        · rename_i p hp
          obtain ⟨hc, hlen⟩ := ih h
          rw [if_neg hfresh]
          exact ⟨.up hp hc, Nat.succ_le_succ hlen⟩

/-- The rows from a permission to a root that is at most so many hops away. -/
def Ascends (r : Records) (start : Option PermissionId) (maxDepth : Nat)
    (rows : List Permission) : Prop :=
  r.Chain start rows ∧ rows.length ≤ maxDepth + 1

theorem chainOption_eq_ok_iff :
    r.chainOption start maxDepth = .ok rows ↔ r.Ascends start maxDepth rows := by
  cases start with
  | none =>
    constructor
    · rintro ⟨⟩
      exact ⟨.done, Nat.zero_le _⟩
    · rintro ⟨h, -⟩
      cases h
      rfl
  | some id =>
    constructor
    · intro h
      simp only [chainOption, chain, walk] at h
      split at h
      · rename_i hf
        cases h
        exact chain_of_walkFrom hf
      · cases h
    · rintro ⟨h, hlen⟩
      have hw : r.walkFrom (.endlessChain id maxDepth) (maxDepth + 1) [] (some id) =
          ⟨rows, none⟩ := h.walkFrom_eq hlen (by simp)
      simp [chainOption, chain, walk, hw]

theorem firstOccurrences_filter (f : PermissionId → Bool) (rows : List Permission) :
    firstOccurrences (rows.filter (f ·.id)) = (firstOccurrences rows).filter (f ·.id) := by
  induction rows with
  | nil => rfl
  | cons p rest ih =>
    by_cases hf : f p.id
    · simp [firstOccurrences, hf, ih, List.filter_filter, Bool.and_comm]
    · -- What was left out for its id is what an occurrence of that id leaves out.
      have hne : ∀ q : Permission, (f q.id && decide (q.id ≠ p.id)) = f q.id := by
        intro q
        by_cases hq : q.id = p.id <;> simp [hq, hf]
      simp only [firstOccurrences, List.filter_cons, hf, ih, List.filter_filter, hne,
        Bool.false_eq_true, if_false]

/-- The first occurrences are what is left when each row erases those after it of its id. -/
theorem firstOccurrences_eq (rows : List Permission) :
    firstOccurrences rows = rows.eraseDupsBy (·.id == ·.id) := by
  suffices h : ∀ f : PermissionId → Bool, firstOccurrences (rows.filter (f ·.id)) =
      (rows.filter (f ·.id)).eraseDupsBy (·.id == ·.id) by
    simpa using h fun _ => true
  intro f
  induction rows generalizing f with
  | nil => rfl
  | cons p rest ih =>
    by_cases hf : f p.id
    · have hrest := ih fun i => decide (i ≠ p.id) && f i
      rw [← List.filter_filter, firstOccurrences_filter (fun i => decide (i ≠ p.id))] at hrest
      have hsame : ∀ q : Permission, decide ((q.id == p.id) = false) = decide (q.id ≠ p.id) := by
        simp
      simp only [List.filter_cons, hf, if_true, firstOccurrences, List.eraseDupsBy_cons, hsame,
        hrest]
    · simpa [hf] using ih f

theorem nodup_firstOccurrences (rows : List Permission) :
    ((firstOccurrences rows).map (·.id)).Nodup := by
  induction rows with
  | nil => exact .nil
  | cons p rest ih =>
    refine List.nodup_cons.mpr ⟨?_, ih.sublist (List.filter_sublist.map _)⟩
    intro hm
    obtain ⟨q, hq, he⟩ := List.mem_map.mp hm
    simpa [he] using (List.mem_filter.mp hq).2

structure IsRootOf (r : Records) (schemaId : Nat) (id : PermissionId) (p : Permission) :
    Prop where
  row : r.get? id = some p
  schemaId : p.schemaId = schemaId
  kind : p.kind = .ecosystem
  stands : p.isBarred = false

theorem root?_eq_some {schemaId : Nat} {p : Permission} (h : r.root? schemaId = some p) :
    ∃ id, r.IsRootOf schemaId id p ∧ ∀ other q, r.IsRootOf schemaId other q → id ≤ other := by
  obtain ⟨hk, hs⟩ := root?_ok h
  have hb := isBarred_of_root? h
  rw [root?, ofSchema, List.find?_filter] at h
  obtain ⟨id, hp, hlow⟩ := Table.lowest_of_find?_values h
  refine ⟨id, ⟨hp, hs, hk, hb⟩, ?_⟩
  intro other q hq
  rcases hlow other q hq.row (by simp [hq.schemaId, hq.kind, hq.stands]) with rfl | hlt
  · exact le_rfl
  · exact (Nat.compare_eq_lt.mp hlt).le

theorem root?_eq_none {schemaId : Nat} (h : r.root? schemaId = none) (id : PermissionId)
    (p : Permission) : ¬ r.IsRootOf schemaId id p := by
  intro hp
  have hm : p ∈ r.ofSchema schemaId :=
    List.mem_filter.mpr ⟨mem_rows_iff.mpr ⟨id, hp.row⟩, by simp [hp.schemaId]⟩
  have hn := List.find?_eq_none.mp h p hm
  simp [hp.kind, hp.stands] at hn

/-- The participants of an exchange: at least one is given, and those given are rows of one
schema. -/
structure Parties (r : Records) (issuer verifier : Option PermissionId) (schemaId : Nat) :
    Prop where
  given : issuer.isSome ∨ verifier.isSome
  rows : ∀ id, issuer = some id ∨ verifier = some id →
    ∃ p, r.get? id = some p ∧ p.schemaId = schemaId

variable {issuer verifier : Option PermissionId} {schemaId : Nat}

theorem requireOption_eq_ok (h : ∀ id, start = some id → ∃ p, r.get? id = some p ∧
    p.schemaId = schemaId) :
    ∃ row : Option Permission, r.requireOption start = .ok row ∧ row.isSome = start.isSome ∧
      ∀ p, row = some p → p.schemaId = schemaId := by
  cases start with
  | none => exact ⟨none, rfl, rfl, by simp⟩
  | some id =>
    obtain ⟨p, hp, hs⟩ := h id rfl
    refine ⟨some p, by simp [requireOption, require, hp], rfl, ?_⟩
    rintro _ ⟨⟩
    exact hs

theorem commonSchema_eq_ok {i v : Option Permission} (hg : i.isSome ∨ v.isSome)
    (hi : ∀ p, i = some p → p.schemaId = schemaId) (hv : ∀ p, v = some p → p.schemaId = schemaId) :
    commonSchema i v = .ok schemaId := by
  cases i with
  | none =>
    cases v with
    | none => simp at hg
    | some q => exact congrArg Except.ok (hv q rfl)
  | some p =>
    cases v with
    | none => exact congrArg Except.ok (hi p rfl)
    | some q => simp [commonSchema, hi p rfl, hv q rfl]

theorem Parties.beneficiaries (h : r.Parties issuer verifier schemaId)
    {schemas : Table Nat CredentialSchema} {schema : CredentialSchema}
    (hs : schemas.get? schemaId = some schema) (maxDepth : Nat) :
    r.beneficiaries schemas issuer verifier maxDepth =
      if isOpenTo issuer schema.issuerMode || isOpenTo verifier schema.verifierMode then
        .ok (r.root? schemaId).toList
      else do
        let issuerChain ← r.chainOption issuer maxDepth
        let verifierChain ← r.chainOption verifier maxDepth
        return payable (issuerChain ++ verifierChain) := by
  obtain ⟨i, hi, hig, his⟩ := requireOption_eq_ok fun id hid => h.rows id (.inl hid)
  obtain ⟨v, hv, hvg, hvs⟩ := requireOption_eq_ok fun id hid => h.rows id (.inr hid)
  have hc := commonSchema_eq_ok (hig ▸ hvg ▸ h.given) his hvs
  simp only [Records.beneficiaries, hi, hv, hc, hs, Guard.ok_bind, expect]
  rfl

/-- Whether anyone may take the part of a participant who is given. -/
def HasOpenPart (schema : CredentialSchema) (issuer verifier : Option PermissionId) : Prop :=
  issuer.isSome ∧ schema.issuerMode = .selfCreation ∨
    verifier.isSome ∧ schema.verifierMode = .selfCreation

theorem hasOpenPart_iff {schema : CredentialSchema} :
    HasOpenPart schema issuer verifier ↔
      (isOpenTo issuer schema.issuerMode || isOpenTo verifier schema.verifierMode) = true := by
  simp [HasOpenPart, isOpenTo]

theorem nodup_of_beneficiaries {schemas : Table Nat CredentialSchema}
    (h : r.beneficiaries schemas issuer verifier maxDepth = .ok rows) :
    (rows.map (·.id)).Nodup := by
  simp only [beneficiaries, Guard.bind_eq_ok_iff] at h
  obtain ⟨_, -, _, -, schemaId, -, _, -, h⟩ := h
  split at h
  · cases h
    cases r.root? schemaId <;> simp
  · simp only [Guard.bind_eq_ok_iff, Guard.pure_eq_ok_iff] at h
    obtain ⟨_, -, _, -, rfl⟩ := h
    exact nodup_firstOccurrences _

end Records

/-- Where no given part is open, the search succeeds exactly if each given chain ends at a root
within the bound, and answers the rows of the two chains that are not excluded, each id where it
occurs first. Where a given part is open, it answers the first root that is not excluded, if there
is one. No answer has an excluded row or an id twice. -/
theorem beneficiaries_follow_chains (r : Records) (schemas : Table Nat CredentialSchema)
    (issuer verifier : Option PermissionId) (maxDepth : Nat) :
    (∀ schemaId schema, r.Parties issuer verifier schemaId →
      schemas.get? schemaId = some schema →
      (¬ Records.HasOpenPart schema issuer verifier → ∀ rows,
        r.beneficiaries schemas issuer verifier maxDepth = .ok rows ↔
          ∃ issuerChain verifierChain, r.Ascends issuer maxDepth issuerChain ∧
            r.Ascends verifier maxDepth verifierChain ∧
            rows = ((issuerChain ++ verifierChain).filter (!·.isBarred)).eraseDupsBy
              (·.id == ·.id)) ∧
      (Records.HasOpenPart schema issuer verifier →
        (∃ id p, r.beneficiaries schemas issuer verifier maxDepth = .ok [p] ∧
          r.IsRootOf schemaId id p ∧ ∀ other q, r.IsRootOf schemaId other q → id ≤ other) ∨
        r.beneficiaries schemas issuer verifier maxDepth = .ok [] ∧
          ∀ id p, ¬ r.IsRootOf schemaId id p)) ∧
    ∀ rows, r.beneficiaries schemas issuer verifier maxDepth = .ok rows →
      (∀ p ∈ rows, p.isBarred = false) ∧ (rows.map (·.id)).Nodup := by
  refine ⟨?_, fun rows h => ⟨fun p => Records.isBarred_of_mem_beneficiaries h,
    Records.nodup_of_beneficiaries h⟩⟩
  intro schemaId schema hparties hs
  rw [hparties.beneficiaries hs]
  constructor
  · intro hclosed rows
    rw [Records.hasOpenPart_iff] at hclosed
    simp only [hclosed, Bool.false_eq_true, if_false, Guard.bind_eq_ok_iff, Guard.pure_eq_ok_iff,
      Records.chainOption_eq_ok_iff, Records.payable, Records.firstOccurrences_eq]
    constructor
    · rintro ⟨above, ha, beyond, hb, rfl⟩
      exact ⟨above, beyond, ha, hb, rfl⟩
    · rintro ⟨above, beyond, ha, hb, rfl⟩
      exact ⟨above, ha, beyond, hb, rfl⟩
  · intro hopen
    rw [if_pos (Records.hasOpenPart_iff.mp hopen)]
    cases hr : r.root? schemaId with
    | none => exact .inr ⟨rfl, Records.root?_eq_none hr⟩
    | some p =>
      obtain ⟨id, hp, hlow⟩ := Records.root?_eq_some hr
      exact .inl ⟨id, p, rfl, hp, hlow⟩

namespace Sample

def row (id : PermissionId) (kind : PermissionKind) (validator : Option PermissionId) :
    Permission :=
  { Permission.fresh id 1 kind did issuer noon with validator := validator }

/-- An issuer and a verifier below a revoked grantor, and an issuer that validates itself. -/
def tangled : Records :=
  { Records.empty with
    permissions := .ofList [(1, row 1 .ecosystem none),
      (2, { row 2 .issuerGrantor (some 1) with revoked := some noon }),
      (3, row 3 .issuer (some 2)), (4, row 4 .verifier (some 2)), (5, row 5 .issuer (some 5))] }

theorem tangled_parties (verifier : PermissionId) (h : verifier = 4 ∨ verifier = 5) :
    tangled.Parties (some 3) (some verifier) 1 where
  given := .inl rfl
  rows := by
    rintro id (⟨⟨⟩⟩ | ⟨⟨⟩⟩)
    · exact ⟨_, rfl, rfl⟩
    · rcases h with rfl | rfl <;> exact ⟨_, rfl, rfl⟩

theorem tangled_endless (rows : List Permission) : ¬ tangled.Chain (some 5) rows := by
  intro h
  cases h with
  | up hp hc =>
    cases hp
    have heq := congrArg List.length ((Records.Chain.up rfl hc).unique hc)
    simp at heq

end Sample

/-- The chains share the root, which is paid once, and the revoked grantor is passed over. The row
that validates itself makes the search fail. -/
theorem beneficiaries_follow_chains_tangled :
    Sample.tangled.beneficiaries Sample.host.schemas (some 3) (some 4) 2 =
        .ok [Sample.row 3 .issuer (some 2), Sample.row 1 .ecosystem none,
          Sample.row 4 .verifier (some 2)] ∧
      ∀ maxDepth rows,
        Sample.tangled.beneficiaries Sample.host.schemas (some 3) (some 5) maxDepth ≠
          .ok rows := by
  have hclosed : ∀ verifier, ¬ Records.HasOpenPart Sample.schema (some 3) verifier := by
    simp [Records.HasOpenPart, Sample.schema]
  have hroot : Sample.tangled.Chain (some 2) _ := .up rfl (.up rfl .done)
  constructor
  · have hall := (beneficiaries_follow_chains Sample.tangled Sample.host.schemas (some 3) (some 4)
      2).1 1 Sample.schema (Sample.tangled_parties 4 (.inl rfl)) rfl
    exact (hall.1 (hclosed _) _).mpr ⟨_, _, ⟨.up rfl hroot, le_rfl⟩, ⟨.up rfl hroot, le_rfl⟩, rfl⟩
  · intro maxDepth rows h
    have hall := (beneficiaries_follow_chains Sample.tangled Sample.host.schemas (some 3) (some 5)
      maxDepth).1 1 Sample.schema (Sample.tangled_parties 5 (.inr rfl)) rfl
    obtain ⟨_, chain, -, ⟨hc, -⟩, -⟩ := (hall.1 (hclosed _) rows).mp h
    exact Sample.tangled_endless chain hc

end TrustPermit
