import TrustPermit.Proofs.Development

/-! # The hierarchy of permissions

Messages build trees: a permission is a root, or its validator is an earlier permission of the same
schema whose kind may validate it. The kinds bound the way up, so a walk to the root ends well
whenever it may take three hops.
-/

namespace TrustPermit

namespace PermissionKind

/-- Which kinds validate which, whatever the modes of the schema. -/
def validations : List (PermissionKind × PermissionKind) :=
  [(ecosystem, issuerGrantor), (ecosystem, verifierGrantor), (ecosystem, issuer),
    (ecosystem, verifier), (issuerGrantor, issuer), (verifierGrantor, verifier), (issuer, holder)]

/-- How many validators a permission has above it at most. -/
def level : PermissionKind → Nat
  | ecosystem | trustRegistry => 0
  | issuerGrantor | verifierGrantor => 1
  | issuer | verifier => 2
  | holder => 3

theorem level_le (k : PermissionKind) : k.level ≤ 3 := by
  cases k <;> decide

theorem level_lt {v k : PermissionKind} (h : (v, k) ∈ validations) : v.level < k.level := by
  have hall : ∀ pair ∈ validations, pair.1.level < pair.2.level := by decide
  exact hall (v, k) h

end PermissionKind

theorem CredentialSchema.checkValidator_ok {s : CredentialSchema} {validator : Permission}
    {requested : PermissionKind} {u : Unit} (h : s.checkValidator validator requested = .ok u) :
    (validator.kind, requested) ∈ PermissionKind.validations := by
  simp only [checkValidator, Guard.bind_eq_ok_iff, Guard.demand_eq_ok_iff] at h
  obtain ⟨expected, he, hk⟩ := h
  rw [hk]
  cases requested with
  | issuerGrantor | verifierGrantor =>
    simp only [validatorKind, grantorValidator, Guard.bind_eq_ok_iff, Guard.pure_eq_ok_iff] at he
    obtain ⟨_, -, rfl⟩ := he
    decide
  | issuer | verifier =>
    simp only [validatorKind, memberValidator] at he
    split at he <;> cases he <;> decide
  | holder =>
    cases he
    decide
  | ecosystem | trustRegistry => cases he

theorem Records.root?_ok {r : Records} {schemaId : Nat} {root : Permission}
    (h : r.root? schemaId = some root) : root.kind = .ecosystem ∧ root.schemaId = schemaId := by
  have hk := List.find?_some h
  have hm := List.mem_filter.mp (List.mem_of_find?_eq_some h)
  simp only [Bool.and_eq_true, decide_eq_true_eq] at hk
  exact ⟨hk.1, by simpa using hm.2⟩

namespace World

variable {w : World} {now : Instant}

theorem admitApplication_validates {a : Application} {validator : Permission}
    {schema : CredentialSchema} (h : w.admitApplication a now = .ok (validator, schema)) :
    (validator.kind, a.kind) ∈ PermissionKind.validations := by
  simp only [admitApplication, Guard.bind_eq_ok_iff, Guard.pure_eq_ok_iff, Prod.mk.injEq] at h
  obtain ⟨_, -, _, -, _, -, _, hc, rfl, rfl⟩ := h
  exact CredentialSchema.checkValidator_ok hc

theorem admitSelfGrant_root {g : SelfGrant} {root : Permission}
    (h : w.admitSelfGrant g now = .ok root) :
    root.kind = .ecosystem ∧ root.schemaId = g.schemaId := by
  simp only [admitSelfGrant, Guard.bind_eq_ok_iff, Guard.expect_eq_ok_iff] at h
  obtain ⟨_, -, _, -, _, -, hr⟩ := h
  exact Records.root?_ok hr

end World

theorem Message.selfGrant_kind {signer : Address} {g : SelfGrant}
    (h : Message.check ⟨signer, .create g⟩ = .ok ()) : g.kind = .issuer ∨ g.kind = .verifier := by
  simp only [check, Guard.bind_eq_ok_iff, Guard.demand_eq_ok_iff] at h
  obtain ⟨_, -, _, hk, -⟩ := h
  exact hk

/-- A permission is a root, or its validator may validate it. -/
inductive Permission.Placed (r : Records) (p : Permission) : Prop where

  | root : p.validator = none → p.kind = .ecosystem → Placed r p

  | under {v : PermissionId} {q : Permission} : p.validator = some v → r.get? v = some q →
      q.schemaId = p.schemaId → (q.kind, p.kind) ∈ PermissionKind.validations → Placed r p

def Records.IsHierarchy (r : Records) : Prop := ∀ id p, r.get? id = some p → p.Placed r

namespace Permission.Placed

variable {r r' : Records} {p q : Permission}

theorem develops {m : Message} {now : Instant} (h : p.Placed r) (hd : r.Develops m now r')
    (ho : p.SameOrigin q) : q.Placed r' := by
  cases h with
  | root hv hk => exact .root (ho.validator.trans hv) (ho.kind.trans hk)
  | under hv hw hs hk =>
    obtain ⟨w', hw', hb⟩ := hd.kept hw
    refine .under (ho.validator.trans hv) hw' ?_ ?_
    · rw [hb.sameOrigin.schemaId, hs, ho.schemaId]
    · rw [hb.sameOrigin.kind, ho.kind]
      exact hk

end Permission.Placed

/-- A row that a message creates has a place among those of before. -/
theorem Outcome.placed {e e' : Engine} {now : Instant} {m : Message} {r : Response}
    (hs : e.records.Sound) (hc : m.check = .ok ()) (h : Outcome e now m r e') {id : PermissionId}
    {q : Permission} (hq : e'.records.get? id = some q) (hn : e.records.get? id = none) :
    q.Placed e.records := by
  have hnew := (h.develops hs).fresh hq hn
  -- A row stored under an id that had none is the one stored last.
  have hlast : ∀ {p}, ((e.records.allocate Records.permissionCounter).insert p).get? id = some q →
      q = p := by
    intro p hp
    rcases Records.get?_stored hp with ⟨-, hq⟩ | hp
    · exact hq
    · cases hn.symm.trans hp
  cases h with
  | start ha =>
    obtain rfl := hlast hq
    exact .under rfl (World.admitApplication_ok ha) rfl (World.admitApplication_validates ha)
  | createRoot =>
    obtain rfl := hlast hq
    exact .root rfl rfl
  | @create signer g root id ha =>
    obtain rfl := hlast hq
    obtain ⟨v, hv⟩ := World.admitSelfGrant_ok ha
    obtain ⟨hk, hsc⟩ := World.admitSelfGrant_root ha
    refine .under rfl (hs.get?_id hv) hsc ?_
    change (root.kind, g.kind) ∈ _
    rcases Message.selfGrant_kind hc with hg | hg <;> rw [hk, hg] <;> decide
  | _ => rcases hnew with hm | hm | hm <;> cases hm

namespace Engine

variable {e : Engine}

theorem step_hierarchy (hs : e.records.Sound) (hh : e.records.IsHierarchy) (s : Step) :
    (e.step s).records.IsHierarchy := by
  cases s using e.step_cases with
  | surround host => exact hh
  | refused now m _ hstep => rwa [hstep]
  | accepted now m r e' hd hstep h =>
    rw [hstep]
    have hdev := h.develops hs
    intro id q hq
    rcases hdev.row hq with ⟨p, hp, hb⟩ | ⟨hn, -⟩
    · exact (hh id p hp).develops hdev hb.sameOrigin
    · exact (h.placed hs (deliver_eq_ok_iff.mp hd).1 hq hn).develops hdev (.refl q)

theorem run_hierarchy (hs : e.records.Sound) (hh : e.records.IsHierarchy) (steps : List Step) :
    (e.run steps).records.IsHierarchy :=
  (run_invariant (P := fun e => e.records.Sound ∧ e.records.IsHierarchy) ⟨hs, hh⟩
    (fun _ s h => ⟨step_sound h.1, step_hierarchy h.1 h.2 s⟩) steps).2

theorem new_hierarchy {host : Host} {params : Params} {authority : Address}
    (h : new host params authority = .ok e) : e.records.IsHierarchy :=
  new_rows h

end Engine

inductive Records.Chain (r : Records) : Option PermissionId → List Permission → Prop where

  | done : Chain r none []

  | up {id : PermissionId} {p : Permission} {rows : List Permission} : r.get? id = some p →
      Chain r p.validator rows → Chain r (some id) (p :: rows)

namespace Records

variable {r : Records} {id : PermissionId} {p : Permission} {rows : List Permission}

theorem Chain.walkFrom (hs : r.Sound) {stop : Fault} {start : Option PermissionId}
    (h : r.Chain start rows) {hops : Nat} {seen : List PermissionId}
    (hseen : ∀ id, start = some id → ∀ other ∈ seen, id < other) :
    r.walkFrom stop hops seen start =
      ⟨rows.take hops, if rows.length ≤ hops then none else some stop⟩ := by
  induction h generalizing hops seen with
  | done => simp [Records.walkFrom]
  | @up id p rows hp _ ih =>
    cases hops with
    | zero => simp [Records.walkFrom]
    | succ hops =>
      have hfresh : id ∉ seen := by
        intro hm
        exact Nat.lt_irrefl id (hseen id rfl id hm)
      -- Validators come earlier, so no id that was passed is met again.
      have hearlier : ∀ v, p.validator = some v → ∀ other ∈ id :: seen, v < other := by
        intro v hv other hm
        have hlt := hs.validator_lt hp hv
        rcases List.mem_cons.mp hm with rfl | hm
        · exact hlt
        · exact hlt.trans (hseen id rfl other hm)
      simp [Records.walkFrom, hfresh, hp, ih hearlier]

theorem Chain.walk (hs : r.Sound) (h : r.Chain (some id) rows) (depth : Nat) :
    r.walk id depth = ⟨rows.take (depth + 1),
      if rows.length ≤ depth + 1 then none else some (.endlessChain id depth)⟩ :=
  h.walkFrom hs (by rintro _ _ _ ⟨⟩)

/-- From every row a chain leads to the root of its tree, no longer than the kind of the row
allows. -/
theorem IsHierarchy.exists_chain (hs : r.Sound) (hh : r.IsHierarchy) (hp : r.get? id = some p) :
    ∃ rows root, r.Chain (some id) rows ∧ rows.length ≤ p.kind.level + 1 ∧
      rows.getLast? = some root ∧ root.validator = none ∧ root.kind = .ecosystem ∧
      ∀ q ∈ rows, q.schemaId = p.schemaId := by
  induction id using Nat.strongRecOn generalizing p with
  | ind id ih =>
    cases hh id p hp with
    | root hv hk =>
      refine ⟨[p], p, .up hp (hv ▸ .done), Nat.le_add_left 1 _, rfl, hv, hk, ?_⟩
      intro q hq
      rw [List.mem_singleton.mp hq]
    | @under v w hv hw hsc hk =>
      obtain ⟨rows, root, hc, hlen, hlast, hroot, heco, hall⟩ :=
        ih v (hs.validator_lt hp hv) hw
      have hlevel := PermissionKind.level_lt hk
      refine ⟨p :: rows, root, .up hp (hv ▸ hc), ?_, by simp [List.getLast?_cons, hlast], hroot,
        heco, ?_⟩
      · simp only [List.length_cons]
        omega
      · intro q hq
        rcases List.mem_cons.mp hq with rfl | hq
        · rfl
        · rw [hall q hq, hsc]

end Records

/-- Rows with a validator come after it and may be validated by it, under the same schema; the
others are roots. So at most four rows lead from any row to its root, and a walk that may take
three hops sees them all. -/
theorem permissions_form_hierarchy {host : Host} {params : Params} {authority : Address}
    {e : Engine} (hn : Engine.new host params authority = .ok e) (steps : List Step) :
    ∀ id p, (e.run steps).records.get? id = some p →
      p.id = id ∧
      (∀ v, p.validator = some v → v < id ∧ ∃ q, (e.run steps).records.get? v = some q ∧
        q.schemaId = p.schemaId ∧ (q.kind, p.kind) ∈ PermissionKind.validations) ∧
      (p.validator = none → p.kind = .ecosystem) ∧
      ∃ rows root, (e.run steps).records.Chain (some id) rows ∧ rows.length ≤ 4 ∧
        rows.getLast? = some root ∧ root.validator = none ∧ root.kind = .ecosystem ∧
        root.schemaId = p.schemaId ∧
        (∀ depth, 3 ≤ depth → (e.run steps).records.chain id depth = .ok rows) ∧
        ∀ depth f, ((e.run steps).records.walk id depth).fault = some f →
          depth < 3 ∧ f = .endlessChain id depth := by
  have hs := Engine.run_sound (Engine.new_sound hn) steps
  have hh := Engine.run_hierarchy (Engine.new_sound hn) (Engine.new_hierarchy hn) steps
  intro id p hp
  obtain ⟨rows, root, hc, hlen, hlast, hv, hk, hall⟩ := hh.exists_chain hs hp
  have hfour : rows.length ≤ 4 := hlen.trans (Nat.succ_le_succ p.kind.level_le)
  refine ⟨hs.id_eq hp, ?_, ?_, rows, root, hc, hfour, hlast, hv, hk,
    hall root (List.mem_of_getLast? hlast), ?_, ?_⟩
  · intro v hv
    cases hh id p hp with
    | root hr => cases hv.symm.trans hr
    | under hv' hq hsc hk =>
      cases hv.symm.trans hv'
      exact ⟨hs.validator_lt hp hv, _, hq, hsc, hk⟩
  · intro hv
    cases hh id p hp with
    | root _ hk => exact hk
    | under hv' => cases hv.symm.trans hv'
  · intro depth hd
    have hle : rows.length ≤ depth + 1 := hfour.trans (Nat.succ_le_succ hd)
    simp [Records.chain, hc.walk hs, hle, List.take_of_length_le hle]
  · intro depth f hf
    rw [hc.walk hs] at hf
    simp only at hf
    split at hf
    · cases hf
    · constructor
      · omega
      · exact (Option.some.inj hf).symm

/-- Three rows lead from the issuer to the root, and a walk that may take two hops sees them. -/
theorem permissions_form_hierarchy_issuer :
    ∃ rows root, (Sample.engine.run Sample.history).records.Chain (some 3) rows ∧
      rows.length ≤ 4 ∧ rows.getLast? = some root ∧ root.kind = .ecosystem ∧
      (Sample.engine.run Sample.history).records.chain 3 3 = .ok rows := by
  have hp : ((Sample.engine.run Sample.history).records.get? 3).isSome = true := by decide +kernel
  obtain ⟨p, hp⟩ := Option.isSome_iff_exists.mp hp
  obtain ⟨-, -, -, rows, root, hc, hlen, hlast, -, hk, -, hchain, -⟩ :=
    permissions_form_hierarchy Sample.engine_new Sample.history 3 p hp
  exact ⟨rows, root, hc, hlen, hlast, hk, hchain 3 le_rfl⟩

end TrustPermit
