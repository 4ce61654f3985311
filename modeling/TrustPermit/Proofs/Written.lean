import TrustPermit.Json.Message
import TrustPermit.Json.Permission
import TrustPermit.Json.Report
import TrustPermit.Proofs.Instants
import TrustPermit.Proofs.Run

/-! # Records read back

A record is written with every field under its name, and the reader looks each name up. So a record
comes back whole once every field does: identities are their texts, rates and instants are read
back from theirs, and numbers fit the bound of their field.
-/

namespace TrustPermit

namespace Json

/-- The reader takes back whatever the writer writes, and takes no null for a value. -/
structure Inverts {α : Type} (read : Json → Option α) (write : α → Json) : Prop where
  read_write : ∀ a, read (write a) = some a
  read_null : read .null = none

theorem below?_ofNat {bound n : Nat} (h : n < bound) : (ofNat n).below? bound = some n :=
  if_pos ⟨Int.natCast_nonneg n, Int.ofNat_lt.mpr h⟩

theorem amount?_ofNat {n : Nat} (h : n < amountBound) : (ofNat n).amount? = some n :=
  below?_ofNat h

theorem optional?_of_some {α : Type} {read : Json → Option α} {j : Json} {a : α}
    (hnull : read .null = none) (h : read j = some a) : j.optional? read = some (some a) := by
  cases j with
  | null => rw [hnull] at h; cases h
  | _ => exact congrArg (Option.map some) h

theorem optional?_ofOption {α : Type} {read : Json → Option α} {write : α → Json} {o : Option α}
    (hnull : read .null = none) (h : ∀ a ∈ o, read (write a) = some a) :
    (ofOption write o).optional? read = some o := by
  cases o with
  | none => rfl
  | some a => exact optional?_of_some hnull (h a rfl)

theorem list?_map {α : Type} {read : Json → Option α} {write : α → Json} {as : List α}
    (h : ∀ a ∈ as, read (write a) = some a) : list? read (.array (as.map write)) = some as := by
  change (as.map write).mapM read = some as
  induction as with
  | nil => rfl
  | cons a as ih =>
    rw [List.map_cons, List.mapM_cons, h a List.mem_cons_self,
      Option.bind_eq_bind, Option.bind_some, ih fun b hb => h b (List.mem_cons_of_mem a hb)]
    rfl

end Json

theorem Address.inverts : Json.Inverts ofJson? toJson where
  read_write a := by
    change (parse a.text).toOption = some a
    rw [parse_eq_ok_iff.mpr rfl]
    rfl
  read_null := rfl

theorem Did.inverts : Json.Inverts ofJson? toJson where
  read_write _ := parse?_eq_some_iff.mpr rfl
  read_null := rfl

theorem Country.inverts : Json.Inverts ofJson? toJson where
  read_write _ := parse?_eq_some_iff.mpr rfl
  read_null := rfl

theorem Digest.inverts : Json.Inverts ofJson? toJson where
  read_write _ := parse?_eq_some_iff.mpr rfl
  read_null := rfl

theorem Rate.inverts : Json.Inverts ofJson? toJson where
  read_write r := congrArg Except.toOption r.parse_toText
  read_null := rfl

theorem Instant.inverts : Json.Inverts ofJson? toJson where
  read_write t := by
    rw [toJson, ofJson?, Json.text?, Option.bind_eq_bind, Option.bind_some]
    exact t.parseRelaxed?_toFullText
  read_null := rfl

theorem PermissionKind.inverts : Json.Inverts ofJson? toJson where
  read_write k := by cases k <;> rfl
  read_null := rfl

theorem ValidationStage.inverts : Json.Inverts ofJson? toJson where
  read_write s := by cases s <;> rfl
  read_null := rfl

section

variable {α β : Type} {r : Fields} {name : String} {read : Json → Option α} {write : α → Json}
  {a : α} {j : Json} {b : β}

theorem known_then {o : Option α} {f : α → Option β} (h : o = some a) (hf : f a = some b) :
    (o >>= f) = some b :=
  Option.bind_eq_some_iff.mpr ⟨a, h, hf⟩

namespace Fields

variable {f : α → Option β} {g : Option α → Option β} {o : Option α}

theorem read_then (hg : r.get name = j) (h : read j = some a) (hf : f a = some b) :
    (r.read? name read >>= f) = some b :=
  known_then ((congrArg read hg).trans h) hf

theorem optional_then (hg : r.get name = j) (h : j.optional? read = some o)
    (hf : g o = some b) : (r.optional? name read >>= g) = some b :=
  known_then ((congrArg (Json.optional? read) hg).trans h) hf

end Fields

/-- An object is read as the fields it was written with, whatever names are asked for. -/
theorem Json.record_then {fields : Fields} {names : List String} {f : Fields → Option β}
    (hf : f fields = some b) : ((object fields).record? names >>= f) = some b :=
  hf

theorem Json.Inverts.field {f : α → Option β} (hi : Inverts read write)
    (hg : r.get name = write a) (hf : f a = some b) : (r.read? name read >>= f) = some b :=
  Fields.read_then hg (hi.read_write a) hf

theorem Json.Inverts.optional {g : Option α → Option β} {o : Option α} (hi : Inverts read write)
    (hg : r.get name = ofOption write o) (hf : g o = some b) :
    (r.optional? name read >>= g) = some b :=
  Fields.optional_then hg (optional?_ofOption hi.read_null fun a _ => hi.read_write a) hf

end

namespace Fields

variable {β : Type} {r : Fields} {name : String} {b : β}

theorem amount_then {f : Nat → Option β} {n : Nat} (hn : n < amountBound)
    (hg : r.get name = .ofNat n) (hf : f n = some b) :
    (r.read? name Json.amount? >>= f) = some b :=
  read_then hg (Json.amount?_ofNat hn) hf

theorem optionalAmount_then {g : Option Nat → Option β} {o : Option Nat}
    (ho : ∀ n ∈ o, n < amountBound) (hg : r.get name = .ofOption .ofNat o) (hf : g o = some b) :
    (r.optional? name Json.amount? >>= g) = some b :=
  optional_then hg (Json.optional?_ofOption rfl fun n hn => Json.amount?_ofNat (ho n hn)) hf

theorem text_then {f : String → Option β} {s : String} (hg : r.get name = .text s)
    (hf : f s = some b) : (r.read? name Json.text? >>= f) = some b :=
  read_then hg rfl hf

end Fields

structure Fees.Fits (fees : Fees) : Prop where
  validation : fees.validation < amountBound
  issuance : fees.issuance < amountBound
  verification : fees.verification < amountBound

namespace Permission

structure Fits (p : Permission) : Prop where
  id : p.id < amountBound
  schemaId : p.schemaId < amountBound
  validator : ∀ v ∈ p.validator, v < amountBound
  fees : p.fees.Fits
  deposit : p.deposit < amountBound
  slashedDeposit : p.slashedDeposit < amountBound
  repaidDeposit : p.repaidDeposit < amountBound
  escrowedFees : p.escrowedFees < amountBound
  escrowedDeposit : p.escrowedDeposit < amountBound
  validatorShare : p.validatorShare < amountBound

theorem ofFields?_fieldValues {p : Permission} (hp : p.Fits) :
    ofFields? (fieldNames.zip p.fieldValues) = some p :=
  Fields.amount_then hp.id rfl <| Fields.amount_then hp.schemaId rfl <|
  PermissionKind.inverts.field rfl <| Did.inverts.field rfl <|
  Address.inverts.field rfl <| Country.inverts.optional rfl <|
  Fields.optionalAmount_then hp.validator rfl <| Instant.inverts.field rfl <|
  Address.inverts.field rfl <| Instant.inverts.field rfl <| Instant.inverts.optional rfl <|
  Instant.inverts.optional rfl <| Fields.amount_then hp.fees.validation rfl <|
  Fields.amount_then hp.fees.issuance rfl <| Fields.amount_then hp.fees.verification rfl <|
  Rate.inverts.field rfl <| Rate.inverts.field rfl <| Fields.amount_then hp.deposit rfl <|
  Fields.amount_then hp.slashedDeposit rfl <| Fields.amount_then hp.repaidDeposit rfl <|
  Instant.inverts.optional rfl <| Address.inverts.optional rfl <|
  Instant.inverts.optional rfl <| Address.inverts.optional rfl <|
  Instant.inverts.optional rfl <| Address.inverts.optional rfl <|
  Instant.inverts.optional rfl <| Address.inverts.optional rfl <|
  Instant.inverts.optional rfl <| Address.inverts.optional rfl <|
  ValidationStage.inverts.field rfl <| Instant.inverts.field rfl <|
  Instant.inverts.optional rfl <| Instant.inverts.optional rfl <|
  Fields.amount_then hp.escrowedFees rfl <| Fields.amount_then hp.escrowedDeposit rfl <|
  Digest.inverts.optional rfl <| Fields.amount_then hp.validatorShare rfl rfl

theorem ofJson?_toJson {p : Permission} (hp : p.Fits) : ofJson? p.toJson = some p := by
  rw [ofJson?, toJson]
  exact Json.record_then (ofFields?_fieldValues hp)

end Permission

namespace Authorization

structure Fits (a : Authorization) : Prop where
  executor : ∀ id ∈ a.executor, id < amountBound
  beneficiary : ∀ id ∈ a.beneficiary, id < amountBound
  walletAgent : ∀ id ∈ a.walletAgent, id < amountBound

theorem ofJson?_toJson {a : Authorization} (ha : a.Fits) : ofJson? a.toJson = some a := by
  rw [ofJson?, toJson]
  exact Json.record_then <| Fields.optionalAmount_then ha.executor rfl <|
    Fields.optionalAmount_then ha.beneficiary rfl <|
    Fields.optionalAmount_then ha.walletAgent rfl rfl

end Authorization

namespace Session

structure Fits (s : Session) : Prop where
  agent : s.agent < amountBound
  authorizations : ∀ a ∈ s.authorizations, a.Fits

theorem ofJson?_toJson {s : Session} (hs : s.Fits) : ofJson? s.toJson = some s := by
  have hauthz := Json.list?_map fun a ha => Authorization.ofJson?_toJson (hs.authorizations a ha)
  rw [ofJson?, toJson]
  exact Json.record_then <| Fields.text_then rfl <| Address.inverts.field rfl <|
    Fields.amount_then hs.agent rfl <| Instant.inverts.field rfl <| Instant.inverts.field rfl <|
    Fields.read_then rfl hauthz rfl

end Session

namespace Params

structure Fits (p : Params) : Prop where
  maxChainDepth : p.maxChainDepth < countBound
  defaultPageSize : p.defaultPageSize < countBound
  maxPageSize : p.maxPageSize < countBound

/-- A field that is given is not taken from the defaults. -/
theorem given_then {α β : Type} {r : Fields} {name : String} {read : Json → Option α} {j : Json}
    {standard a : α} {f : α → Option β} {b : β} (hl : r.lookup name = some j) (h : read j = some a)
    (hf : f a = some b) : (given? r name read standard >>= f) = some b := by
  rw [given?, hl]
  exact known_then h hf

theorem ofJson?_toJson {p : Params} (hp : p.Fits) : ofJson? p.toJson = some p := by
  rw [toJson, ofJson?, fields?, Option.bind_eq_bind, Option.bind_some]
  exact given_then rfl (Rate.inverts.read_write p.depositRate) <| given_then rfl rfl <|
    given_then rfl rfl <| given_then rfl (Json.below?_ofNat hp.maxChainDepth) <|
    given_then rfl (Json.below?_ofNat hp.defaultPageSize) <|
    given_then rfl (Json.below?_ofNat hp.maxPageSize) rfl

end Params

structure Application.Fits (a : Application) : Prop where
  validator : a.validator < amountBound

structure RootGrant.Fits (g : RootGrant) : Prop where
  schemaId : g.schemaId < amountBound
  fees : g.fees.Fits

structure SelfGrant.Fits (g : SelfGrant) : Prop where
  schemaId : g.schemaId < amountBound
  verificationFee : g.verificationFee < amountBound

structure Exchange.Fits (x : Exchange) : Prop where
  issuer : x.issuer < amountBound
  verifier : x.verifier < amountBound
  agent : x.agent < amountBound
  walletAgent : x.walletAgent < amountBound

namespace Action

def Fits : Action → Prop
  | start a => a.Fits
  | validate id t => id < amountBound ∧ t.fees.Fits
  | createRoot g => g.Fits
  | create g => g.Fits
  | exchange x => x.Fits
  | slash id amount => id < amountBound ∧ amount < amountBound
  | setParams params => params.Fits
  | extend id _ => id < amountBound
  | renew id | revoke id | cancel id | requestTermination id | confirmTermination id
  | repay id => id < amountBound

variable {r : Fields}

theorem readId?_of_get {id : Nat} (h : id < amountBound) (hg : r.get "id" = .ofNat id) :
    readId? r = some id := by
  rw [readId?, Fields.read?, hg, Json.amount?_ofNat h]

theorem readFees?_of_get {fees : Fees} (h : fees.Fits)
    (hv : r.get "validation_fees" = .ofNat fees.validation)
    (hi : r.get "issuance_fees" = .ofNat fees.issuance)
    (hf : r.get "verification_fees" = .ofNat fees.verification) : readFees? r = some fees :=
  Fields.amount_then h.validation hv <| Fields.amount_then h.issuance hi <|
  Fields.amount_then h.verification hf rfl

theorem readKind?_of_get {kind : PermissionKind} (hg : r.get "type" = kind.toJson) :
    readKind? r = some kind := by
  rw [readKind?, Fields.read?, hg]
  cases kind <;> rfl

theorem idForm_read {action : Nat → Action} {id : Nat} (h : id < amountBound)
    (hg : r.get "id" = .ofNat id) : (idForm action).read? r = some (action id) :=
  congrArg (Option.map action) (readId?_of_get h hg)

end Action

namespace Message

def Fits (m : Message) : Prop := m.action.Fits

def fields (m : Message) : Fields :=
  (tagField, .text m.action.name) :: (m.action.signerField, m.signer.toJson) :: m.action.toFields

theorem readApplication?_fields {signer : Address} {a : Application}
    (ha : a.Fits) : Action.readApplication? (fields ⟨signer, .start a⟩) = some a :=
  known_then (Action.readKind?_of_get rfl) <| Fields.amount_then ha.validator rfl <|
  Did.inverts.field rfl <| Country.inverts.optional rfl rfl

theorem readTerms?_fields {signer : Address} {id : Nat} {t : Terms} (ht : t.fees.Fits) :
    Action.readTerms? (fields ⟨signer, .validate id t⟩) = some t :=
  Instant.inverts.optional rfl <| known_then (Action.readFees?_of_get ht rfl rfl rfl) <|
  Country.inverts.optional rfl <| Rate.inverts.field rfl <| Rate.inverts.field rfl <|
  Digest.inverts.optional rfl rfl

theorem readRootGrant?_fields {signer : Address} {g : RootGrant} (hg : g.Fits) :
    Action.readRootGrant? (fields ⟨signer, .createRoot g⟩) = some g :=
  Fields.amount_then hg.schemaId rfl <| Did.inverts.field rfl <| Country.inverts.optional rfl <|
  Instant.inverts.optional rfl <| Instant.inverts.optional rfl <|
  known_then (Action.readFees?_of_get hg.fees rfl rfl rfl) rfl

theorem readSelfGrant?_fields {signer : Address} {g : SelfGrant} (hg : g.Fits) :
    Action.readSelfGrant? (fields ⟨signer, .create g⟩) = some g :=
  Fields.amount_then hg.schemaId rfl <| known_then (Action.readKind?_of_get rfl) <|
  Did.inverts.field rfl <| Country.inverts.optional rfl <| Instant.inverts.optional rfl <|
  Instant.inverts.optional rfl <| Fields.amount_then hg.verificationFee rfl rfl

theorem readExchange?_fields {signer : Address} {x : Exchange} (hx : x.Fits) :
    Action.readExchange? (fields ⟨signer, .exchange x⟩) = some x :=
  Fields.text_then rfl <| Fields.amount_then hx.issuer rfl <| Fields.amount_then hx.verifier rfl <|
  Fields.amount_then hx.agent rfl <| Fields.amount_then hx.walletAgent rfl rfl

theorem form_read {m : Message} (hm : m.Fits) :
    ∃ form, Action.form? m.action.name = some form ∧ form.read? m.fields = some m.action := by
  obtain ⟨signer, action⟩ := m
  cases action with
  | start a => exact ⟨_, rfl, by simp only [readApplication?_fields hm, Option.map_some]⟩
  | renew id => exact ⟨_, rfl, Action.idForm_read hm rfl⟩
  | validate id t =>
    exact ⟨_, rfl, known_then (Action.readId?_of_get hm.1 rfl) <|
      known_then (readTerms?_fields hm.2) rfl⟩
  | extend id finish =>
    exact ⟨_, rfl, known_then (Action.readId?_of_get hm rfl) <| Instant.inverts.field rfl rfl⟩
  | revoke id => exact ⟨_, rfl, Action.idForm_read hm rfl⟩
  | cancel id => exact ⟨_, rfl, Action.idForm_read hm rfl⟩
  | requestTermination id => exact ⟨_, rfl, Action.idForm_read hm rfl⟩
  | confirmTermination id => exact ⟨_, rfl, Action.idForm_read hm rfl⟩
  | createRoot g => exact ⟨_, rfl, by simp only [readRootGrant?_fields hm, Option.map_some]⟩
  | create g => exact ⟨_, rfl, by simp only [readSelfGrant?_fields hm, Option.map_some]⟩
  | exchange x => exact ⟨_, rfl, by simp only [readExchange?_fields hm, Option.map_some]⟩
  | slash id amount =>
    exact ⟨_, rfl, known_then (Action.readId?_of_get hm.1 rfl) <| Fields.amount_then hm.2 rfl rfl⟩
  | repay id => exact ⟨_, rfl, Action.idForm_read hm rfl⟩
  | setParams params =>
    exact ⟨_, rfl, congrArg (Option.map Action.setParams) (Params.ofJson?_toJson hm)⟩

theorem get_signerField (m : Message) : m.fields.get m.action.signerField = m.signer.toJson := by
  obtain ⟨signer, action⟩ := m
  cases action <;> rfl

theorem ofJson?_toJson {m : Message} (hm : m.Fits) : ofJson? m.toJson = some m := by
  obtain ⟨form, hform, hread⟩ := form_read hm
  have htag : tagged? m.toJson = some (m.action.name, .object m.fields) := rfl
  rw [ofJson?]
  exact known_then htag <| known_then hform <| Json.record_then <| known_then hread <|
    Address.inverts.field m.get_signerField rfl

end Message

namespace Response

def Fits : Response → Prop
  | permissionCreated id => id < amountBound
  | sessionUpdated _ authorizations => authorizations < amountBound
  | empty => True

theorem ofJson?_toJson {r : Response} (hr : r.Fits) : ofJson? r.toJson = some r := by
  cases r with
  | permissionCreated id =>
    rw [toJson, ofJson?, Json.amount?_ofNat hr]
    rfl
  | sessionUpdated id n => exact Fields.text_then rfl <| Fields.amount_then hr rfl rfl
  | empty => rfl

end Response

namespace Event

theorem ofJson?_toJson (e : Event) : ofJson? e.toJson = some e := by
  have hpairs : Json.list? pairOfJson? (.array (e.attributes.map pairToJson)) =
      some e.attributes := Json.list?_map fun _ _ => rfl
  rw [ofJson?, toJson]
  exact Json.record_then <| Fields.text_then rfl <| Fields.read_then rfl hpairs rfl

end Event

/-- Whatever instants, rates and identities they hold, records whose numbers fit their fields are
read back from their JSON unchanged. -/
theorem records_read_back :
    (∀ p : Permission, p.Fits → Permission.ofJson? p.toJson = some p) ∧
      (∀ s : Session, s.Fits → Session.ofJson? s.toJson = some s) ∧
      (∀ m : Message, m.Fits → Message.ofJson? m.toJson = some m) ∧
      (∀ r : Response, r.Fits → Response.ofJson? r.toJson = some r) ∧
      (∀ e : Event, Event.ofJson? e.toJson = some e) ∧
      ∀ p : Params, p.Fits → Params.ofJson? p.toJson = some p :=
  ⟨fun _ => Permission.ofJson?_toJson, fun _ => Session.ofJson?_toJson,
    fun _ => Message.ofJson?_toJson, fun _ => Response.ofJson?_toJson, Event.ofJson?_toJson,
    fun _ => Params.ofJson?_toJson⟩

namespace Sample

def beforeYearZero : Instant := ⟨-62167219201, 500000000, by decide, by decide⟩

def leapSecond : Instant := ⟨1483228799, 1250000000, by decide, by decide⟩

def afterYear9999 : Instant := ⟨253402300800, 1, by decide, by decide⟩

def dated : Permission :=
  { Permission.fresh 3 1 .issuer did issuer beforeYearZero with
    validator := some 2
    modified := leapSecond
    effectiveUntil := some afterYear9999
    issuanceDiscount := ⟨1, by decide⟩
    deposit := 18446744073709551615
    slashedBy := some controller }

def datedSession : Session :=
  ⟨"s", issuer, 3, beforeYearZero, leapSecond, [⟨some 3, none, some 2⟩]⟩

end Sample

theorem records_read_back_dated :
    Permission.ofJson? Sample.dated.toJson = some Sample.dated ∧
      Session.ofJson? Sample.datedSession.toJson = some Sample.datedSession ∧
      Message.ofJson? (Message.toJson ⟨Sample.grantor, .extend 3 Sample.afterYear9999⟩) =
        some ⟨Sample.grantor, .extend 3 Sample.afterYear9999⟩ ∧
      Response.ofJson? (Response.toJson (.sessionUpdated "s" 1)) = some (.sessionUpdated "s" 1) ∧
      Params.ofJson? Params.standard.toJson = some .standard := by
  obtain ⟨hpermission, hsession, hmessage, hresponse, -, hparams⟩ := records_read_back
  have hfits : Sample.dated.Fits :=
    ⟨by decide, by decide, by decide, ⟨by decide, by decide, by decide⟩, by decide, by decide,
      by decide, by decide, by decide, by decide⟩
  have hauthz : ∀ a ∈ Sample.datedSession.authorizations, a.Fits := by
    intro a ha
    rw [List.mem_singleton.mp ha]
    exact ⟨by decide, by decide, by decide⟩
  have hextend : Message.Fits ⟨Sample.grantor, .extend 3 Sample.afterYear9999⟩ :=
    show 3 < amountBound by decide
  have hupdated : Response.Fits (.sessionUpdated "s" 1) := show 1 < amountBound by decide
  exact ⟨hpermission _ hfits, hsession _ ⟨by decide, hauthz⟩, hmessage _ hextend,
    hresponse _ hupdated, hparams _ ⟨by decide, by decide, by decide⟩⟩

end TrustPermit
