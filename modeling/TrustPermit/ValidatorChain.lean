import TrustPermit.Records

/-! # Chains of validators

From a permission the chain leads to its validator, to that one's validator, and on to a root.
The rows are data and may point anywhere, so a walk stops at a repeated id and at a bound on its
hops. Those on the chains of an issuer and a verifier share in the fees, except for excluded ones;
where anyone may create the permission themselves, the root of the schema takes every fee.
-/

namespace TrustPermit

/-- The rows that a walk saw, and the fault that ended it early. -/
structure Walk where
  visited : List Permission
  fault : Option Fault

namespace Records

/-- Walks on with `hops` rows to go. The ids in `seen` were passed already. -/
def walkFrom (r : Records) (stop : Fault) (hops : Nat) (seen : List PermissionId) :
    Option PermissionId → Walk
  | none => ⟨[], none⟩
  | some id =>
    match hops with
    | 0 => ⟨[], some stop⟩
    | hops + 1 =>
      if seen.contains id then ⟨[], some stop⟩
      else
        match r.get? id with
        | none => ⟨[], some (.permissionNotFound id)⟩
        | some p =>
          let rest := walkFrom r stop hops (id :: seen) p.validator
          ⟨p :: rest.visited, rest.fault⟩

/-- Walks from a permission to a root, over at most `maxDepth` hops. -/
def walk (r : Records) (start : PermissionId) (maxDepth : Nat) : Walk :=
  r.walkFrom (.endlessChain start maxDepth) (maxDepth + 1) [] (some start)

def chain (r : Records) (start : PermissionId) (maxDepth : Nat) :
    Except Fault (List Permission) :=
  let w := r.walk start maxDepth
  match w.fault with
  | none => .ok w.visited
  | some f => .error f

end Records

namespace Records

/-- The root of a schema that fees may go to: the first that is not excluded. -/
def root? (r : Records) (schemaId : Nat) : Option Permission :=
  (r.ofSchema schemaId).find? fun p => p.kind = .ecosystem && !p.isBarred

/-- Each id at its first occurrence. -/
def firstOccurrences : List Permission → List Permission
  | [] => []
  | p :: rest => p :: (firstOccurrences rest).filter (·.id ≠ p.id)

/-- The rows that fees may go to, each once. -/
def payable (rows : List Permission) : List Permission :=
  firstOccurrences (rows.filter (!·.isBarred))

def requireOption (r : Records) : Option PermissionId → Except Fault (Option Permission)
  | some id => (r.require id).map some
  | none => .ok none

/-- The schema that the participants share. -/
def commonSchema : Option Permission → Option Permission → Except Fault Nat
  | some i, some v =>
    if i.schemaId = v.schemaId then .ok i.schemaId
    else .error (.inconsistent (.differentSchemas i.id i.schemaId v.id v.schemaId))
  | some p, none => .ok p.schemaId
  | none, some p => .ok p.schemaId
  | none, none => .error (.inconsistent .noParticipant)

def chainOption (r : Records) (start : Option PermissionId) (maxDepth : Nat) :
    Except Fault (List Permission) :=
  match start with
  | some id => r.chain id maxDepth
  | none => .ok []

/-- Whether a part is played, and by anyone who likes. -/
def isOpenTo (part : Option PermissionId) (mode : ManagementMode) : Bool :=
  part.isSome && mode = .selfCreation

def beneficiaries (r : Records) (schemas : Table Nat CredentialSchema)
    (issuer verifier : Option PermissionId) (maxDepth : Nat) :
    Except Fault (List Permission) := do
  let issuerRow ← r.requireOption issuer
  let verifierRow ← r.requireOption verifier
  let schemaId ← commonSchema issuerRow verifierRow
  let schema ← expect (schemas.get? schemaId) (.schemaNotFound schemaId)
  if isOpenTo issuer schema.issuerMode || isOpenTo verifier schema.verifierMode then
    return (r.root? schemaId).toList
  else
    let issuerChain ← r.chainOption issuer maxDepth
    let verifierChain ← r.chainOption verifier maxDepth
    return payable (issuerChain ++ verifierChain)

end Records

end TrustPermit
