import TrustPermit.Permission.Changes

/-! # Records

The permissions and sessions that the engine keeps, and the counters that hand out ids. Rows are
overwritten but never removed, and the authorisations of a session are only ever appended.
-/

namespace TrustPermit

/-- Which permission carried out an exchange, which one it served, and through which wallet
agent. -/
structure Authorization where
  executor : Option PermissionId
  beneficiary : Option PermissionId
  walletAgent : Option PermissionId
  deriving DecidableEq

structure Session where
  /-- Chosen by the caller. -/
  id : String
  controller : Address
  agent : PermissionId
  created : Instant
  modified : Instant
  authorizations : List Authorization
  deriving DecidableEq

namespace Session

def holds (s : Session) (a : Authorization) : Bool := s.authorizations.contains a

/-- A session without authorisations. -/
def fresh (id : String) (controller : Address) (agent : PermissionId) (now : Instant) : Session :=
  ⟨id, controller, agent, now, now, []⟩

def append (s : Session) (a : Authorization) (now : Instant) : Session :=
  { s with authorizations := s.authorizations ++ [a], modified := now }

end Session

structure Records where
  permissions : Table PermissionId Permission
  sessions : Table String Session
  /-- The last id handed out, by kind of record. -/
  counters : Table String Nat
  deriving DecidableEq

namespace Records

def empty : Records := ⟨∅, ∅, ∅⟩

instance : Inhabited Records := ⟨empty⟩

/-- The counter of permission ids. -/
def permissionCounter : String := "permission"

def counter (r : Records) (entity : String) : Nat := (r.counters.get? entity).getD 0

/-- The next id of a kind of record; the first is 1. -/
def nextId (r : Records) (entity : String) : Except Fault Nat := do
  demand (r.counter entity + 1 < amountBound) (.overflow .idCounter)
  return r.counter entity + 1

def allocate (r : Records) (entity : String) : Records :=
  { r with counters := r.counters.insert entity (r.counter entity + 1) }

def get? (r : Records) (id : PermissionId) : Option Permission := r.permissions.get? id

def require (r : Records) (id : PermissionId) : Except Fault Permission :=
  expect (r.get? id) (.permissionNotFound id)

def insert (r : Records) (p : Permission) : Records :=
  { r with permissions := r.permissions.insert p.id p }

def modify (r : Records) (id : PermissionId) (f : Permission → Permission) : Records :=
  { r with permissions := r.permissions.modify id f }

@[simp] theorem get?_insert (r : Records) (p : Permission) (id : PermissionId) :
    (r.insert p).get? id = if id = p.id then some p else r.get? id := by
  simp [insert, get?]

@[simp] theorem get?_modify (r : Records) (id : PermissionId) (f : Permission → Permission)
    (other : PermissionId) :
    (r.modify id f).get? other = if id = other then (r.get? other).map f else r.get? other := by
  simp [modify, get?]

def ofSchema (r : Records) (schemaId : Nat) : List Permission :=
  r.permissions.values.filter (·.schemaId = schemaId)

def session? (r : Records) (id : String) : Option Session := r.sessions.get? id

def insertSession (r : Records) (s : Session) : Records :=
  { r with sessions := r.sessions.insert s.id s }

def raiseDeposit (r : Records) (id : PermissionId) (amount : Nat) : Except Fault Records := do
  let p ← r.require id
  demand (p.deposit + amount < amountBound) (.overflow .permissionDeposit)
  return r.modify id (·.raiseDeposit amount)

/-- The permissions validated by the given one no longer hold a share for it. -/
def clearShares (r : Records) (id : PermissionId) : Records :=
  { r with permissions := r.permissions.mapValues fun _ p =>
      if p.validator = some id then p.withoutShare else p }

end Records

end TrustPermit
