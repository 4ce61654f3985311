import TrustPermit.Engine.Basic

/-! # Queries

Read-only views of the records. Lists come in pages, by time of modification and then by id.
-/

namespace TrustPermit

structure Page where
  /-- Only records modified after this. -/
  modifiedAfter : Option Instant
  /-- The size of the page, if not the one by default. -/
  size : Option Nat
  deriving DecidableEq

/-- Asks for the permissions with which a subject can act. -/
structure SubjectFilter where
  did : Did
  kind : PermissionKind
  schemaId : Nat
  country : Option Country
  /-- The instant to act at, if not the time of the block. -/
  at? : Option Instant
  deriving DecidableEq

/-- Ascending time of modification, then ascending key. -/
def modifiedLE {κ : Type} [Ord κ] (a b : Instant × κ) : Bool :=
  a.1 < b.1 || (a.1 = b.1 && (compare a.2 b.2).isLE)

namespace Engine

def permission (e : Engine) (id : PermissionId) : Except Fault Permission := e.records.require id

def session (e : Engine) (id : String) : Except Fault Session :=
  expect (e.records.session? id) (.sessionNotFound id)

def pageLimit (e : Engine) (page : Page) : Except Fault Nat := do
  let size := page.size.getD e.params.defaultPageSize
  demand (0 < size ∧ size ≤ e.params.maxPageSize)
    (.inconsistent (.pageSize e.params.maxPageSize size))
  return size

def permissions (e : Engine) (page : Page) : Except Fault (List Permission) := do
  let size ← e.pageLimit page
  let rows := e.records.permissions.values.filter fun p => page.modifiedAfter.all (· < p.modified)
  return (rows.mergeSort fun a b => modifiedLE (a.modified, a.id) (b.modified, b.id)).take size

def sessions (e : Engine) (page : Page) : Except Fault (List Session) := do
  let size ← e.pageLimit page
  let rows := e.records.sessions.values.filter fun s => page.modifiedAfter.all (· < s.modified)
  return (rows.mergeSort fun a b => modifiedLE (a.modified, a.id) (b.modified, b.id)).take size

/-- The permissions of a subject that can act and serve the country asked for, by id. -/
def permissionsOf (e : Engine) (f : SubjectFilter) (now : Instant) : List Permission :=
  (e.records.ofSchema f.schemaId).filter fun p =>
    p.did = f.did && p.kind = f.kind && p.serves f.country && p.canActAt (f.at?.getD now)

/-- Who would be paid for an exchange; 0 stands for a part that nobody plays. -/
def beneficiaries (e : Engine) (issuer verifier : Nat) : Except Fault (List Permission) :=
  e.records.beneficiaries e.host.schemas (PermissionId.given? issuer)
    (PermissionId.given? verifier) e.params.maxChainDepth

end Engine

end TrustPermit
