import ChessCrawl.Budget.WorkBudgets
import ChessCrawl.Lib.Serial

/-! Workspaces with their policies and service credentials: `storage/workspace_access.py`, and of
`storage/work_budgets.py` what administration and submissions do to a policy. Operations are transactions under
PostgreSQL's locks, advisory ones and those of rows and unique indexes. Workspaces are numbered. -/
namespace ChessCrawl.Workspaces
open ChessCrawl.Budget ChessCrawl.Lib
set_option autoImplicit false

/-- A character of the pattern `_TOKEN`. -/
def tokenChar (c : Char) : Bool := c.isAlphanum || c = '_' || c = '-'

/-- What `secrets.token_urlsafe(32)` returns. -/
structure Secret where
  text : String
  fits : text.toList.length = 43 ∧ text.toList.all tokenChar = true
deriving DecidableEq

def Secret.token (x : Secret) : String := "ccw_" ++ x.text

def validCredentialToken (token : String) : Bool :=
  decide (token.toList.take 4 = "ccw_".toList ∧ (token.toList.drop 4).length = 43) && (token.toList.drop 4).all tokenChar

structure Credential where
  id : String
  workspaceId : Nat
  tokenDigest : String
  createdAt : Int
  revokedAt : Option Int
deriving DecidableEq, Repr

structure Db where
  ledger : Ledger
  credentials : List Credential

theorem same_iff {p q : BudgetPolicy} : p.same q = true ↔ p = q := by
  constructor
  · intro h
    obtain ⟨v, hv⟩ := p
    obtain ⟨v', hv'⟩ := q
    have hvalue : v = v' := by
      funext f
      exact of_decide_eq_true (List.all_eq_true.mp h f f.mem_all)
    subst hvalue
    rfl
  · rintro rfl
    simp [BudgetPolicy.same]

instance : DecidableEq BudgetPolicy := fun p q => decidable_of_iff (p.same q = true) same_iff

/-- The commands and requests, with the identifiers, secrets and times that they draw. `submit` is the policy transaction
of a submission. -/
inductive Operation
  | provision (workspaceId : Nat) (policy : BudgetPolicy) (credentialId : String) (secret : Secret) (now : Int)
  | issue (workspaceId : Nat) (credentialId : String) (secret : Secret) (now : Int)
  | rotate (workspaceId : Nat) (credentialId : String) (secret : Secret) (now : Int)
  | revoke (workspaceId : Nat) (credentialId : String) (now : Int)
  | setPolicy (workspaceId : Nat) (policy : BudgetPolicy) (expectedVersion : Int)
  | submit (workspaceId : Nat) (policy : BudgetPolicy)
  | authenticate (token : String)
deriving DecidableEq

/-- The statements of the transactions. -/
inductive Action
  | require (workspaceId : Nat)
  | lockAccess (workspaceId : Nat)
  | create (workspaceId : Nat)
  | enter (workspaceId : Nat)
  | lockBudget (workspaceId : Nat)
  | install (workspaceId : Nat) (policy : BudgetPolicy) (managed : Bool)
  | replace (workspaceId : Nat) (policy : BudgetPolicy) (expectedVersion : Int)
  | revokeAll (workspaceId : Nat) (now : Int)
  | revokeOne (workspaceId : Nat) (credentialId : String) (now : Int)
  | insert (workspaceId : Nat) (credentialId : String) (secret : Secret) (now : Int)
  | lookup (token : String)

/-- Advisory locks, and the rows and index entries that an insert keeps others from. -/
inductive Resource
  | access (workspaceId : Nat)
  | budget (workspaceId : Nat)
  | row (workspaceId : Nat)
  | credentialId (id : String)
  | tokenDigest (digest : String)
deriving DecidableEq, Repr

inductive Result
  | credential (workspaceId : Nat) (credentialId token : String) (createdAt : Int) (policyVersion : Option Nat)
  | revoked (workspaceId : Nat) (credentialId : String) (revokedAt : Int)
  | version (n : Nat)
  | submitted
  | workspace (found : Option Nat)
  | failed (message : String)
  | refused (error : BudgetError)
deriving DecidableEq, Repr

/-- An update of `revoked_at` in the credentials of a workspace. -/
structure Revocation where
  workspaceId : Nat
  ids : List String
  now : Int

/-- The uncommitted rows of a transaction, and what its statements have returned. -/
structure Draft where
  created : Option Nat
  policy : Option WorkspacePolicy
  revoked : Option Revocation
  credential : Option Credential
  revokedAt : Int
  version : Nat
  found : Option Nat

/-- The nested calls of `rotate_credentials` and `provision_workspace` take no lock that their transaction has not got. -/
def Operation.actions : Operation → List Action
  | .provision w policy id secret now =>
    [.lockAccess w, .create w, .lockBudget w, .install w policy true, .require w, .insert w id secret now]
  | .issue w id secret now => [.require w, .lockAccess w, .insert w id secret now]
  | .rotate w id secret now => [.require w, .lockAccess w, .revokeAll w now, .require w, .insert w id secret now]
  | .revoke w id now => [.require w, .lockAccess w, .revokeOne w id now]
  | .setPolicy w policy expectedVersion => [.lockBudget w, .replace w policy expectedVersion]
  | .submit w policy => [.enter w, .lockBudget w, .install w policy false]
  | .authenticate token => [.lookup token]

section Statements
variable (hashed : String → String)

/-- The locks that a statement needs, those that the operation has taken before included. -/
def Db.needs (db : Db) : Action → List Resource
  | .require _ | .lookup _ => []
  | .lockAccess w | .revokeAll w _ | .revokeOne w _ _ => [.access w]
  | .create w | .enter w => if w ∈ db.ledger.workspaces then [] else [.row w]
  | .lockBudget w | .install w _ _ | .replace w _ _ => [.budget w]
  | .insert w id secret _ => [.access w, .credentialId id, .tokenDigest (hashed secret.token)]

/-- `authenticate_token` -/
def Db.authenticateToken (db : Db) (token : String) : Option Nat :=
  if validCredentialToken token then
    (db.credentials.find? fun c => c.tokenDigest = hashed token && c.revokedAt.isNone).map Credential.workspaceId
  else none

def Db.act (db : Db) (d : Draft) : Action → Except Result Draft
  | .require w =>
    if w ∈ db.ledger.workspaces ∨ d.created = some w then .ok d else .error (.failed "Workspace not found")
  | .lockAccess _ | .lockBudget _ => .ok d
  | .create w =>
    if w ∈ db.ledger.workspaces then
      .error (.failed "Workspace already exists; inspect it and use set-policy or issue")
    else .ok { d with created := some w }
  | .enter w => .ok (if w ∈ db.ledger.workspaces then d else { d with created := some w })
  | .install w policy managed =>
    .ok { d with policy := (db.ledger.installWorkspacePolicy w policy managed).2.policyOf w }
  | .replace w policy expectedVersion =>
    match db.ledger.setWorkspacePolicy w policy expectedVersion with
    | .ok (version, L) => .ok { d with policy := L.policyOf w, version := version }
    | .error e => .error (.refused e)
  | .revokeAll w now =>
    let active := db.credentials.filter fun c => c.workspaceId = w && c.revokedAt.isNone
    .ok { d with revoked := some ⟨w, active.map Credential.id, now⟩ }
  | .revokeOne w id now =>
    match db.credentials.find? fun c => c.workspaceId = w && c.id = id with
    | none => .error (.failed "Workspace credential not found")
    | some c => .ok { d with revoked := some ⟨w, [id], now⟩, revokedAt := c.revokedAt.getD now }
  | .insert w id secret now =>
    if db.credentials.any fun c => c.id = id || c.tokenDigest = hashed secret.token then
      .error (.failed "duplicate key value violates unique constraint")
    else .ok { d with credential := some ⟨id, w, hashed secret.token, now, none⟩ }
  | .lookup token => .ok { d with found := db.authenticateToken hashed token }

end Statements

/-- The first `revoked_at` of a credential stays. -/
def Credential.revoke (c : Credential) (r : Revocation) : Credential :=
  if c.workspaceId = r.workspaceId ∧ c.id ∈ r.ids then { c with revokedAt := some (c.revokedAt.getD r.now) } else c

/-- A policy row in the place of the one that its workspace had. -/
def putPolicy (policies : List WorkspacePolicy) (row : WorkspacePolicy) : List WorkspacePolicy :=
  if policies.any fun r => r.workspaceId = row.workspaceId then
    policies.map fun r => if r.workspaceId = row.workspaceId then row else r
  else policies ++ [row]

def Db.apply (db : Db) (d : Draft) : Db :=
  { ledger := { db.ledger with
      workspaces := d.created.toList ++ db.ledger.workspaces
      policies := d.policy.elim db.ledger.policies (putPolicy db.ledger.policies) }
    credentials := (d.revoked.elim db.credentials fun r => db.credentials.map fun c => c.revoke r) ++
      d.credential.toList }

def Operation.result (d : Draft) : Operation → Result
  | .provision w _ id secret now => .credential w id secret.token now (some 1)
  | .issue w id secret now | .rotate w id secret now => .credential w id secret.token now none
  | .revoke w id _ => .revoked w id d.revokedAt
  | .setPolicy _ _ _ => .version d.version
  | .submit _ _ => .submitted
  | .authenticate _ => .workspace d.found

def Operation.isRead : Operation → Bool
  | .authenticate _ => true
  | _ => false

def transactions (hashed : String → String) : Transactions Db Operation Draft Action Resource Result where
  actions := Operation.actions
  reads := Operation.isRead
  needs db _ a := db.needs hashed a
  blank := ⟨none, none, none, none, 0, 0, none⟩
  act db _ d a := db.act hashed d a
  result op d := op.result d
  apply db _ d := db.apply d

abbrev State := Schedule Db Operation Draft Action Resource Result

end ChessCrawl.Workspaces
