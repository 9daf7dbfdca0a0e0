import Mathlib.Logic.Function.Basic
import Mathlib.Data.List.Basic
import Mathlib.Tactic.Common
import Mathlib.Algebra.GroupWithZero.Nat

/-! Export artifacts: the tables of `storage/artifacts.py`, the object registry they refer to, and the manifest. Times are
microseconds. An object is identified by its location and key, which are unique in `archive_objects`. -/
namespace ChessCrawl.Artifacts
set_option autoImplicit false

abbrev Bytes := List UInt8

inductive Kind
  | games | users | graph
deriving DecidableEq, Repr

def Kind.name : Kind → String
  | .games => "games"
  | .users => "users"
  | .graph => "graph"

def Kind.filename (k : Kind) : String := k.name ++ "." ++ if k = .graph then "csv" else "jsonl"

def Kind.mediaType (k : Kind) : String := if k = .graph then "text/csv" else "application/x-ndjson"

/-- A manifest without its signature. -/
structure Unsigned where
  contractVersion : Nat
  rendererVersion : String
  kind : Kind
  provider : Option String
  rows : Nat
  bodyBytes : Nat
  contentHash : String
  snapshotStartedAt : Int
  selectionTime : String
  chunkCount : Nat
  filename : String
  mediaType : String
deriving DecidableEq, Repr

structure Manifest where
  content : Unsigned
  artifactSignature : String
deriving DecidableEq, Repr

/-- `gzip`, the hexadecimal SHA-256 of bytes, and the digest of a canonical manifest. -/
structure Codec where
  compress : Bytes → Bytes
  decompress : Bytes → Option Bytes
  sha256 : Bytes → String
  sign : Unsigned → String

def Codec.digest (cd : Codec) (body : Bytes) : String := "sha256:" ++ cd.sha256 body

def chunkBytes : Nat := 1024 * 1024

/-- `[0-9a-f]` -/
def hexDigit (c : Char) : Bool := decide (48 ≤ c.toNat ∧ c.toNat ≤ 57) || decide (97 ≤ c.toNat ∧ c.toNat ≤ 102)

/-- `sha256:[0-9a-f]{64}` -/
def validDigest (hash : String) : Bool :=
  "sha256:".toList.isPrefixOf hash.toList && decide ((hash.toList.drop 7).length = 64) &&
    (hash.toList.drop 7).all hexDigit

/-! ## Rows -/

/-- The private key `artifacts/<workspace>/<job>/attempt-<generation>/<hash>` of an object at a location. -/
structure Key where
  location : String
  workspaceId : String
  jobId : Nat
  attempt : Nat
  storedHash : String
deriving DecidableEq, Repr

/-- An `archive_objects` row. -/
structure ObjectRow where
  bodyHash : String
  storedHash : String
  bodyBytes : Nat
  storedBytes : Nat
deriving DecidableEq, Repr

structure ChunkRow where
  ordinal : Nat
  key : Key
deriving DecidableEq, Repr

inductive ArtifactState
  | pending | building | ready | pruning | expired
deriving DecidableEq, Repr

structure Artifact where
  workspaceId : String
  state : ArtifactState
  reservedBytes : Nat
  expiresAt : Int
  manifest : Option Manifest
deriving DecidableEq, Repr

def Artifact.readyWith (a : Artifact) (m : Manifest) : Artifact :=
  { a with state := .ready, manifest := some m, reservedBytes := max 1 m.content.bodyBytes }

def Artifact.spent (a : Artifact) : Artifact := { a with state := .expired, manifest := none, reservedBytes := 1 }

/-- An `artifact_downloads` row. -/
structure Lease where
  id : Nat
  jobId : Nat
  workspaceId : String
  expiresAt : Int
deriving DecidableEq, Repr

/-- `jobIds` lists the rows of `archive_artifacts`; the chunks of a job are in the order of their primary key. -/
structure Db where
  jobIds : List Nat
  artifacts : Nat → Option Artifact
  chunks : Nat → List ChunkRow
  objects : Key → Option ObjectRow
  leases : List Lease

def Db.empty : Db := ⟨[], fun _ => none, fun _ => [], fun _ => none, []⟩

/-- The part of `ArchiveJobSettings` that admission reads; every value is at least one. -/
structure Settings where
  asyncExportMaxBytes : Nat
  artifactMaxCount : Nat
  artifactMaxBytes : Nat
  artifactTtlSeconds : Nat
  positive : 0 < asyncExportMaxBytes
deriving DecidableEq

/-- `int(time.time())`, in microseconds. -/
def wholeSecond (now : Int) : Int := now / 1000000 * 1000000

theorem wholeSecond_le (now : Int) : wholeSecond now ≤ now := by
  unfold wholeSecond
  omega

/-! ## The manifest -/

/-- `validate_artifact_manifest`. -/
def validateArtifactManifest (cd : Codec) (record : Artifact) : Except String Manifest :=
  match record.manifest with
  | none => .error "Export artifact has no valid manifest"
  | some m =>
    let c := m.content
    if m.artifactSignature ≠ cd.sign c then .error "Export artifact manifest checksum mismatch"
    else if c.contractVersion ≠ 1 ∨ c.rendererVersion ≠ "archive-export-v1" ∨ c.selectionTime ≠ "processing" then
      .error "Unsupported export artifact contract"
    else if ¬ (c.rows ≤ 10000000 ∧ c.bodyBytes ≤ 4 * 1024 ^ 3 ∧ c.chunkCount ≤ 4096) then
      .error "Export artifact bounds are invalid"
    else if record.reservedBytes < c.bodyBytes then .error "Export artifact exceeds its retained size"
    else if c.chunkCount ≠ (c.bodyBytes + chunkBytes - 1) / chunkBytes ∨ validDigest c.contentHash = false then
      .error "Export artifact chunk or checksum metadata is invalid"
    else if c.filename ≠ c.kind.filename ∨ c.mediaType ≠ c.kind.mediaType then
      .error "Export artifact download metadata is invalid"
    else .ok m

/-- What `write_export_snapshot` has rendered for a request. -/
structure Snapshot where
  kind : Kind
  provider : Option String
  rows : Nat
  body : Bytes
  snapshotStartedAt : Int
deriving DecidableEq, Repr

/-- The manifest that `_prepare_export` writes. -/
def manifestOf (cd : Codec) (x : Snapshot) (chunkCount : Nat) : Manifest :=
  let content : Unsigned := {
    contractVersion := 1, rendererVersion := "archive-export-v1", kind := x.kind, provider := x.provider, rows := x.rows,
    bodyBytes := x.body.length, contentHash := cd.digest x.body, snapshotStartedAt := x.snapshotStartedAt,
    selectionTime := "processing", chunkCount := chunkCount, filename := x.kind.filename, mediaType := x.kind.mediaType }
  ⟨content, cd.sign content⟩

/-! ## Transactions -/

namespace Db

def setArtifact (db : Db) (job : Nat) (a : Artifact) : Db :=
  { db with artifacts := Function.update db.artifacts job (some a) }

/-- The artifacts of a workspace that count against it. -/
def retained (db : Db) (ws : String) : List Artifact :=
  (db.jobIds.filterMap db.artifacts).filter fun a => a.workspaceId = ws ∧ a.state ≠ .expired

def retainedBytes (db : Db) (ws : String) : Nat := ((db.retained ws).map Artifact.reservedBytes).sum

/-- `reserve_artifact`, under the lock of the workspace. -/
def reserveArtifact (db : Db) (job : Nat) (ws : String) (st : Settings) (now : Int) : Option Db :=
  if (db.artifacts job).isSome then none
  else if st.artifactMaxCount < (db.retained ws).length + 1 ∨
      st.artifactMaxBytes < db.retainedBytes ws + st.asyncExportMaxBytes then none
  else
    some {
      db.setArtifact job ⟨ws, .pending, st.asyncExportMaxBytes, wholeSecond now + st.artifactTtlSeconds * 1000000, none⟩
      with jobIds := db.jobIds ++ [job] }

/-- `SUM(o.body_bytes)` over the chunks of a job. -/
def chunkTotal (db : Db) (job : Nat) : Nat :=
  ((db.chunks job).map fun r => ((db.objects r.key).map ObjectRow.bodyBytes).getD 0).sum

/-- The read of `start_artifact`. -/
def mayStart (db : Db) (job : Nat) (now : Int) : Bool :=
  (db.artifacts job).any fun a => decide (now < a.expiresAt ∧ (a.state = .pending ∨ a.state = .building))

/-- The read of `add_artifact_chunk` and of `finish_artifact`. -/
def mayPublish (db : Db) (job : Nat) (now : Int) : Bool :=
  (db.artifacts job).any fun a => decide (now < a.expiresAt ∧ a.state = .building)

def setState (db : Db) (job : Nat) (state : ArtifactState) : Db :=
  match db.artifacts job with
  | some a => db.setArtifact job { a with state := state }
  | none => db

/-- The trigger `guard_artifact_chunks` and the check before a deletion. -/
def mutable (db : Db) (job : Nat) : Bool :=
  (db.artifacts job).any fun a => decide (a.state = .building ∨ a.state = .pruning)

/-- `register_archive_object`; `none` is a conflict with published bytes. -/
def registerArchiveObject (db : Db) (key : Key) (row : ObjectRow) : Option Db :=
  match db.objects key with
  | none => some { db with objects := Function.update db.objects key (some row) }
  | some old => if old = row then some db else none

/-- `INSERT INTO artifact_chunks`; `none` is the trigger's or the primary key's refusal. -/
def insertChunk (db : Db) (job ordinal : Nat) (key : Key) : Option Db :=
  let rows := db.chunks job
  if db.mutable job = false ∨ rows.any (fun r => r.ordinal = ordinal) = true then none
  else
    some { db with
      chunks := Function.update db.chunks job (rows.filter (fun r => r.ordinal < ordinal) ++ [⟨ordinal, key⟩] ++
        rows.filter fun r => ordinal < r.ordinal) }

/-- `chunk_page`. -/
def chunkPage (db : Db) (job after limit : Nat) : List ChunkRow :=
  ((db.chunks job).filter fun r => after < r.ordinal).take limit

/-- `_remove_chunk_reference`; `none` is the trigger's refusal, which a row that is gone does not meet. -/
def removeChunk (db : Db) (job ordinal : Nat) : Option Db :=
  if (db.chunks job).any (fun r => r.ordinal = ordinal) = false then some db
  else if db.mutable job then
    some { db with chunks := Function.update db.chunks job ((db.chunks job).filter fun r => r.ordinal ≠ ordinal) }
  else none

/-- The totals check of `finish_artifact`. -/
def complete (db : Db) (job : Nat) (m : Manifest) : Bool :=
  decide ((db.chunks job).length = m.content.chunkCount ∧ db.chunkTotal job = m.content.bodyBytes)

/-- The update of `finish_artifact`; `none` is the trigger `immutable_ready_artifact`. -/
def publish (db : Db) (job : Nat) (m : Manifest) : Option Db :=
  (db.artifacts job).bind fun a => if a.state = .ready then none else some (db.setArtifact job (a.readyWith m))

/-- `acquire_download`, under the lock of the workspace; up to 256 expired leases go first. -/
def acquireDownload (db : Db) (job : Nat) (ws : String) (lease : Nat) (lifetime now : Int) (slots : Nat)
    (purged : List Nat) : Option Db :=
  match db.artifacts job with
  | none => none
  | some a =>
    let leases := db.leases.filter fun l => ¬ (l.id ∈ purged ∧ l.workspaceId = ws ∧ l.expiresAt ≤ now)
    if a.workspaceId ≠ ws ∨ a.state ≠ .ready ∨ a.expiresAt ≤ now ∨ leases.any (fun l => l.id = lease) = true ∨
        slots ≤ (leases.filter fun l => l.workspaceId = ws ∧ now < l.expiresAt).length then none
    else some { db with leases := leases ++ [⟨lease, job, ws, min (now + lifetime) a.expiresAt⟩] }

def releaseDownload (db : Db) (lease : Nat) (ws : String) : Db :=
  { db with leases := db.leases.filter fun l => ¬ (l.id = lease ∧ l.workspaceId = ws) }

/-- The rows that `mark_pruning` may select; `idle` says that the job is not in progress. -/
def prunable (db : Db) (ws : String) (before now : Int) (idle : Nat → Bool) (job : Nat) : Bool :=
  (db.artifacts job).any fun a =>
    decide (a.workspaceId = ws ∧ a.state ≠ .expired ∧ a.expiresAt ≤ min before (wholeSecond now)) && idle job &&
      !db.leases.any fun l => decide (l.jobId = job ∧ now < l.expiresAt)

def markPruning (db : Db) (jobs : List Nat) : Db :=
  { db with
    artifacts := fun job =>
      if job ∈ jobs then (db.artifacts job).map fun a => { a with state := .pruning } else db.artifacts job }

/-- The read of `expire_if_empty`. -/
def mayExpire (db : Db) (job : Nat) : Bool :=
  (db.artifacts job).any (fun a => decide (a.state = .pruning)) && (db.chunks job).isEmpty

/-- The update of `expire_if_empty`; `none` is the trigger `immutable_ready_artifact`. -/
def expire (db : Db) (job : Nat) : Option Db :=
  (db.artifacts job).bind fun a =>
    if a.state = .ready then none
    else
      some {
        db.setArtifact job a.spent
        with leases := db.leases.filter fun l => l.jobId ≠ job }

end Db
end ChessCrawl.Artifacts
