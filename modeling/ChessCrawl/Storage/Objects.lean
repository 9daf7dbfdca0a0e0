import ChessCrawl.Lib.Run
import Mathlib.Data.List.Basic
import Mathlib.Logic.Function.Basic
import Mathlib.Tactic.Common

/-! Raw payloads, import backups and artifact chunks with the objects that hold their bytes: `storage/raw.py`,
`storage/archives.py`, `storage/archive_transfer.py` and the deletion of `storage/artifacts.py`, as the transactions and
the object operations that they are made of. Stores of two locations have no object in common. -/
namespace ChessCrawl.Storage
set_option autoImplicit false

abbrev Bytes := List UInt8

/-- `gzip` and the hexadecimal SHA-256. What is compressed may differ by the library and by the time in its header. -/
structure Codec where
  compress : Nat → Bytes → Bytes
  decompress : Bytes → Option Bytes
  sha256 : Bytes → String

def Codec.digest (cd : Codec) (body : Bytes) : String := "sha256:" ++ cd.sha256 body

/-- Decompression undoes every compression, and no two bodies have one digest. -/
structure Codec.Lawful (cd : Codec) : Prop where
  roundTrip : ∀ v body, cd.decompress (cd.compress v body) = some body
  injective : ∀ a b, cd.sha256 a = cd.sha256 b → a = b

theorem Codec.Lawful.digest {cd : Codec} (h : cd.Lawful) {a b : Bytes} (heq : cd.digest a = cd.digest b) : a = b :=
  h.injective a b (String.append_right_inj _ |>.mp heq)

/-! ## Objects -/

inductive Backend
  | localFiles | s3
deriving DecidableEq, Repr

structure Location where
  backend : Backend
  location : String
deriving DecidableEq, Repr

/-- `sha256/<hash>.gz`, or the same behind the private prefix of an attempt at an artifact. -/
inductive ObjectKey
  | source (storedHash : String)
  | artifact (workspaceId : String) (jobId attempt : Nat) (storedHash : String)
deriving DecidableEq, Repr

def ObjectKey.isSource : ObjectKey → Bool
  | .source _ => true
  | .artifact .. => false

/-- The key starts with `artifact_prefix`. -/
def ObjectKey.inArtifact (key : ObjectKey) (workspaceId : String) (jobId : Nat) : Bool :=
  match key with
  | .source _ => false
  | .artifact w j _ _ => w = workspaceId && j = jobId

/-- `PreparedArchiveObject`, and an `archive_objects` row without its id. -/
structure Prepared where
  location : Location
  objectKey : ObjectKey
  bodyHash : String
  storedHash : String
  bodyBytes : Nat
  storedBytes : Nat
deriving DecidableEq, Repr

def Prepared.place (p : Prepared) : Location × ObjectKey := (p.location, p.objectKey)

/-- What the stores hold. -/
abbrev Objects := Location × ObjectKey → Option Bytes

/-- `put` never replaces an object; `none` is the error for one with other bytes. -/
def Objects.put (o : Objects) (place : Location × ObjectKey) (body : Bytes) : Option Objects :=
  match o place with
  | none => some (Function.update o place (some body))
  | some old => if old = body then some o else none

/-- `read` -/
def Objects.read (o : Objects) (place : Location × ObjectKey) (expectedSize : Nat) : Option Bytes :=
  (o place).filter fun body => body.length = expectedSize

def Objects.delete (o : Objects) (place : Location × ObjectKey) : Objects := Function.update o place none

/-- The object of `prepare_archive_object`, with its encoded bytes. -/
def prepare (cd : Codec) (v : Nat) (location : Location) (key : String → ObjectKey) (body : Bytes) : Prepared × Bytes :=
  let encoded := cd.compress v body
  let storedHash := cd.digest encoded
  (⟨location, key storedHash, cd.digest body, storedHash, body.length, encoded.length⟩, encoded)

/-- Both checks of encoded bytes: the checksum, then size and digest of what they decompress to, of which no more is
read than one byte over its recorded size. -/
def decode (cd : Codec) (p : Prepared) (encoded : Bytes) : Option Bytes :=
  if cd.digest encoded ≠ p.storedHash then none
  else (cd.decompress encoded).bind fun body =>
    let body := body.take (p.bodyBytes + 1)
    if body.length ≠ p.bodyBytes ∨ cd.digest body ≠ p.bodyHash then none else some body

/-- `_read_archive_body` -/
def Objects.readArchiveBody (o : Objects) (cd : Codec) (p : Prepared) : Option Bytes :=
  (o.read p.place p.storedBytes).bind (decode cd p)

/-- The read behind a `put`. -/
def Objects.published (o : Objects) (cd : Codec) (p : Prepared) : Bool :=
  (o.read p.place p.storedBytes).any fun encoded => cd.digest encoded = p.storedHash

/-! ## Tables -/

structure ObjectRow where
  id : Nat
  object : Prepared
deriving DecidableEq, Repr

inductive Compression
  | none | gzip
deriving DecidableEq, Repr

/-- Where a payload has its body; the constraint `raw_payload_body_location` admits no third case. -/
inductive Content
  | inline (compression : Compression) (rawBody : Bytes)
  | external (archiveObjectId : Nat)
deriving DecidableEq, Repr

/-- The columns that tell a source apart. -/
structure SourceKey where
  provider : String
  endpointType : String
  canonicalSourceKey : String
  ownerScope : String
deriving DecidableEq, Repr

/-- `RawRecord` with a body. -/
structure Record where
  source : SourceKey
  body : Bytes
  bodyHash : Option String
deriving DecidableEq, Repr

structure RawPayload where
  id : Nat
  source : SourceKey
  bodyHash : String
  bodyBytes : Nat
  content : Content
deriving DecidableEq, Repr

structure ArchiveImport where
  id : Nat
  workspaceId : String
  archiveObjectId : Nat
deriving DecidableEq, Repr

structure ChunkRow where
  jobId : Nat
  ordinal : Nat
  archiveObjectId : Nat
deriving DecidableEq, Repr

structure Db where
  payloads : List RawPayload
  payloadSeq : Nat
  imports : List ArchiveImport
  importSeq : Nat
  objects : List ObjectRow
  objectSeq : Nat
  chunks : List ChunkRow
deriving DecidableEq, Repr

def Db.empty : Db := ⟨[], 0, [], 0, [], 0, []⟩

namespace Db

def payload (db : Db) (id : Nat) : Option RawPayload := db.payloads.find? fun r => r.id = id

def object (db : Db) (id : Nat) : Option ObjectRow := db.objects.find? fun r => r.id = id

def backup (db : Db) (id : Nat) (workspaceId : String) : Option ArchiveImport :=
  db.imports.find? fun r => r.id = id && r.workspaceId = workspaceId

/-- `EXISTS` over both tables of source evidence. -/
def referenced (db : Db) (objectId : Nat) : Bool :=
  db.payloads.any (fun r => r.content = .external objectId) || db.imports.any fun r => r.archiveObjectId = objectId

/-- `register_archive_object`; `none` is a conflict with published bytes. -/
def registerArchiveObject (db : Db) (p : Prepared) : Option (Nat × Db) :=
  match db.objects.find? fun r => r.object.place = p.place with
  | none =>
    some (db.objectSeq + 1, { db with
      objects := db.objects ++ [⟨db.objectSeq + 1, p⟩]
      objectSeq := db.objectSeq + 1 })
  | some old =>
    if (old.object.bodyHash, old.object.storedHash, old.object.bodyBytes, old.object.storedBytes) ≠
        (p.bodyHash, p.storedHash, p.bodyBytes, p.storedBytes) then none
    else some (old.id, db)

/-- `_existing_payload` -/
def existingPayload (db : Db) (source : SourceKey) (bodyHash : String) : Option RawPayload :=
  db.payloads.find? fun r => r.source = source && r.bodyHash = bodyHash

/-- The insert of `_store_raw_payload`. -/
def insertPayload (db : Db) (cd : Codec) (record : Record) (content : Content) : Nat × Db :=
  let id := db.payloadSeq + 1
  (id, { db with
    payloads := db.payloads ++ [⟨id, record.source, cd.digest record.body, record.body.length, content⟩]
    payloadSeq := id })

/-- `_encode_body`, above `COMPRESSION_THRESHOLD_BYTES` -/
def encodeBody (cd : Codec) (v : Nat) (body : Bytes) : Content :=
  if body.length < 4096 then .inline .none body else .inline .gzip (cd.compress v body)

/-- `_store_raw_payload`, under the lock of the source; `external` says that a body goes to a store. -/
def storeRawPayload (db : Db) (cd : Codec) (v : Nat) (record : Record) (external : Bool) (prepared : Option Prepared) :
    Option (Nat × Db) :=
  match db.existingPayload record.source (cd.digest record.body) with
  | some row => some (row.id, db)
  | none =>
    match prepared with
    | none => if external then none else some (db.insertPayload cd record (encodeBody cd v record.body))
    | some p =>
      if p.bodyHash ≠ cd.digest record.body ∨ p.bodyBytes ≠ record.body.length then none
      else (db.registerArchiveObject p).map fun x => x.2.insertPayload cd record (.external x.1)

/-- `_register_import` -/
def registerImport (db : Db) (workspaceId : String) (p : Prepared) : Option (Nat × Db) :=
  (db.registerArchiveObject p).map fun x =>
    (x.2.importSeq + 1, { x.2 with
      imports := x.2.imports ++ [⟨x.2.importSeq + 1, workspaceId, x.1⟩]
      importSeq := x.2.importSeq + 1 })

def setContent (db : Db) (id : Nat) (content : Content) : Db :=
  { db with payloads := db.payloads.map fun r => if r.id = id then { r with content := content } else r }

/-- `_register_relocated_payload` -/
def registerRelocatedPayload (db : Db) (id : Nat) (p : Prepared) : Option Db :=
  match db.payload id with
  | none => none
  | some row =>
    match row.content with
    | .external _ => some db
    | .inline .. =>
      if row.bodyHash ≠ p.bodyHash ∨ row.bodyBytes ≠ p.bodyBytes then none
      else (db.registerArchiveObject p).map fun x => x.2.setContent id (.external x.1)

/-- The updates of `_register_transfer`. -/
def repoint (db : Db) (sourceId targetId : Nat) (source : Prepared) : Db :=
  { db with
    payloads := db.payloads.map fun r =>
      if r.content = .external sourceId ∧ r.bodyHash = source.bodyHash ∧ r.bodyBytes = source.bodyBytes then
        { r with content := .external targetId }
      else r
    imports := db.imports.map fun r =>
      if r.archiveObjectId = sourceId then { r with archiveObjectId := targetId } else r }

/-- `_register_transfer`; the transaction is rolled back if a payload still names the source. -/
def registerTransfer (db : Db) (sourceId : Nat) (source p : Prepared) : Option Db :=
  match db.object sourceId with
  | none => none
  | some current =>
    if current.object ≠ source then none
    else if db.referenced sourceId = false then some db
    else
      (db.registerArchiveObject p).bind fun x =>
        let moved := x.2.repoint sourceId x.1 source
        if moved.payloads.any fun r => r.content = .external sourceId then none else some moved

/-- `add_artifact_chunk` for a publication that its artifact admits; `none` is the primary key's refusal. -/
def addArtifactChunk (db : Db) (jobId ordinal : Nat) (p : Prepared) : Option Db :=
  (db.registerArchiveObject p).bind fun x =>
    if x.2.chunks.any fun c => c.jobId = jobId && c.ordinal = ordinal then none
    else some { x.2 with chunks := x.2.chunks ++ [⟨jobId, ordinal, x.1⟩] }

/-- `_remove_chunk_reference` -/
def removeChunkReference (db : Db) (jobId ordinal : Nat) : Db :=
  { db with chunks := db.chunks.filter fun c => !(c.jobId = jobId && c.ordinal = ordinal) }

/-- `_decode_body` -/
def decodeBody (cd : Codec) (compression : Compression) (rawBody : Bytes) : Option Bytes :=
  match compression with
  | .none => some rawBody
  | .gzip => cd.decompress rawBody

/-- The checks at the end of `read_raw_payload`. -/
def checkBody (cd : Codec) (row : RawPayload) (body : Bytes) : Option Bytes :=
  if cd.digest body ≠ row.bodyHash ∨ body.length ≠ row.bodyBytes then none else some body

/-- `read_raw_payload` at one moment. -/
def readRawPayload (db : Db) (o : Objects) (cd : Codec) (id : Nat) : Option Bytes :=
  (db.payload id).bind fun row =>
    (match row.content with
      | .inline compression rawBody => decodeBody cd compression rawBody
      | .external objectId => (db.object objectId).bind fun x => o.readArchiveBody cd x.object).bind (checkBody cd row)

/-- `read_import_backup` at one moment. -/
def readImportBackup (db : Db) (o : Objects) (cd : Codec) (id : Nat) (workspaceId : String) : Option Bytes :=
  (db.backup id workspaceId).bind fun row => (db.object row.archiveObjectId).bind fun x => o.readArchiveBody cd x.object

end Db
end ChessCrawl.Storage
