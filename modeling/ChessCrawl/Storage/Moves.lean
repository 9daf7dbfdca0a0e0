import ChessCrawl.Storage.Objects

/-! The concurrent operations on archived bodies, one step for each transaction, each statement outside of one and each
object operation. A session may crash in front of any step; what it has put into a store stays there. -/
namespace ChessCrawl.Storage
open ChessCrawl.Lib
set_option autoImplicit false

/-- Bytes that have been kept: of a payload, or of an import that its workspace names. -/
inductive Evidence
  | payload (id : Nat)
  | backup (id : Nat) (workspaceId : String)
deriving DecidableEq, Repr

/-- A read at one moment. -/
def Db.readEvidence (db : Db) (o : Objects) (cd : Codec) : Evidence → Option Bytes
  | .payload id => db.readRawPayload o cd id
  | .backup id workspaceId => db.readImportBackup o cd id workspaceId

/-- What a read ends in. -/
inductive Outcome
  | returned (body : Bytes)
  | missing
  | corrupt
deriving DecidableEq, Repr

/-- Who reads: a caller, or a relocation with the payloads that it has still to move. -/
inductive Reader
  | caller
  | relocation (target : Location) (rest : List Nat)

/-- What an object is published for. -/
inductive Purpose
  | payload (record : Record)
  | relocation (payloadId : Nat) (target : Location) (rest : List Nat)
  | transfer (source : ObjectRow) (target : Location) (rest : List ObjectRow)
  | backup (workspaceId : String) (body : Bytes)
  | chunk (jobId ordinal : Nat)

/-- A row of `chunk_page`. -/
structure PageRow where
  ordinal : Nat
  object : ObjectRow

/-- Where an operation is, named by what its next step does. -/
inductive Pc
  | looking (record : Record) (target : Location)
  | storing (record : Record) (external : Bool)
  | putting (p : Prepared) (encoded : Bytes) (purpose : Purpose)
  | verifying (p : Prepared) (purpose : Purpose)
  | registering (p : Prepared) (purpose : Purpose)
  | reading (e : Evidence) (reader : Reader)
  | resolving (e : Evidence) (row : Option RawPayload) (objectId : Nat) (reader : Reader)
  | fetching (e : Evidence) (row : Option RawPayload) (p : Prepared) (reader : Reader)
  | relocating (target : Location) (ids : List Nat)
  | transferring (target : Location) (rows : List ObjectRow)
  | authorizing (workspaceId : String) (jobId : Nat) (rows : List PageRow)
  | checking (workspaceId : String) (jobId : Nat) (row : PageRow) (rest : List PageRow)
  | deleting (workspaceId : String) (jobId : Nat) (row : PageRow) (rest : List PageRow)
  | removing (workspaceId : String) (jobId : Nat) (row : PageRow) (rest : List PageRow)

/-- `stored` logs what the stores of evidence have returned with the bytes they were given, `reads` what reads ended
in, and `deleted` the objects that have been deleted. -/
structure State where
  db : Db
  objects : Objects
  sessions : Nat → Option Pc
  stored : List (Evidence × Bytes)
  reads : List (Evidence × Outcome)
  deleted : List (Location × ObjectKey)

namespace State

def move (s : State) (n : Nat) (pc : Option Pc) : State := { s with sessions := Function.update s.sessions n pc }

/-- An operation returns or raises. -/
def close (s : State) (n : Nat) : State := s.move n none

/-- The commit of a transaction. -/
def commit (s : State) (n : Nat) (db : Db) (pc : Option Pc) : State := { s with db := db }.move n pc

/-- A store of evidence returns. -/
def keep (s : State) (n : Nat) (db : Db) (e : Evidence) (body : Bytes) : State :=
  { s.commit n db none with stored := s.stored ++ [(e, body)] }

/-- A read ends; a relocation goes on with what it has read and raises what the read raises. -/
def answer (s : State) (cd : Codec) (n v : Nat) (e : Evidence) (x : Outcome) : Reader → State
  | .caller => { s.close n with reads := s.reads ++ [(e, x)] }
  | .relocation target rest =>
    match e, x with
    | .payload id, .returned body =>
      let (p, encoded) := prepare cd v target .source body
      s.move n (some (.putting p encoded (.relocation id target rest)))
    | _, _ => s.close n

/-- The transaction behind a publication. -/
def register (s : State) (cd : Codec) (n v : Nat) (admitted : Bool) (p : Prepared) : Purpose → State
  | .payload record =>
    match s.db.storeRawPayload cd v record true (some p) with
    | some (id, db) => s.keep n db (.payload id) record.body
    | none => s.close n
  | .relocation id target rest =>
    match s.db.registerRelocatedPayload id p with
    | some db => s.commit n db (some (.relocating target rest))
    | none => s.close n
  | .transfer source target rest =>
    match s.db.registerTransfer source.id source.object p with
    | some db => s.commit n db (some (.transferring target rest))
    | none => s.close n
  | .backup workspaceId body =>
    match s.db.registerImport workspaceId p with
    | some (id, db) => s.keep n db (.backup id workspaceId) body
    | none => s.close n
  | .chunk jobId ordinal =>
    match if admitted then s.db.addArtifactChunk jobId ordinal p else none with
    | some db => s.commit n db none
    | none => s.close n

/-- The row that a read starts from. -/
def select (s : State) (cd : Codec) (n v : Nat) (e : Evidence) (reader : Reader) : State :=
  match e with
  | .payload id =>
    match s.db.payload id with
    | none => s.answer cd n v e .missing reader
    | some row =>
      match row.content with
      | .inline compression rawBody =>
        match (Db.decodeBody cd compression rawBody).bind (Db.checkBody cd row) with
        | some body => s.answer cd n v e (.returned body) reader
        | none => s.answer cd n v e .corrupt reader
      | .external objectId => s.move n (some (.resolving e (some row) objectId reader))
  | .backup id workspaceId =>
    match s.db.backup id workspaceId with
    | none => s.answer cd n v e .missing reader
    | some row => s.move n (some (.resolving e none row.archiveObjectId reader))

/-- One step of an operation; `admitted` is the answer of the artifact's state and of the worker's fence. -/
def advance (s : State) (cd : Codec) (n v : Nat) (admitted : Bool) : Pc → State
  | .looking record target =>
    match s.db.existingPayload record.source (cd.digest record.body) with
    | some _ => s.move n (some (.storing record true))
    | none =>
      let (p, encoded) := prepare cd v target .source record.body
      s.move n (some (.putting p encoded (.payload record)))
  | .storing record external =>
    match s.db.storeRawPayload cd v record external none with
    | some (id, db) => s.keep n db (.payload id) record.body
    | none => s.close n
  | .putting p encoded purpose =>
    match s.objects.put p.place encoded with
    | some o => { s with objects := o }.move n (some (.verifying p purpose))
    | none => s.close n
  | .verifying p purpose =>
    if s.objects.published cd p then s.move n (some (.registering p purpose)) else s.close n
  | .registering p purpose => s.register cd n v admitted p purpose
  | .reading e reader => s.select cd n v e reader
  | .resolving e row objectId reader =>
    match s.db.object objectId with
    | some x => s.move n (some (.fetching e row x.object reader))
    | none => s.answer cd n v e .missing reader
  | .fetching e row p reader =>
    match (s.objects.readArchiveBody cd p).bind fun body => row.elim (some body) fun row => Db.checkBody cd row body with
    | some body => s.answer cd n v e (.returned body) reader
    | none => s.answer cd n v e .corrupt reader
  | .relocating target ids =>
    match ids with
    | [] => s.close n
    | id :: rest =>
      match s.db.payload id with
      | none => s.close n
      | some row =>
        match row.content with
        | .external _ => s.move n (some (.relocating target rest))
        | .inline .. => s.move n (some (.reading (.payload id) (.relocation target rest)))
  | .transferring target rows =>
    match rows with
    | [] => s.close n
    | row :: rest =>
      match s.objects.read row.object.place row.object.storedBytes with
      | none => s.close n
      | some encoded =>
        if (decode cd row.object encoded).isSome then
          s.move n (some (.putting { row.object with location := target, objectKey := .source row.object.storedHash } encoded
            (.transfer row target rest)))
        else s.close n
  | .authorizing workspaceId jobId rows =>
    match rows with
    | [] => s.close n
    | row :: rest =>
      if admitted && row.object.object.objectKey.inArtifact workspaceId jobId then
        s.move n (some (.checking workspaceId jobId row rest))
      else s.close n
  | .checking workspaceId jobId row rest =>
    if s.db.referenced row.object.id then s.close n else s.move n (some (.deleting workspaceId jobId row rest))
  | .deleting workspaceId jobId row rest =>
    { s with
      objects := s.objects.delete row.object.object.place
      deleted := s.deleted ++ [row.object.object.place] }.move n (some (.removing workspaceId jobId row rest))
  | .removing workspaceId jobId row rest =>
    s.commit n (s.db.removeChunkReference jobId row.ordinal) (some (.authorizing workspaceId jobId rest))

end State

/-! ## Runs -/

inductive Event
  | store (n : Nat) (record : Record) (target : Option Location)
  | backup (n v : Nat) (workspaceId : String) (body : Bytes) (target : Location)
  | chunk (n v : Nat) (workspaceId : String) (jobId attempt ordinal : Nat) (part : Bytes) (target : Location)
  | read (n : Nat) (e : Evidence)
  | relocate (n : Nat) (target : Location) (batchSize : Nat)
  | transfer (n : Nat) (target : Location) (batchSize afterObjectId : Nat)
  | delete (n : Nat) (workspaceId : String) (jobId limit : Nat)
  | step (n v : Nat) (admitted : Bool)
  | crash (n : Nat)

/-- The batch of `relocate_raw_payloads`; payloads are in the order of their ids. -/
def Db.inlineBatch (db : Db) (batchSize : Nat) : List Nat :=
  ((db.payloads.filter fun r => match r.content with
    | .inline .. => true
    | .external _ => false).map RawPayload.id).take batchSize

/-- The rows of `transfer_archive_objects`, of which one is asked for beyond the batch. -/
def Db.foreignObjects (db : Db) (target : Location) (afterObjectId limit : Nat) : List ObjectRow :=
  (db.objects.filter fun r => afterObjectId < r.id && r.object.location ≠ target && db.referenced r.id).take limit

/-- The rows of `chunk_page` from the start. -/
def Db.chunkPage (db : Db) (jobId limit : Nat) : List PageRow :=
  ((db.chunks.filter fun c => c.jobId = jobId).filterMap fun c =>
    (db.object c.archiveObjectId).map fun x => ⟨c.ordinal, x⟩).take limit

/-- The operation that an event starts; `none` where its arguments are refused. -/
def Event.start (s : State) (cd : Codec) : Event → Option (Nat × Pc)
  | .store n record target =>
    if record.bodyHash.any fun hash => hash ≠ cd.digest record.body then none
    else some (n, match target with
      | none => .storing record false
      | some target => .looking record target)
  | .backup n v workspaceId body target =>
    let (p, encoded) := prepare cd v target .source body
    some (n, .putting p encoded (.backup workspaceId body))
  | .chunk n v workspaceId jobId attempt ordinal part target =>
    let (p, encoded) := prepare cd v target (.artifact workspaceId jobId attempt) part
    some (n, .putting p encoded (.chunk jobId ordinal))
  | .read n e => some (n, .reading e .caller)
  | .relocate n target batchSize =>
    if 1 ≤ batchSize ∧ batchSize ≤ 10000 then some (n, .relocating target (s.db.inlineBatch batchSize)) else none
  | .transfer n target batchSize afterObjectId =>
    if 1 ≤ batchSize ∧ batchSize ≤ 10000 then
      some (n, .transferring target (s.db.foreignObjects target afterObjectId batchSize))
    else none
  | .delete n workspaceId jobId limit => some (n, .authorizing workspaceId jobId (s.db.chunkPage jobId limit))
  | .step .. | .crash _ => none

def State.step (cd : Codec) (s : State) : Event → Option State
  | .step n v admitted => (s.sessions n).map (s.advance cd n v admitted)
  | .crash n => some (s.close n)
  | e => (e.start s cd).bind fun x => if (s.sessions x.1).isNone then some (s.move x.1 (some x.2)) else none

/-- Any number of sessions over an archive that starts empty. -/
def evidence (cd : Codec) : System State Event where
  init s := s = ⟨.empty, fun _ => none, fun _ => none, [], [], []⟩
  step := State.step cd

end ChessCrawl.Storage
