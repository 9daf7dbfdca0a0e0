import ChessCrawl.Acquisition.Months
import Mathlib.Logic.Function.Basic
import Mathlib.Tactic.Common

/-! The archive tables behind the monthly Chess.com collection of one user, and the queries of `storage/raw.py` and
`storage/collection.py` over them. A body is what the collector reads off it; `rest` stands for everything else. -/
namespace ChessCrawl.Monthly
open ChessCrawl.Acquisition
set_option autoImplicit false

/-- An archive address as `urlsplit` takes it apart, with the path unquoted and in lower case. -/
structure ArchiveUrl where
  scheme : String
  netloc : String
  path : String
  query : String
  fragment : String
deriving DecidableEq, Repr

/-- A response body: the `archives` of an index and the number of `games` of a month, where they are lists. -/
structure Body where
  archives : Option (List ArchiveUrl)
  games : Option Nat
  rest : Nat
deriving DecidableEq, Repr

/-- The canonical source keys of the user: the archives index, and a month by its text. -/
inductive Source
  | index
  | month (key : String)
deriving DecidableEq, Repr

def digit (n : Nat) : Char := Char.ofNat (48 + n % 10)

/-- `f"{year:04d}/{month:02d}"`. -/
def monthKey (year month : Nat) : String :=
  String.ofList [digit (year / 1000), digit (year / 100), digit (year / 10), digit year, '/', digit (month / 10), digit month]

example : monthKey 2024 2 = "2024/02" := by decide +kernel

/-- A `raw_payloads` row with a 200 response in the public scope. -/
structure RawPayload where
  id : Nat
  source : Source
  body : Body
  fetchedAt : Int
deriving DecidableEq, Repr

/-- A `fetch_logs` row of a 200 or 304 response; an importer outside the jobs has no job. -/
structure FetchLog where
  id : Nat
  jobId : Option Nat
  rawPayloadId : Nat
  attemptedAt : Int
deriving DecidableEq, Repr

inductive CoverageState
  | pending | complete | missing | error
deriving DecidableEq, Repr

/-- A `collection_coverage` row of the user. -/
structure CoverageRow where
  state : CoverageState
  rawPayloadId : Option Nat
  fetchedAt : Int
  error : Option String
  isSealed : Bool
deriving DecidableEq, Repr

inductive Mode
  | full | incremental | backfill
deriving DecidableEq, Repr

/-- The job parameters; `since` and `upto` are Unix seconds. -/
structure Params where
  mode : Mode
  since : Option Int
  sinceMs : Option Int
  upto : Option Int
  untilMs : Option Int
  months : Option (List String)
  batchSize : Option Int
deriving DecidableEq, Repr

/-- The request fingerprint: the parameters without the batch size. -/
def Params.fingerprint (p : Params) : Params := { p with batchSize := none }

structure Cursor where
  requestFingerprint : Params
  units : List String
  unitIndex : Nat
  done : Bool
deriving DecidableEq, Repr

structure Db where
  rawPayloads : List RawPayload
  fetchLogs : List FetchLog
  coverage : String → Option CoverageRow
  checkpoints : Nat → Option Cursor

def Db.empty : Db := ⟨[], [], fun _ => none, fun _ => none⟩

namespace Db

/-! ## Payloads and observations -/

def rawPayload (db : Db) (id : Nat) : Option RawPayload := db.rawPayloads.find? fun p => p.id = id

/-- `store_raw_payload`: a body seen before under the same key keeps its row. -/
def storeRawPayload (db : Db) (src : Source) (body : Body) (now : Int) : Db × Nat :=
  match db.rawPayloads.find? fun p => p.source = src ∧ p.body = body with
  | some p => (db, p.id)
  | none =>
    let id := db.rawPayloads.length + 1
    ({ db with rawPayloads := db.rawPayloads ++ [⟨id, src, body, now⟩] }, id)

def insertFetchLog (db : Db) (job : Option Nat) (raw : Nat) (now : Int) : Db :=
  { db with fetchLogs := db.fetchLogs ++ [⟨db.fetchLogs.length + 1, job, raw, now⟩] }

/-- `ORDER BY attempted_at DESC, id DESC LIMIT 1`. -/
def latestLog : List FetchLog → Option FetchLog
  | [] => none
  | f :: fs =>
    match latestLog fs with
    | none => some f
    | some g =>
      if g.attemptedAt < f.attemptedAt ∨ (g.attemptedAt = f.attemptedAt ∧ g.id < f.id) then some f else some g

def latestJobPayload (db : Db) (job : Nat) (src : Source) : Option Nat :=
  (latestLog (db.fetchLogs.filter fun f =>
    f.jobId = some job ∧ (db.rawPayload f.rawPayloadId).map RawPayload.source = some src)).map FetchLog.rawPayloadId

/-- A row of the payloads joined with their fetches: the time, the fetch (0 when there is none) and the payload. -/
structure Sighting where
  time : Int
  log : Nat
  raw : Nat
deriving DecidableEq, Repr

def sightings (db : Db) (p : RawPayload) : List Sighting :=
  match db.fetchLogs.filter fun f => f.rawPayloadId = p.id with
  | [] => [⟨p.fetchedAt, 0, p.id⟩]
  | fs => fs.map fun f => ⟨f.attemptedAt, f.id, p.id⟩

def Sighting.newer (a b : Sighting) : Bool :=
  decide (b.time < a.time ∨ (b.time = a.time ∧ (b.log < a.log ∨ (b.log = a.log ∧ b.raw < a.raw))))

def latestSighting : List Sighting → Option Sighting
  | [] => none
  | a :: as =>
    match latestSighting as with
    | none => some a
    | some b => if a.newer b then some a else some b

/-- `latest_successful_source` and `latest_raw_payload_id`, which agree because only 200 responses are stored and only
200 and 304 responses refer to them. -/
def latestSource (db : Db) (src : Source) : Option Nat :=
  (latestSighting ((db.rawPayloads.filter fun p => p.source = src).flatMap db.sightings)).map Sighting.raw

/-- `payload_observed_at`; `none` is the `KeyError` of an absent payload. -/
def payloadObservedAt (db : Db) (raw : Nat) : Option Int :=
  (db.rawPayload raw).map fun p =>
    ((db.fetchLogs.filter fun f => f.rawPayloadId = raw).map FetchLog.attemptedAt).foldr max p.fetchedAt

/-! ## Coverage and checkpoints -/

/-- `record_coverage`: a row of a later step stays. -/
def recordCoverage (db : Db) (unit : String) (new : CoverageRow) : Db :=
  match db.coverage unit with
  | none => { db with coverage := Function.update db.coverage unit (some new) }
  | some old =>
    if old.fetchedAt ≤ new.fetchedAt then
      let row := { new with rawPayloadId := new.rawPayloadId.orElse fun _ => old.rawPayloadId }
      { db with coverage := Function.update db.coverage unit (some row) }
    else db

def saveCheckpoint (db : Db) (job : Nat) (c : Cursor) : Db :=
  { db with checkpoints := Function.update db.checkpoints job (some c) }

/-- The pending rows of an inventory. -/
def recordPending (db : Db) (units : List String) (now : Int) : Db :=
  units.foldl (fun db unit =>
    if (db.coverage unit).isNone then db.recordCoverage unit ⟨.pending, none, now, none, false⟩ else db) db

/-- `_failure`. -/
def recordFailure (db : Db) (unit : String) (status : Nat) (message : String) (now : Int) : Db :=
  db.recordCoverage unit ⟨if status = 404 ∨ status = 410 then .missing else .error, none, now, some message, false⟩

end Db
end ChessCrawl.Monthly
