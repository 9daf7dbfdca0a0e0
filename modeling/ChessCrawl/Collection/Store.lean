import ChessCrawl.Lib.Span
import Mathlib.Data.Finset.Card
import Mathlib.Logic.Function.Basic
import Mathlib.Algebra.Group.Int.Defs

/-! The archive tables behind Lichess collection of one user, and the queries of
`storage/collection.py` and `storage/raw.py` over them. Source keys and body hashes are compared as
the values they encode, and game identities by their place in the text order, so no string is
computed on. A payload also keeps the wall clock of its request, which no query reads. -/
namespace ChessCrawl.Collection
open ChessCrawl.Lib
set_option autoImplicit false

/-- A nonempty provider game id, coded by its place in the text order. -/
abbrev GameRef := Nat

inductive Status
  | aborted | mate | resign | stalemate | timeout | draw | outoftime | cheat | noStart
  | unknownFinish | variantEnd | created | started | unfamiliar
deriving DecidableEq, Repr

def Status.terminal : Status → Bool
  | .created | .started | .unfamiliar => false
  | _ => true

/-- A game object of a response; `none` is a field that is absent or of the wrong type, and `rest`
stands for everything the collector never looks at. -/
structure GameObject where
  id : Option GameRef
  createdAt : Option Int
  status : Option Status
  rest : Nat
deriving DecidableEq, Repr

/-- What distinguishes two stream requests, as written into the canonical source key. -/
structure PageKey where
  since : Option Int
  upto : Int
  limit : Nat
deriving DecidableEq, Repr

def PageKey.span (k : PageKey) : Span := ⟨k.since, k.upto⟩

inductive Source
  | page (k : PageKey)
  | game (ref : GameRef)
deriving DecidableEq, Repr

/-- A `raw_payloads` row with a 200 response in the public scope. -/
structure RawPayload where
  id : Nat
  source : Source
  body : List GameObject
  requestedAt : Int
deriving DecidableEq, Repr

/-- A successful `fetch_logs` row. -/
structure FetchLog where
  id : Nat
  jobId : Nat
  rawPayloadId : Nat
  attemptedAt : Int
deriving DecidableEq, Repr

/-- A `collection_source_ranges` row. -/
structure SourceRange where
  rawPayloadId : Nat
  coveredSince : Option Int
  coveredUntil : Int
deriving DecidableEq, Repr

def SourceRange.span (r : SourceRange) : Span := ⟨r.coveredSince, r.coveredUntil⟩

inductive CoverageState
  | pending | complete | missing | error
deriving DecidableEq, Repr

inductive UnitKey
  | history
  | window (since : Option Int) (upto : Int)
  | millis (k : PageKey)
  | followup (ref : GameRef)
deriving DecidableEq, Repr

/-- A `collection_coverage` row, without the columns no query here reads. -/
structure CoverageRow where
  state : CoverageState
  rawPayloadId : Option Nat
  fetchedAt : Int
  error : Option String
  windowSince : Option Int
  windowUntil : Option Int
  isSealed : Bool
deriving DecidableEq, Repr

inductive Mode
  | full | incremental | backfill
deriving DecidableEq, Repr

/-- The job parameters; `since` and `upto` are Unix seconds. -/
structure Params where
  mode : Mode
  since : Option Int
  sinceMs : Option Int
  upto : Option Int
  untilMs : Option Int
  batchSize : Option Int
  pageSize : Option Int
  maxPageSize : Option Int
  maxGames : Option Int
deriving DecidableEq, Repr

/-- The request fingerprint: the parameters without the capacity settings. -/
def Params.fingerprint (p : Params) : Params :=
  { p with batchSize := none, pageSize := none, maxPageSize := none, maxGames := none }

inductive Phase
  | stored | followups | pages
deriving DecidableEq, Repr

/-- The checkpoint cursor of a Lichess job; `followupAfter = none` is the empty text. -/
structure Cursor where
  requestFingerprint : Params
  sinceMs : Option Int
  upperMs : Int
  requestedSinceMs : Option Int
  untilMs : Int
  limit : Nat
  followupAfter : Option GameRef
  phase : Phase
  localAfter : Nat
  localHighWater : Nat
  done : Bool
deriving DecidableEq, Repr

/-- A running attempt holds its position in the body and its remaining selection. -/
inductive ChildState
  | pending
  | running (position : Nat) (remaining : Option Nat)
  | done
  | failed
deriving DecidableEq, Repr

/-- A `normalize_payload` job queued by a collection job. -/
structure Child where
  rawPayloadId : Nat
  fetchLogId : Nat
  maxGames : Option Nat
  parentJobId : Nat
  crawlRunId : Option Nat
  state : ChildState
deriving DecidableEq, Repr

/-- The stored game a payload object resolves to: by provider id, else by its content. -/
inductive GameKey
  | byId (ref : GameRef)
  | byContent (g : GameObject)
deriving DecidableEq, Repr

def GameObject.key (g : GameObject) : GameKey :=
  match g.id with
  | some ref => .byId ref
  | none => .byContent g

structure Db where
  rawPayloads : List RawPayload
  fetchLogs : List FetchLog
  sourceRanges : List SourceRange
  coverage : UnitKey → Option CoverageRow
  checkpoints : Nat → Option Cursor
  followups : List (GameRef × Int)
  children : List Child
  runGames : List (Nat × GameKey)

def Db.empty : Db := ⟨[], [], [], fun _ => none, fun _ => none, [], [], []⟩

namespace Db

/-! ## Raw payloads and fetch logs -/

/-- `store_raw_payload`: a body seen before under the same key keeps its row. -/
def storeRawPayload (db : Db) (src : Source) (body : List GameObject) (now : Int) : Db × Nat :=
  match db.rawPayloads.find? fun p => p.source = src ∧ p.body = body with
  | some p => (db, p.id)
  | none =>
    let id := db.rawPayloads.length + 1
    ({ db with rawPayloads := db.rawPayloads ++ [⟨id, src, body, now⟩] }, id)

def insertFetchLog (db : Db) (job raw : Nat) (now : Int) : Db × Nat :=
  let id := db.fetchLogs.length + 1
  ({ db with fetchLogs := db.fetchLogs ++ [⟨id, job, raw, now⟩] }, id)

def rawPayload (db : Db) (id : Nat) : Option RawPayload := db.rawPayloads.find? fun p => p.id = id

/-- `ORDER BY attempted_at DESC, id DESC LIMIT 1`. -/
def latestLog : List FetchLog → Option FetchLog
  | [] => none
  | f :: fs =>
    match latestLog fs with
    | none => some f
    | some g =>
      if g.attemptedAt < f.attemptedAt ∨ (g.attemptedAt = f.attemptedAt ∧ g.id < f.id) then some f
      else some g

def latestJobPayload (db : Db) (job : Nat) (src : Source) : Option (Nat × Nat) :=
  (latestLog (db.fetchLogs.filter fun f =>
    f.jobId = job ∧ ((db.rawPayload f.rawPayloadId).map RawPayload.source) = some src)).map
      fun f => (f.rawPayloadId, f.id)

/-- `observation_id`: the newest successful fetch of a payload. -/
def observationId (db : Db) (raw : Nat) : Nat :=
  ((db.fetchLogs.filter fun f => f.rawPayloadId = raw).map FetchLog.id).foldr max 0

/-- `enqueue_payload_normalization`: one child for an occurrence, terminal children included. -/
def enqueuePayloadNormalization (db : Db) (raw fetch : Nat) (maxGames : Option Nat) (parent : Nat)
    (run : Option Nat) : Db :=
  if db.children.any fun c =>
      c.rawPayloadId = raw ∧ c.fetchLogId = fetch ∧ c.parentJobId = parent ∧ c.crawlRunId = run
  then db
  else { db with children := db.children ++ [⟨raw, fetch, maxGames, parent, run, .pending⟩] }

/-! ## Checkpoints, ranges and coverage -/

def saveCheckpoint (db : Db) (job : Nat) (c : Cursor) : Db :=
  { db with checkpoints := Function.update db.checkpoints job (some c) }

/-- `INSERT … ON CONFLICT DO NOTHING` on the payload's range. -/
def recordSourceRange (db : Db) (raw : Nat) (since : Option Int) (upto : Int) : Db :=
  if db.sourceRanges.any fun r => r.rawPayloadId = raw then db
  else { db with sourceRanges := db.sourceRanges ++ [⟨raw, since, upto⟩] }

/-- The range meets the window: `covered_since < upto` and `covered_until > since`. -/
def overlaps (r : SourceRange) (since : Option Int) (upto : Int) : Bool :=
  (match r.coveredSince with | none => true | some a => decide (a < upto)) &&
    (match since with | none => true | some s => decide (s < r.coveredUntil))

def coveredSourceHighWater (db : Db) (upto : Int) (since : Option Int) : Nat :=
  ((db.sourceRanges.filter fun r => overlaps r since upto).map SourceRange.rawPayloadId).foldr max 0

def coveredSources (db : Db) (upto : Int) (after highWater limit : Nat) (since : Option Int) :
    List Nat :=
  (((db.sourceRanges.filter fun r =>
    overlaps r since upto && decide (after < r.rawPayloadId) && decide (r.rawPayloadId ≤ highWater)).map
      SourceRange.rawPayloadId).insertionSort (· ≤ ·)).take limit

/-- The upper bound of a complete open-lower `history` row. -/
def historyWatermark (db : Db) : Option Int :=
  match db.coverage .history with
  | some row => if row.state = .complete ∧ row.windowSince = none then row.windowUntil else none
  | none => none

/-- The `covered` relation shared by the two multirange queries. -/
def coveredSpans (db : Db) : List Span :=
  db.sourceRanges.map SourceRange.span ++ db.historyWatermark.toList.map fun u => ⟨none, u⟩

def missingWindows (db : Db) (since : Option Int) (upto : Int) : List Span :=
  missing ⟨since, upto⟩ db.coveredSpans

def historyHighWater (db : Db) : Option Int := openUpper db.coveredSpans

/-- Whether a `history` write replaces the stored row. -/
def historyAdvances (old new : CoverageRow) : Bool :=
  match new.state, new.windowSince, new.windowUntil with
  | .complete, none, some u =>
    if old.state = .complete ∧ old.windowSince = none then
      match old.windowUntil with
      | none => true
      | some v => decide (v < u) || (decide (u = v) && decide (old.fetchedAt ≤ new.fetchedAt))
    else true
  | _, _, _ => false

def replaces (unit : UnitKey) (old new : CoverageRow) : Bool :=
  match unit with
  | .history => historyAdvances old new
  | _ => decide (old.fetchedAt ≤ new.fetchedAt)

/-- `record_coverage`. -/
def recordCoverage (db : Db) (unit : UnitKey) (new : CoverageRow) : Db :=
  match db.coverage unit with
  | none => { db with coverage := Function.update db.coverage unit (some new) }
  | some old =>
    if replaces unit old new then
      let row := { new with rawPayloadId := new.rawPayloadId.orElse fun _ => old.rawPayloadId }
      { db with coverage := Function.update db.coverage unit (some row) }
    else db

/-! ## Follow-ups -/

def trackFollowup (db : Db) (ref : GameRef) (created : Int) (finished : Bool) : Db :=
  if finished then { db with followups := db.followups.filter fun f => f.1 ≠ ref }
  else if db.followups.any fun f => f.1 = ref then db
  else { db with followups := db.followups ++ [(ref, created)] }

def followupRefs (db : Db) (after : Option GameRef) (limit : Nat) : List GameRef :=
  (((db.followups.map Prod.fst).filter fun ref => after.all fun a => decide (a < ref)).insertionSort
    (· ≤ ·)).take limit

end Db
end ChessCrawl.Collection
