import ChessCrawl.Monthly.Store
import ChessCrawl.Collection.Lichess

/-! `execute_collection` on Chess.com jobs of one user as a transition system. A call stops at every commit and between
two reads of the archive, and a crash drops a call and keeps what it committed. The clock takes any value at any time. -/
namespace ChessCrawl.Monthly
open ChessCrawl.Acquisition ChessCrawl.Lib
open ChessCrawl.Collection (positive milliseconds)
set_option autoImplicit false

/-! ## The inventory -/

def archiveUnit (username : String) (url : ArchiveUrl) : Except String String :=
  let lead := ("/pub/player/" ++ username ++ "/games/").toList
  if url.scheme ≠ "https" ∨ url.netloc ≠ "api.chess.com" ∨ url.query ≠ "" ∨ url.fragment ≠ "" ∨
      lead.isPrefixOf url.path.toList = false then
    .error "archives index contains an unexpected source URL"
  else do
    let unit := String.ofList (url.path.toList.drop lead.length)
    let _ ← monthBounds unit
    return unit

/-- The units of a list that overlap the window. -/
def overlapping (sinceMs untilMs : Option Int) : List String → Except String (List String)
  | [] => .ok []
  | unit :: units => do
    let overlaps ← monthOverlaps unit sinceMs untilMs
    let rest ← overlapping sinceMs untilMs units
    return if overlaps then unit :: rest else rest

structure Exec where
  params : Params
  batchSize : Nat
  sinceMs : Option Int
  untilMs : Option Int
  now : Int
  processed : Nat
deriving DecidableEq, Repr

/-- `none` is a `ValueError` about the parameters. -/
def Exec.ofParams (p : Params) (now : Int) : Option Exec := do
  let batchSize ← positive p.batchSize 4 100
  let sinceMs ← milliseconds p.sinceMs p.since
  let untilMs ← milliseconds p.untilMs p.upto
  if sinceMs.any fun a => untilMs.any fun b => decide (b < a) then none
  else some ⟨p, batchSize, sinceMs, untilMs, now, 0⟩

/-- The inventoried units of an index, in order, and the requested months that it does not list. -/
def inventory (username : String) (x : Exec) (body : Body) : Except String (List String × List String) :=
  match body.archives with
  | none => .error "invalid Chess.com archives index"
  | some urls => do
    let listed ← urls.mapM (archiveUnit username)
    let units ← overlapping x.sinceMs x.untilMs (listed.dedup.insertionSort (· ≤ ·))
    match x.params.months with
    | none => return (units, [])
    | some requested => do
      let _ ← requested.mapM monthBounds
      let units := units.filter fun unit => requested.contains unit
      return (units, requested.dedup.filter fun unit => !units.contains unit)

/-! ## Program points -/

/-- The points of the loop over the units. -/
inductive Pc
  | head
  | covered (unit : String) (raw : Option Nat)
  | chosen (unit : String) (raw : Option Nat)
  | stored (unit : String) (raw : Nat)
  | fetching (unit : String)
  | requested (unit : String) (requestedAt : Int)
  | resolving (unit : String)
  | fetched (unit : String) (raw : Nat)
  | refused (unit : String) (status : Nat) (message : String)
deriving DecidableEq, Repr

/-- A call before and after it has its cursor. -/
inductive Call
  | index (x : Exec)
  | requestedIndex (x : Exec) (requestedAt : Int)
  | refusedIndex (x : Exec) (status : Nat) (message : String)
  | indexed (x : Exec) (raw : Nat)
  | absent (x : Exec) (units rest : List String)
  | running (x : Exec) (c : Cursor) (pc : Pc)
deriving DecidableEq, Repr

/-- `retry` is a failed attempt that the client repeats. -/
inductive Response
  | ok (body : Body)
  | notModified
  | retry
  | failed (status : Nat) (message : String)
deriving DecidableEq, Repr

/-- What a call meets: the stop flag, whether the job runs under a work budget, whether the current parser has read the
body that a 304 confirms, and the provider's response. -/
structure Input where
  stop : Bool
  budgeted : Bool
  current : Bool
  response : Response
deriving DecidableEq, Repr

/-- The source key of a month's request. -/
def monthSource (year month : Nat) : Source := .month (monthKey year month)

def notModifiedMessage : String := "not modified; no new raw payload stored"

def Exec.next (x : Exec) : Exec := { x with processed := x.processed + 1 }

def Cursor.next (c : Cursor) : Cursor := { c with unitIndex := c.unitIndex + 1 }

namespace Db

/-- `_persist_response` on a body. -/
def persist (db : Db) (job : Option Nat) (src : Source) (body : Body) (requestedAt : Int) : Db × Nat :=
  let (db, raw) := db.storeRawPayload src body requestedAt
  (db.insertFetchLog job raw requestedAt, raw)

/-- The transaction that passes a month with its body. -/
def commitMonth (db : Db) (job : Nat) (c : Cursor) (unit : String) (raw : Nat) (isSealed : Bool) (now : Int) : Db :=
  (db.recordCoverage unit ⟨.complete, some raw, now, none, isSealed⟩).saveCheckpoint job c.next

/-- The transaction that passes a month the provider does not have. -/
def commitGone (db : Db) (job : Nat) (c : Cursor) (unit : String) (status : Nat) (message : String) (now : Int) : Db :=
  (db.recordFailure unit status message now).saveCheckpoint job c.next

/-- The games of a preserved body, if they are a list. -/
def games (db : Db) (raw : Nat) : Option Nat := (db.rawPayload raw).bind fun p => p.body.games

end Db

def Pc.advance (job : Nat) (clock : Int) (db : Db) (i : Input) (x : Exec) (c : Cursor) : Pc → Db × Option Call
  | .head =>
    match if x.processed < x.batchSize ∧ i.stop = false then c.units[c.unitIndex]? else none with
    | some unit => (db, some (.running x c (.covered unit ((db.coverage unit).bind CoverageRow.rawPayloadId))))
    | none =>
      if c.unitIndex = c.units.length then (db.saveCheckpoint job { c with done := true }, none) else (db, none)
  | .covered unit raw =>
    (db, some (.running x c (.chosen unit ((db.latestSource (.month unit)).orElse fun _ => raw))))
  | .chosen unit none => (db, some (.running x c (.fetching unit)))
  | .chosen unit (some raw) =>
    match monthBounds unit, db.payloadObservedAt raw with
    | .ok (_, _, stop), some observed =>
      if x.params.mode ≠ .backfill ∧ stop ≤ observed then (db, some (.running x c (.stored unit raw)))
      else (db, some (.running x c (.fetching unit)))
    | _, _ => (db, none)
  | .stored unit raw =>
    if (db.games raw).isSome then
      (db.commitMonth job c unit raw true x.now, some (.running x.next c.next .head))
    else (db, none)
  | .fetching unit =>
    match monthBounds unit with
    | .ok (year, month, _) =>
      match if i.budgeted then db.latestJobPayload job (monthSource year month) else none with
      | some raw => (db, some (.running x c (.fetched unit raw)))
      | none => (db, some (.running x c (.requested unit clock)))
    | .error _ => (db, none)
  | .requested unit requestedAt =>
    match monthBounds unit, i.response with
    | .ok (year, month, _), .ok body =>
      let (db, raw) := db.persist (some job) (monthSource year month) body requestedAt
      (db, some (.running x c (.fetched unit raw)))
    | .ok (year, month, _), .notModified =>
      match db.latestSource (monthSource year month) with
      | none => (db, none)
      | some raw =>
        (db.insertFetchLog (some job) raw requestedAt,
          some (.running x c (if i.current then .resolving unit else .fetched unit raw)))
    | .ok _, .retry => (db, some (.running x c (.requested unit clock)))
    | .ok _, .failed status message => (db, some (.running x c (.refused unit status message)))
    | .error _, _ => (db, none)
  | .resolving unit =>
    match db.latestSource (.month unit) with
    | some raw => (db, some (.running x c (.fetched unit raw)))
    | none => (db, some (.running x c (.refused unit 304 notModifiedMessage)))
  | .fetched unit raw =>
    match monthBounds unit with
    | .ok (_, _, stop) =>
      if (db.games raw).isSome then
        (db.commitMonth job c unit raw (decide (stop ≤ x.now)) x.now, some (.running x.next c.next .head))
      else (db, none)
    | .error _ => (db, none)
  | .refused unit status message =>
    if status = 404 ∨ status = 410 then
      (db.commitGone job c unit status message x.now, some (.running x.next c.next .head))
    else (db.recordFailure unit status message x.now, none)

def Call.advance (username : String) (job : Nat) (clock : Int) (db : Db) (i : Input) : Call → Db × Option Call
  | .index x =>
    match if i.budgeted then db.latestJobPayload job .index else none with
    | some raw => (db, some (.indexed x raw))
    | none => (db, some (.requestedIndex x clock))
  | .requestedIndex x requestedAt =>
    match i.response with
    | .ok body =>
      let (db, raw) := db.persist (some job) .index body requestedAt
      (db, some (.indexed x raw))
    | .notModified =>
      match db.latestSource .index with
      | none => (db, none)
      | some raw => (db.insertFetchLog (some job) raw requestedAt, some (.indexed x raw))
    | .retry => (db, some (.requestedIndex x clock))
    | .failed status message => (db, some (.refusedIndex x status message))
  | .refusedIndex x status message => (db.recordFailure "archives_index" status message x.now, none)
  | .indexed x raw =>
    match (db.rawPayload raw).map fun p => inventory username x p.body with
    | some (.ok (units, rest)) => (db, some (.absent x units rest))
    | _ => (db, none)
  | .absent x units (unit :: rest) =>
    (db.recordCoverage unit ⟨.missing, none, x.now, some "not listed by provider", false⟩,
      some (.absent x units rest))
  | .absent x units [] =>
    let c : Cursor := ⟨x.params.fingerprint, units, 0, false⟩
    ((db.recordPending units x.now).saveCheckpoint job c, some (.running x c .head))
  | .running x c pc => pc.advance job clock db i x c

/-! ## The system -/

structure State where
  db : Db
  clock : Int
  calls : Nat → Option Call

/-- `observe` is another importer, which preserves a month at any time. -/
inductive Event
  | clock (t : Int)
  | enter (job : Nat) (params : Params) (stop : Bool)
  | advance (job : Nat) (i : Input)
  | crash (job : Nat)
  | observe (year month : Nat) (body : Body) (requestedAt : Int)
deriving DecidableEq, Repr

/-- `execute_collection` up to the provider's own branch. -/
def enter (username : String) (s : State) (job : Nat) (params : Params) (stop : Bool) : Option Call :=
  match s.db.checkpoints job, Exec.ofParams params s.clock with
  | _, none => none
  | some c, some x =>
    if username = "" ∨ c.requestFingerprint ≠ params.fingerprint ∨ c.done ∨ stop then none
    else some (.running x c .head)
  | none, some x => if username = "" ∨ stop then none else some (.index x)

def step (username : String) (s : State) : Event → Option State
  | .clock t => some { s with clock := t }
  | .enter job params stop =>
    if (s.calls job).isSome then none
    else some { s with calls := Function.update s.calls job (enter username s job params stop) }
  | .advance job i =>
    (s.calls job).map fun call =>
      let (db, next) := call.advance username job s.clock s.db i
      { s with db := db, calls := Function.update s.calls job next }
  | .crash job => some { s with calls := Function.update s.calls job none }
  | .observe year month body requestedAt =>
    if IsMonth year month ∧ year ≤ 9999 then
      some { s with db := (s.db.persist none (monthSource year month) body requestedAt).1 }
    else none

def chesscom (username : String) : System State Event where
  init s := s.db = Db.empty ∧ ∀ job, s.calls job = none
  step := step username

end ChessCrawl.Monthly
