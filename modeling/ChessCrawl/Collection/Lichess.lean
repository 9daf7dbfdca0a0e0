import ChessCrawl.Collection.Page
import ChessCrawl.Lib.Run

/-! `execute_collection` on Lichess jobs of one user as a transition system. A call stops at every
commit and after every read whose value it carries over a commit, so the steps of concurrent calls
interleave there; a crash drops a call and keeps what it committed. Payload children run beside the
calls, one game at a time. -/
namespace ChessCrawl.Collection
open ChessCrawl.Lib
set_option autoImplicit false

/-- `answers` holds the page bodies the provider may send for a request. -/
structure Env where
  answers : PageKey → List GameObject → Bool
  jobRun : Nat → Option Nat
  runParams : Nat → Params

/-! ## Arguments of a call -/

def positive (value : Option Int) (fallback maximum : Int) : Option Nat :=
  let v := value.getD fallback
  if 1 ≤ v ∧ v ≤ maximum then some v.toNat else none

def milliseconds (ms seconds : Option Int) : Option (Option Int) :=
  match ms, seconds with
  | some v, _ => if 0 ≤ v ∧ v < 2 ^ 63 then some (some v) else none
  | none, some s => if 0 ≤ s ∧ s * 1000 < 2 ^ 63 then some (some (s * 1000)) else none
  | none, none => some none

structure Exec where
  params : Params
  batchSize : Nat
  pageSize : Nat
  maxPageSize : Nat
  nowMs : Int
  processed : Nat
deriving DecidableEq, Repr

def Exec.now (x : Exec) : Int := x.nowMs / 1000

def Exec.ofParams (p : Params) (nowMs : Int) : Option Exec := do
  let batchSize ← positive p.batchSize 4 100
  let pageSize ← positive p.pageSize (p.maxGames.getD 1000) 10000
  let maxPageSize ← positive p.maxPageSize (max 10000 (pageSize : Int)) 100000
  if maxPageSize < pageSize then none
  else some ⟨p, batchSize, pageSize, maxPageSize, nowMs, 0⟩

/-! ## Program points -/

inductive Target
  | followup (ref : GameRef) (rows : List GameRef) (full : Bool)
  | page (k : PageKey)
deriving DecidableEq, Repr

def Target.source : Target → Source
  | .followup ref _ _ => .game ref
  | .page k => .page k

def Target.maxGames : Target → Option Nat
  | .followup _ _ _ => some 1
  | .page _ => none

def Target.answered (env : Env) (body : List GameObject) : Target → Bool
  | .followup _ _ _ => true
  | .page k => env.answers k body

inductive Pc
  | start
  | stored (sources : List Nat) (short : Bool)
  | replayed (raw : Nat) (sources : List Nat) (short : Bool)
  | followups (rows : List GameRef) (full : Bool)
  | paging
  | closing
  | fetching (t : Target)
  | requested (t : Target) (requestedAt : Int)
  | captured (t : Target) (raw fetch : Nat)
  | fetched (t : Target) (raw : Nat)
  | refused (t : Target) (status : Nat) (message : String)
  | recorded (k : PageKey) (raw : Nat)
  | judged (k : PageKey) (raw : Nat) (done : Bool)
deriving DecidableEq, Repr

/-- A call before and after it has its cursor; `pinning` has read the gaps and not yet the stored
sources, `saving` holds a cursor that no checkpoint holds. -/
inductive Call
  | creating (x : Exec)
  | pinning (x : Exec) (since : Option Int) (upto : Int) (first : Span)
  | saving (x : Exec) (c : Cursor)
  | running (x : Exec) (c : Cursor) (pc : Pc)
deriving DecidableEq, Repr

inductive Response
  | ok (body : List GameObject)
  | failed (status : Nat) (message : String)
deriving DecidableEq, Repr

/-- What a call meets at a program point: the stop flag, whether the stored payload lacks the current
parser, whether the job runs under a work budget, and the provider's response. -/
structure Input where
  stop : Bool
  needsParser : Bool
  budgeted : Bool
  response : Response
deriving DecidableEq, Repr

/-! ## Transactions -/

namespace Db

/-- `_track_game`; `none` is the `ValueError` that rolls the transaction back. -/
def trackGame (db : Db) (g : GameObject) : Option Db :=
  match g.id, g.createdAt, g.status with
  | some ref, some created, some status =>
    if created < 0 then none else some (db.trackFollowup ref created status.terminal)
  | _, _, _ => none

def trackGames (db : Db) (body : List GameObject) : Option Db := body.foldlM trackGame db

/-- The range and the follow-ups of a checked page; the range table's own checks hold whenever the
games can be tracked. -/
def recordPage (db : Db) (k : PageKey) (raw : Nat) (body : List GameObject) : Option Db := do
  let timestamps ← pageTimestamps k body
  let proven ← provenSpan k body timestamps
  (db.recordSourceRange raw proven.lower proven.upper).trackGames body

def completeRow (raw : Option Nat) (since : Option Int) (upto now : Int) : CoverageRow :=
  ⟨.complete, raw, now, none, since, some upto, false⟩

def recordHistory (db : Db) (raw : Option Nat) (now : Int) : Db :=
  match db.historyHighWater with
  | none => db
  | some highWater => db.recordCoverage .history (completeRow raw none highWater now)

/-- `_failure`. -/
def recordFailure (db : Db) (unit : UnitKey) (status : Nat) (message : String) (now : Int) : Db :=
  let state := if status = 404 ∨ status = 410 then CoverageState.missing else CoverageState.error
  db.recordCoverage unit ⟨state, none, now, some message, none, none, false⟩

/-- The window was already covered when the page was planned. -/
def commitCovered (db : Db) (job : Nat) (c : Cursor) (now : Int) : Db :=
  let db := db.recordCoverage (.window c.requestedSinceMs c.upperMs)
    (completeRow none c.requestedSinceMs c.upperMs now)
  let db := db.recordHistory none now
  db.saveCheckpoint job { c with done := true }

/-- The transaction after a page: unit rows, watermark and checkpoint. -/
def commitPage (db : Db) (job : Nat) (c : Cursor) (k : PageKey) (raw : Nat) (whole done : Bool)
    (now : Int) : Db :=
  let db := db.recordCoverage (.millis k) (completeRow (some raw) k.since k.upto now)
  let db := if whole then
      db.recordCoverage (.window k.since k.upto) (completeRow (some raw) k.since k.upto now)
    else db
  let db := db.recordHistory (some raw) now
  let db := if done then
      db.recordCoverage (.window c.requestedSinceMs c.upperMs)
        (completeRow (some raw) c.requestedSinceMs c.upperMs now)
    else db
  db.saveCheckpoint job (if done then { c with done := true } else c)

end Db

def boundaryError : String := "timestamp boundary exceeds configured page budget"

/-- Where a saturated page continues: its oldest millisecond again, with room for the ties. -/
def nextPage (pageSize : Nat) (k : PageKey) (timestamps : List Int) (oldest : Int) : Int × Nat :=
  let limit := pageSize + timestamps.count oldest
  (oldest + 1, if k.upto ≤ oldest + 1 then max limit (k.limit * 2) else limit)

/-- The window that a call asks for next. -/
def replan (db : Db) (x : Exec) (c : Cursor) : Cursor :=
  if x.params.mode = .backfill then c else
    let first := (db.missingWindows c.requestedSinceMs c.upperMs).headD ⟨some c.upperMs, c.upperMs⟩
    let limit := if (first.lower, first.upper) ≠ (c.sinceMs, c.untilMs) then x.pageSize else c.limit
    { c with sinceMs := first.lower, untilMs := first.upper, limit := limit }

/-! ## Steps of a call -/

/-- `none` when the input is not one the provider sends; a call that returns or raises is dropped. -/
def Pc.advance (env : Env) (job : Nat) (clock : Int) (db : Db) (i : Input) (x : Exec) (c : Cursor) :
    Pc → Option (Db × Option Call)
  | .start =>
    match c.phase with
    | .stored =>
      let sources := db.coveredSources c.upperMs c.localAfter c.localHighWater x.batchSize
        c.requestedSinceMs
      some (db, some (.running x c (.stored sources (sources.length < x.batchSize))))
    | .followups =>
      let rows := db.followupRefs c.followupAfter x.batchSize
      some (db, some (.running x c (.followups rows (rows.length = x.batchSize))))
    | .pages => some (db, some (.running x c .paging))
  | .stored (raw :: sources) short =>
    if i.stop then some (db, none)
    else
      let fetch := match (db.rawPayload raw).bind fun p => db.latestJobPayload job p.source with
        | some found => found.2
        | none => db.observationId raw
      let db := if i.needsParser ∨ (env.jobRun job).isSome then
          db.enqueuePayloadNormalization raw fetch none job (env.jobRun job)
        else db
      some (db, some (.running x c (.replayed raw sources short)))
  | .replayed raw sources short =>
    let c := { c with localAfter := raw }
    some (db.saveCheckpoint job c,
      some (.running { x with processed := x.processed + 1 } c (.stored sources short)))
  | .stored [] short =>
    let c := if short then { c with phase := .followups } else c
    let db := if short then db.saveCheckpoint job c else db
    if 0 < x.processed then some (db, none)
    else some (db, some (.running x c (if c.phase = .followups then .start else .paging)))
  | .followups (ref :: rows) full =>
    if i.stop then some (db, none)
    else some (db, some (.running x c (.fetching (.followup ref rows full))))
  | .followups [] full =>
    if full then some (db, none)
    else
      let c := { c with phase := .pages }
      let db := db.saveCheckpoint job c
      if 0 < x.processed then some (db, none) else some (db, some (.running x c .paging))
  | .paging =>
    if i.stop then some (db, none)
    else
      let c := replan db x c
      if c.sinceMs = some c.untilMs then some (db, some (.running x c .closing))
      else some (db, some (.running x c (.fetching (.page ⟨c.sinceMs, c.untilMs, c.limit⟩))))
  | .closing => some (db.commitCovered job c x.now, none)
  | .fetching t =>
    match if i.budgeted then db.latestJobPayload job t.source else none with
    | some (raw, fetch) =>
      some (db.enqueuePayloadNormalization raw fetch t.maxGames job (env.jobRun job),
        some (.running x c (.fetched t raw)))
    | none => some (db, some (.running x c (.requested t clock)))
  | .requested t requestedAt =>
    match i.response with
    | .failed status message => some (db, some (.running x c (.refused t status message)))
    | .ok body =>
      if t.answered env body then
        let (db, raw) := db.storeRawPayload t.source body requestedAt
        let (db, fetch) := db.insertFetchLog job raw clock
        some (db, some (.running x c (.captured t raw fetch)))
      else none
  | .captured t raw fetch =>
    some (db.enqueuePayloadNormalization raw fetch t.maxGames job (env.jobRun job),
      some (.running x c (.fetched t raw)))
  | .fetched (.followup ref rows full) raw =>
    match (db.rawPayload raw).map RawPayload.body with
    | some [g] =>
      if g.id = some ref then
        match db.trackGame g with
        | some db =>
          let c := { c with followupAfter := some ref }
          some (db.saveCheckpoint job c,
            some (.running { x with processed := x.processed + 1 } c (.followups rows full)))
        | none => some (db, none)
      else some (db, none)
    | _ => some (db, none)
  | .refused (.followup ref rows full) status message =>
    let db := db.recordFailure (.followup ref) status message x.now
    if status = 404 ∨ status = 410 then
      let c := { c with followupAfter := some ref }
      some (db.saveCheckpoint job c,
        some (.running { x with processed := x.processed + 1 } c (.followups rows full)))
    else some (db, none)
  | .refused (.page k) status message =>
    some (db.recordFailure (.millis k) status message x.now, none)
  | .fetched (.page k) raw =>
    match (db.rawPayload raw).bind fun p => db.recordPage k raw p.body with
    | some db => some (db, some (.running x c (.recorded k raw)))
    | none => some (db, none)
  | .recorded k raw =>
    match db.rawPayload raw with
    | none => some (db, none)
    | some p =>
      let done := if x.params.mode = .backfill then rangeDone k p.body
        else (db.missingWindows c.requestedSinceMs c.upperMs).isEmpty
      some (db, some (.running x c (.judged k raw done)))
  | .judged k raw done =>
    match (db.rawPayload raw).bind fun p => (pageTimestamps k p.body).map fun ts => (p, ts) with
    | none => some (db, none)
    | some (p, timestamps) =>
      if rangeDone k p.body then some (db.commitPage job c k raw true done x.now, none)
      else
        match timestamps.getLast? with
        | none => some (db, none)
        | some oldest =>
          let next := nextPage x.pageSize k timestamps oldest
          if x.maxPageSize < next.2 then
            some (db.recordCoverage (.millis k)
              ⟨.error, some raw, x.now, some boundaryError, none, none, false⟩, none)
          else
            let c := { c with untilMs := next.1, limit := next.2 }
            some (db.commitPage job c k raw false done x.now, none)

def Call.advance (env : Env) (job : Nat) (clock : Int) (db : Db) (i : Input) :
    Call → Option (Db × Option Call)
  | .creating x =>
    match milliseconds x.params.sinceMs x.params.since, milliseconds x.params.untilMs x.params.upto with
    | some since, some given =>
      let upto := given.getD x.nowMs
      if since.any fun s => upto < s then some (db, none)
      else
        let first := if x.params.mode = .backfill then ⟨since, upto⟩
          else (db.missingWindows since upto).headD ⟨some upto, upto⟩
        some (db, some (.pinning x since upto first))
    | _, _ => some (db, none)
  | .pinning x since upto first =>
    let localHighWater := if x.params.mode = .full then db.coveredSourceHighWater upto since else 0
    some (db, some (.saving x {
      requestFingerprint := x.params.fingerprint, sinceMs := first.lower, upperMs := upto,
      requestedSinceMs := since, untilMs := first.upper, limit := x.pageSize, followupAfter := none,
      phase := if localHighWater = 0 then .followups else .stored,
      localAfter := 0, localHighWater := localHighWater, done := false }))
  | .saving x c => some (db.saveCheckpoint job c, some (.running x c .start))
  | .running x c pc => pc.advance env job clock db i x c

/-! ## Payload children -/

inductive ChildEvent
  | start | game | finish | stop | fail | retry
deriving DecidableEq, Repr

/-- `RunGameBounds.includes` for a collection run: the creation time lies in the run's window. -/
def Params.includes (p : Params) (created : Option Int) : Bool :=
  let since := p.sinceMs.orElse fun _ => p.since.map (· * 1000)
  let upto := p.untilMs.orElse fun _ => p.upto.map (· * 1000)
  match since, upto, created with
  | none, none, _ => true
  | _, _, none => false
  | _, _, some t => since.all (fun a => decide (a ≤ t)) && upto.all (fun b => decide (t < b))

/-- One game of a child: a member stays, another game joins while the selection allows it. -/
def associate (env : Env) (runGames : List (Nat × GameKey)) (run : Option Nat) (g : GameObject)
    (remaining : Option Nat) : List (Nat × GameKey) × Option Nat :=
  match run with
  | none => (runGames, remaining)
  | some r =>
    if (env.runParams r).includes g.createdAt = false ∨ (r, g.key) ∈ runGames ∨ remaining = some 0 then
      (runGames, remaining)
    else (runGames ++ [(r, g.key)], remaining.map (· - 1))

def Db.setChild (db : Db) (n : Nat) (c : Child) (state : ChildState) : Db :=
  { db with children := db.children.set n { c with state := state } }

def Db.processChild (env : Env) (db : Db) (n : Nat) (e : ChildEvent) : Option Db := do
  let c ← db.children[n]?
  let p ← db.rawPayload c.rawPayloadId
  match e, c.state with
  | .start, .pending => some (db.setChild n c (.running 0 c.maxGames))
  | .game, .running position remaining =>
    let g ← p.body[position]?
    let (runGames, remaining) := associate env db.runGames c.crawlRunId g remaining
    some { db.setChild n c (.running (position + 1) remaining) with runGames := runGames }
  | .finish, .running position _ =>
    if p.body.length ≤ position then some (db.setChild n c .done) else none
  | .stop, .running _ _ => some (db.setChild n c .pending)
  | .fail, .running _ _ => some (db.setChild n c .failed)
  | .retry, .failed => some (db.setChild n c .pending)
  | _, _ => none

/-! ## The system -/

structure State where
  db : Db
  clock : Int
  calls : Nat → Option Call

inductive Event
  | tick (ms : Nat)
  | enter (job : Nat) (params : Params) (stop : Bool)
  | advance (job : Nat) (i : Input)
  | crash (job : Nat)
  | child (n : Nat) (e : ChildEvent)
deriving DecidableEq, Repr

/-- `execute_collection` up to its first write; a run's jobs carry the run's own parameters. -/
def enter (env : Env) (s : State) (job : Nat) (params : Params) (stop : Bool) : Option (Option Call) :=
  if (s.calls job).isSome then none
  else if (env.jobRun job).all fun r => (env.runParams r).fingerprint = params.fingerprint then
    match s.db.checkpoints job, Exec.ofParams params s.clock with
    | some c, some x =>
      if c.requestFingerprint ≠ params.fingerprint ∨ c.done ∨ stop then some none
      else some (some (.running x c .start))
    | none, some x => if stop then some none else some (some (.creating x))
    | _, none => some none
  else none

def step (env : Env) (s : State) : Event → Option State
  | .tick ms => some { s with clock := s.clock + ms }
  | .enter job params stop =>
    (enter env s job params stop).map fun call => { s with calls := Function.update s.calls job call }
  | .advance job i => do
    let call ← s.calls job
    let (db, next) ← call.advance env job s.clock s.db i
    some { s with db := db, calls := Function.update s.calls job next }
  | .crash job => some { s with calls := Function.update s.calls job none }
  | .child n e => (s.db.processChild env n e).map fun db => { s with db := db }

def lichess (env : Env) : System State Event where
  init s := s.db = Db.empty ∧ ∀ job, s.calls job = none
  step := step env

end ChessCrawl.Collection
