import ChessCrawl.Acquisition.Months
import ChessCrawl.Jobs.Lifecycle
import Mathlib.Data.List.MinMax
import Mathlib.Data.Prod.Lex
import Mathlib.Order.WithBot

/-! `execute_bounded_acquisition` with the ingest below it. An attempt of a bounded parent looks for a failed child,
selects one month or one stream, looks for the occurrence that an earlier attempt retained, and else asks the
provider. It preserves the response, enqueues the normalization and moves the cursor in three transactions of its
own, each behind its fence; it may crash in front of any of them. -/
namespace ChessCrawl.Jobs
open ChessCrawl.Lib ChessCrawl.Acquisition
set_option autoImplicit false

/-- The order of the integers that computes. -/
local instance intOrder : Preorder Int := Int.instLinearOrder.toPreorder

/-! ## Sources -/

/-- `canonical_source_key`, with the endpoint and the provider that its text names. -/
inductive SourceKey
  | month (user : Target) (year month : Nat)
  | stream (user : Target) (since stop : Option Int) (limit : Int)
  | other (text : String)
deriving DecidableEq, Repr

/-- A row of `raw_payloads`. -/
structure SourceBody where
  id : Nat
  key : SourceKey
  bodyHash : String
  fetchedAt : Int
deriving DecidableEq, Repr

/-- A row of `fetch_logs`. -/
structure FetchLog where
  id : Nat
  jobId : Option Nat
  statusCode : Option Nat
  rawPayloadId : Option Nat
  attemptedAt : Int
deriving DecidableEq, Repr

/-- `status_code in {200, 304}` -/
def successful (status : Option Nat) : Bool := status = some 200 || status = some 304

/-- What a provider client returns. It retries timeouts, 429 and server errors, so only the last of its attempts can
be an answer to keep. -/
structure Record where
  earlier : List (Option Nat × Int)
  status : Nat
  attemptedAt : Int
  bodyHash : String
  retried : ∀ a ∈ earlier, successful a.1 = false
deriving DecidableEq

def Record.attempts (r : Record) : List (Option Nat × Int) :=
  r.earlier ++ [(if r.status = 0 then none else some r.status, r.attemptedAt)]

/-- `_log_attempts` -/
def Record.logs (r : Record) (seq : Nat) (jobId raw : Option Nat) : List FetchLog :=
  r.attempts.zipIdx.map fun (a, i) => ⟨seq + 1 + i, jobId, a.1, if successful a.1 then raw else none, a.2⟩

/-- `raw_payloads` and `fetch_logs` -/
structure Archive where
  bodies : List SourceBody
  bodySeq : Nat
  logs : List FetchLog
  logSeq : Nat

/-- `_existing_payload` -/
def Archive.existingPayload (r : Archive) (key : SourceKey) (bodyHash : String) : Option SourceBody :=
  r.bodies.find? fun b => b.key = key && b.bodyHash = bodyHash

/-- `_store_raw_payload` -/
def Archive.storeRawPayload (r : Archive) (key : SourceKey) (bodyHash : String) (fetchedAt : Int) : Nat × Archive :=
  match r.existingPayload key bodyHash with
  | some b => (b.id, r)
  | none =>
    let id := r.bodySeq + 1
    (id, { r with bodies := r.bodies ++ [⟨id, key, bodyHash, fetchedAt⟩], bodySeq := id })

/-- The observations of a body, its capture when no fetch names it. -/
def Archive.observations (r : Archive) (b : SourceBody) : List (Int × WithBot Nat × Nat) :=
  match r.logs.filter fun l => l.rawPayloadId = some b.id with
  | [] => [(b.fetchedAt, ⊥, b.id)]
  | logs => logs.map fun l => (l.attemptedAt, (l.id : WithBot Nat), b.id)

/-- `latest_raw_payload_id` -/
def Archive.latestRawPayloadId (r : Archive) (key : SourceKey) : Option Nat :=
  (((r.bodies.filter fun b => b.key = key).flatMap r.observations).argmax
    fun o => toLex (o.1, toLex (o.2.1, o.2.2))).map fun o => o.2.2

/-- `_persist_response`: the body of a 200, the current body for a 304, and a log of every attempt. -/
def Archive.persistResponse (r : Archive) (jobId : Option Nat) (key : SourceKey) (x : Record) : Option Nat × Archive :=
  let (raw, stored) :=
    if x.status = 200 then
      let (id, stored) := r.storeRawPayload key x.bodyHash x.attemptedAt
      (some id, stored)
    else if x.status = 304 then (r.latestRawPayloadId key, r)
    else (none, r)
  (raw, { stored with logs := stored.logs ++ x.logs r.logSeq jobId raw, logSeq := r.logSeq + x.attempts.length })

/-! ## Selection -/

/-- One unit of a bounded parent. -/
inductive SourceUnit
  | month (index : Int) (year month : Nat)
  | stream (limit : Int)
deriving DecidableEq, Repr

/-- A kind that collects games, with `params.get("collection_mode", "bounded") == "bounded"`. -/
def Job.boundedParent (j : Job) : Bool :=
  (j.kind = .fetchUserGames || j.kind = .crawlOpponents) &&
    match j.params.lookup "collection_mode" with
    | none => true
    | some mode => mode = .text "bounded"

def Value.truthy : Value → Bool
  | .int n => n ≠ 0
  | .text s => s ≠ ""
  | .null => false

/-- `params.get(key) or None` for a number -/
def Params.nonzero (p : Params) (key : String) : Option Int := (p.int key).filter fun n => n ≠ 0

/-- `xs[index]`, where a negative index counts from the end. -/
def subscript {α : Type} (xs : List α) (index : Int) : Option α :=
  if 0 ≤ index then xs[index.toNat]?
  else if 0 ≤ xs.length + index then xs[(xs.length + index).toNat]?
  else none

inductive Selection
  | complete (message : String)
  | unit (u : SourceUnit)
deriving DecidableEq, Repr

/-- What the parameters of a job call for, with the allowance that is left. -/
def Job.nextUnit (j : Job) (remaining : Option Nat) : Except String Selection :=
  if remaining = some 0 ∨ (j.params.lookup "bounded_capture_complete").any Value.truthy then
    .ok (.complete "bounded selection complete")
  else if j.provider = some "chess.com" then
    match j.params.int "since", j.params.int "until" with
    | some since, some stop =>
      match monthsBetween since stop with
      | .error message => .error message
      | .ok months =>
        let index := (j.params.nonzero "cursor_index").getD 0
        if months.length ≤ index then .ok (.complete "monthly selection complete")
        else match subscript months index with
          | some (year, month) => .ok (.unit (.month index year month))
          | none => .error "list index out of range"
    | _, _ => .error "Chess.com jobs require since/until"
  else if j.provider = some "lichess" then
    let limit := (((j.params.nonzero "limit").or (remaining.map Int.ofNat)).or (j.params.nonzero "max_games")).getD 0
    if limit ≤ 0 then .error "Lichess jobs require a positive limit"
    else .ok (.unit (.stream (match remaining with
      | some n => min limit n
      | none => limit)))
  else .error ("unsupported collection provider: " ++ j.provider.getD "None")

section Model
variable (T : Text)

/-- `username.strip().lower()` -/
def Job.user (j : Job) : Target := (j.target.map T.strip).map T.lower

/-- The `canonical_source_key` of the record of a unit. -/
def SourceUnit.key (j : Job) (u : SourceUnit) : SourceKey :=
  match u with
  | .month _ y m => .month (j.user T) y m
  | .stream limit => .stream (j.user T) (j.params.int "since") (j.params.int "until") limit

/-- The bodies that `_reuse_game_acquisition` takes for a unit: those of a month have its key, those of a stream
have any. -/
def SourceUnit.accepts (j : Job) (u : SourceUnit) (key : SourceKey) : Bool :=
  match u, key with
  | .month _ y m, key => key = .month (j.user T) y m
  | .stream _, .stream .. => true
  | .stream _, _ => false

/-- What the checkpoint behind a unit sets. -/
def SourceUnit.checkpoint (u : SourceUnit) : String × Value :=
  match u with
  | .month index _ _ => ("cursor_index", .int (index + 1))
  | .stream _ => ("bounded_capture_complete", .int 1)

/-! ## Attempts -/

/-- Where an attempt of a bounded parent stands. -/
inductive Point
  | claimed
  | selecting
  | looking (u : SourceUnit)
  | requesting (u : SourceUnit)
  | received (u : SourceUnit) (x : Record)
  | queueing (u : SourceUnit) (raw fetch : Nat)
  | advancing (u : SourceUnit) (raw fetch : Nat)
  | finishing (state : JobState) (reason : String)
deriving DecidableEq

/-- `tokens` are the ownership tokens that were given out. -/
structure Acquiring where
  world : World
  tokens : List Nat
  archive : Archive
  points : Nat → Option Point

/-- `processing_failure` -/
def Db.processingFailure (db : Db) (parentJobId : Nat) : Option String :=
  (db.jobs.find? fun k => k.parentJobId = some parentJobId && k.kind = .normalizePayload &&
    (k.state = .error || k.state = .skipped)).map fun k =>
      "Processing job #" ++ toString k.id ++ " failed: " ++ k.reason.getD "None"

/-- The successful fetches of a unit by a job. -/
def Archive.occurrences (r : Archive) (j : Job) (u : SourceUnit) : List FetchLog :=
  r.logs.filter fun l => l.jobId = some j.id && successful l.statusCode &&
    r.bodies.any fun b => l.rawPayloadId = some b.id && u.accepts T j b.key

/-- `latest_job_payload` -/
def Archive.latestJobPayload (r : Archive) (j : Job) (u : SourceUnit) : Option FetchLog :=
  (r.occurrences T j u).argmax fun l => toLex (l.attemptedAt, l.id)

def Acquiring.setPoint (s : Acquiring) (worker : Nat) (p : Option Point) : Acquiring :=
  { s with points := fun n => if n = worker then p else s.points n }

/-- The attempt of a worker that stands at a point. -/
def Acquiring.standing (s : Acquiring) (worker : Nat) : Option (Attempt × Point) :=
  (s.world.attempts worker).bind fun a => (s.points worker).map fun p => (a, p)

/-- The standing attempt, behind its fence. -/
def Acquiring.fenced (s : Acquiring) (worker : Nat) : Option (Attempt × Point) :=
  (s.standing worker).filter fun x => s.world.db.fenced x.1.job.id x.1.token

inductive AcquisitionEvent
  | world (ev : Event)
  | fetched (jobId : Option Nat) (key : SourceKey) (x : Record)
  | check (worker : Nat)
  | select (worker : Nat) (remaining : Option Nat)
  | look (worker : Nat)
  | request (worker : Nat) (x : Record)
  | persist (worker : Nat)
  | enqueue (worker : Nat) (maxGames : Option Int) (now : Int)
  | checkpoint (worker : Nat)

/-- What other code does with the job table: normalizations and checkpoints are left to attempts, those of bounded
parents to the events above. Tokens are `uuid4` and never come again. -/
def Acquiring.permits (s : Acquiring) : Event → Bool
  | .enqueue e => e.kind ≠ .normalizePayload && (e.key T).kind ≠ .normalizePayload
  | .capture worker .. | .checkpoint worker .. => (s.world.attempts worker).all fun a => !a.job.boundedParent
  | .claim _ _ _ _ token => token ∉ s.tokens
  | _ => true

/-- The point that an event of the job table leaves a worker at. -/
def Acquiring.resume (s : Acquiring) : Event → Acquiring
  | .claim worker _ _ _ token =>
    { s with tokens := token :: s.tokens }.setPoint worker
      ((s.world.attempts worker).bind fun a => if a.job.boundedParent then some .claimed else none)
  | .release worker => s.setPoint worker none
  | _ => s

def Acquiring.step (w : WorkerSettings) (parserVersion : String) (s : Acquiring) : AcquisitionEvent → Option Acquiring
  | .world ev =>
    if s.permits T ev then (s.world.step T w ev).map fun world => { s with world := world }.resume ev else none
  | .fetched jobId key x =>
    -- a fetch of another job, or of none
    if jobId.all fun id => (s.world.db.job id).any fun j => !j.boundedParent then
      some { s with archive := (s.archive.persistResponse jobId key x).2 }
    else none
  | .check worker => (s.standing worker).bind fun (a, p) =>
    match p with
    | .claimed => some (s.setPoint worker (some (match s.world.db.processingFailure a.job.id with
      | some failure => .finishing .error failure
      | none => .selecting)))
    | _ => none
  | .select worker remaining => (s.standing worker).bind fun (a, p) =>
    match p with
    | .selecting => some (s.setPoint worker (some (match a.job.nextUnit remaining with
      | .error message => .finishing .error message
      | .ok (.complete message) => .finishing .done message
      | .ok (.unit u) => .looking u)))
    | _ => none
  | .look worker => (s.standing worker).bind fun (a, p) =>
    match p with
    | .looking u => some (s.setPoint worker (some
        (match (s.archive.latestJobPayload T a.job u).bind fun l => l.rawPayloadId.map fun raw => (raw, l.id) with
        | some (raw, fetch) => .queueing u raw fetch
        | none => .requesting u)))
    | _ => none
  | .request worker x => (s.fenced worker).bind fun (_, p) =>
    match p with
    | .requesting u => some (s.setPoint worker (some (.received u x)))
    | _ => none
  | .persist worker => (s.fenced worker).bind fun (a, p) =>
    match p with
    | .received u x =>
      let (raw, archive) := s.archive.persistResponse (some a.job.id) (u.key T a.job) x
      some ({ s with archive := archive }.setPoint worker (some (match raw with
        | some raw => .queueing u raw archive.logSeq
        | none => .finishing .error (if x.status = 304 then "provider returned HTTP 304 without a stored raw payload"
          else "HTTP " ++ toString x.status))))
    | _ => none
  | .enqueue worker maxGames now => (s.fenced worker).bind fun (_, p) =>
    match p with
    | .queueing u raw fetch =>
      match s.world.step T w (.capture worker raw (some fetch) maxGames parserVersion now) with
      | some world => some ({ s with world := world }.setPoint worker (some (.advancing u raw fetch)))
      | none => some (s.setPoint worker (some (.finishing .blocked "budget_exhausted: queued_jobs")))
    | _ => none
  | .checkpoint worker => (s.fenced worker).bind fun (_, p) =>
    match p with
    | .advancing u _ _ => (s.world.step T w (.checkpoint worker u.checkpoint.1 u.checkpoint.2)).map fun world =>
      { s with world := world }.setPoint worker (some (.finishing .pending "stored"))
    | _ => none

/-- Workers, their crashes and recoveries, over one job table and one archive. -/
def acquisition (w : WorkerSettings) (parserVersion : String) : System Acquiring AcquisitionEvent where
  init s := (workers T w).init s.world ∧ s.tokens = [] ∧ s.archive.bodies = [] ∧ s.archive.logs = [] ∧
    ∀ worker, s.points worker = none
  step := Acquiring.step T w parserVersion

end Model
end ChessCrawl.Jobs
