import ChessCrawl.Lib.Run
import Mathlib.Data.List.Dedup
import Mathlib.Algebra.Group.Int.Defs
import Mathlib.Algebra.Group.Nat.Defs

/-! The job and run tables of `jobs/state.py`, with the admission rules of `storage/job_admission.py`.
Each function is the effect of one committed transaction; one that raises leaves the tables. Times are
counted in one unit, and a dedup key is the record that its hash is taken of. Counters of a run and the
columns that only observers read are left out. -/
namespace ChessCrawl.Jobs
open ChessCrawl.Lib
set_option autoImplicit false

/-! ## Rows -/

inductive JobState
  | pending | inProgress | done | error | skipped | blocked
deriving DecidableEq, Repr

/-- `LIVE_STATES` -/
def JobState.live : JobState → Bool
  | .pending | .inProgress | .blocked => true
  | .done | .error | .skipped => false

/-- `TERMINAL_STATES` -/
def JobState.terminal (s : JobState) : Bool := !s.live

inductive JobKind
  | fetchUserProfile | fetchUserStats | fetchUserGames | fetchGameById | crawlOpponents | fetchUserResource
  | normalizePayload | reprocessArchive | expandOpponents | buildWorkingSet | prepareExport
deriving DecidableEq, Repr

/-- `ARCHIVE_JOB_KINDS` -/
def JobKind.archive : JobKind → Bool
  | .buildWorkingSet | .prepareExport => true
  | _ => false

/-- `PROCESSING_JOB_KINDS` -/
def JobKind.processing : JobKind → Bool
  | .normalizePayload | .reprocessArchive | .expandOpponents => true
  | k => k.archive

instance decidableMemProviders (provider : Option String) (providers : List (Option String)) :
    Decidable (provider ∈ providers) :=
  List.instDecidableMemOfLawfulBEq provider providers

/-- `str.strip`, `str.lower` and the database's `lower`. -/
structure Text where
  strip : String → String
  lower : String → String
  sqlLower : String → String

/-- A target is a text, or the decimal of an id. -/
inductive Target
  | name (text : String)
  | ref (id : Nat)
deriving DecidableEq, Repr

def Target.map (f : String → String) : Target → Target
  | .name text => .name (f text)
  | .ref id => .ref id

inductive Value
  | int (n : Int)
  | text (s : String)
  | null
deriving DecidableEq, Repr

/-- An object with its keys in order. -/
abbrev Params := List (String × Value)

structure DedupKey where
  provider : Option String
  kind : JobKind
  target : Target
  params : Params
  crawlRunId : Option Nat
deriving DecidableEq, Repr

structure Job where
  id : Nat
  crawlRunId : Option Nat
  parentJobId : Option Nat
  provider : Option String
  kind : JobKind
  target : Target
  params : Params
  state : JobState
  priority : Int
  depth : Nat
  attempts : Nat
  dedupKey : DedupKey
  workspaceId : String
  workBudgetId : Option Nat
  enqueuedAt : Int
  startedAt : Option Int
  doneAt : Option Int
  reason : Option String
  retryCount : Nat
  nextAttemptAt : Option Int
  ownershipToken : Option Nat
  ownershipGeneration : Nat
deriving DecidableEq, Repr

inductive RunStatus
  | running | paused | done | failed | cancelled
deriving DecidableEq, Repr

structure Run where
  id : Nat
  provider : Option String
  params : Params
  status : RunStatus
  finishedAt : Option Int
  workspaceId : String
  workBudgetId : Option Nat
deriving DecidableEq, Repr

structure WorkspacePolicy where
  maxQueuedJobs : Nat
  maxActiveJobs : Nat
deriving DecidableEq, Repr

structure WorkBudget where
  id : Nat
  workspaceId : String
  policy : WorkspacePolicy
deriving DecidableEq, Repr

structure Db where
  jobs : List Job
  jobSeq : Nat
  runs : List Run
  runSeq : Nat
  budgets : List WorkBudget
  policies : List (String × WorkspacePolicy)
  cooldowns : List (String × Int)
deriving Repr

inductive Failure
  | valueError (message : String)
  | quotaExceeded (dimension : String)
  | leaseLost
  | missingRow
deriving DecidableEq, Repr

def Db.job (db : Db) (id : Nat) : Option Job := db.jobs.find? fun j => j.id = id

def Db.run (db : Db) (id : Nat) : Option Run := db.runs.find? fun r => r.id = id

def Db.budget (db : Db) (id : Nat) : Option WorkBudget := db.budgets.find? fun b => b.id = id

/-- `UPDATE discovery_jobs SET … WHERE …` -/
def Db.updateJobs (db : Db) (sel : Job → Bool) (set : Job → Job) : Db :=
  { db with jobs := db.jobs.map fun j => if sel j then set j else j }

def Db.updateJob (db : Db) (id : Nat) (set : Job → Job) : Db := db.updateJobs (fun j => j.id = id) set

/-- The jobs of a run. -/
def Db.jobsOf (db : Db) (runId : Nat) : List Job := db.jobs.filter fun j => j.crawlRunId = some runId

/-! ## Enqueuing -/

/-- `_normalize_target` -/
def normalizeTarget (T : Text) : JobKind → Target → Target
  | .fetchUserProfile, t | .fetchUserStats, t | .fetchUserGames, t | .crawlOpponents, t =>
    (t.map T.strip).map T.lower
  | _, t => t.map T.strip

/-- `make_dedup_key` -/
def makeDedupKey (T : Text) (provider : Option String) (kind : JobKind) (target : Target) (params : Params)
    (crawlRunId : Option Nat) : DedupKey :=
  ⟨provider, kind, normalizeTarget T kind target, params, crawlRunId⟩

/-- The arguments of `enqueue_job`, with the workspace and the budget of the connection. -/
structure Enqueue where
  provider : Option String
  kind : JobKind
  target : Target
  params : Params
  crawlRunId : Option Nat
  parentJobId : Option Nat
  depth : Nat
  priority : Int
  dedupKey : Option DedupKey
  reuseTerminal : Bool
  workspaceId : String
  workBudgetId : Option Nat
  now : Int
deriving DecidableEq, Repr

structure EnqueueResult where
  jobId : Nat
  inserted : Bool
deriving DecidableEq, Repr

/-- `_validate_schedulable_job` -/
def validateSchedulableJob (provider : Option String) (kind : JobKind) : Except Failure Unit :=
  if kind.archive ≠ provider.isNone then .error (.valueError "Only internal archive jobs have no provider")
  else if kind = .fetchUserStats ∧ provider ≠ some "chess.com" then
    .error (.valueError "fetch_user_stats jobs are supported only for chess.com")
  else if kind = .fetchGameById ∧ provider ≠ some "lichess" then
    .error (.valueError "fetch_game_by_id jobs are supported only for lichess")
  else .ok ()

def Db.policy (db : Db) (workspaceId : String) (default : WorkspacePolicy) : WorkspacePolicy :=
  (db.policies.lookup workspaceId).getD default

/-- Jobs of a workspace in one of the states. -/
def Db.countIn (db : Db) (workspaceId : String) (states : JobState → Bool) : Nat :=
  (db.jobs.filter fun j => j.workspaceId = workspaceId && states j.state).length

/-- `require_backlog_room` -/
def Db.requireBacklogRoom (db : Db) (budgetId : Nat) : Except Failure Unit :=
  match db.budget budgetId with
  | none => .error .missingRow
  | some b =>
    let policy := db.policy b.workspaceId b.policy
    if policy.maxQueuedJobs + policy.maxActiveJobs ≤ db.countIn b.workspaceId JobState.live then
      .error (.quotaExceeded "queued_jobs")
    else .ok ()

/-- Workspace and budget that a row inherits: from its run, else from its parent, else from the
connection. A run or a parent that is not there violates a foreign key. -/
def Db.inherited (db : Db) (e : Enqueue) : Except Failure (String × Option Nat) :=
  match e.crawlRunId, e.parentJobId with
  | some runId, _ =>
    match db.run runId with
    | none => .error .missingRow
    | some run => .ok (run.workspaceId, run.workBudgetId)
  | none, some parentId =>
    match db.job parentId with
    | none => .error .missingRow
    | some parent => .ok (parent.workspaceId, parent.workBudgetId)
  | none, none => .ok (e.workspaceId, e.workBudgetId)

def Enqueue.key (T : Text) (e : Enqueue) : DedupKey :=
  e.dedupKey.getD (makeDedupKey T e.provider e.kind e.target e.params e.crawlRunId)

/-- The inserted row. -/
def Enqueue.row (T : Text) (e : Enqueue) (id : Nat) (owner : String × Option Nat) : Job where
  id := id
  crawlRunId := e.crawlRunId
  parentJobId := e.parentJobId
  provider := e.provider
  kind := e.kind
  target := e.target.map T.strip
  params := e.params
  state := .pending
  priority := e.priority
  depth := e.depth
  attempts := 0
  dedupKey := e.key T
  workspaceId := owner.1
  -- the budget trigger reads only the run or the parent
  workBudgetId := if e.crawlRunId.isSome || e.parentJobId.isSome then owner.2 else none
  enqueuedAt := e.now
  startedAt := none
  doneAt := none
  reason := none
  retryCount := 0
  nextAttemptAt := none
  ownershipToken := none
  ownershipGeneration := 0

/-- The lookup under the dedup lock. -/
def Db.existing (db : Db) (key : DedupKey) (reuseTerminal : Bool) : Option Job :=
  db.jobs.find? fun j => j.dedupKey = key && (reuseTerminal || j.state.live)

/-- `enqueue_job` -/
def Db.enqueueJob (T : Text) (db : Db) (e : Enqueue) : Except Failure (EnqueueResult × Db) := do
  validateSchedulableJob e.provider e.kind
  match db.existing (e.key T) e.reuseTerminal with
  | some j => .ok (⟨j.id, false⟩, db)
  | none =>
    let owner ← db.inherited e
    if e.parentJobId.any fun p => (db.job p).isNone then .error .missingRow
    else
      if let some budgetId := owner.2 then db.requireBacklogRoom budgetId
      let id := db.jobSeq + 1
      .ok (⟨id, true⟩, { db with jobs := db.jobs ++ [e.row T id owner], jobSeq := id })

/-- `enqueue_payload_normalization` for a capture by the job. -/
def Db.enqueuePayloadNormalization (T : Text) (db : Db) (parent : Job) (rawPayloadId : Nat)
    (fetchLogId : Option Nat) (maxGames : Option Int) (parserVersion : String) (now : Int) :
    Except Failure (EnqueueResult × Db) :=
  let log := fetchLogId.elim Value.null fun n => .int n
  let key := makeDedupKey T parent.provider .normalizePayload (.ref rawPayloadId)
    [("fetch_log_id", log), ("parent_job_id", .int parent.id), ("parser_version", .text parserVersion)]
    parent.crawlRunId
  db.enqueueJob T ⟨parent.provider, .normalizePayload, .ref rawPayloadId,
    [("fetch_log_id", log), ("max_games", maxGames.elim .null .int), ("parser_version", .text parserVersion),
      ("raw_payload_id", .int rawPayloadId)],
    parent.crawlRunId, some parent.id, 0, 20, some key, true, parent.workspaceId, parent.workBudgetId, now⟩

/-! ## Depths -/

/-- The rows that `promote_crawl_depth` and `known_crawl_depth` select for a user. -/
def Job.crawls (T : Text) (runId : Nat) (provider username : String) (j : Job) : Bool :=
  j.crawlRunId = some runId && j.provider = some provider && j.kind = .crawlOpponents &&
    j.target.map T.sqlLower = .name (T.sqlLower username)

def Job.expands (parent child : Job) : Bool :=
  child.parentJobId = some parent.id && child.kind = .expandOpponents

/-- `LEAST(parent.depth, MIN(child.depth))` -/
def Db.effectiveDepth (db : Db) (parent : Job) : Nat :=
  ((db.jobs.filter parent.expands).map Job.depth).foldr min parent.depth

/-- `known_crawl_depth` -/
def Db.knownCrawlDepth (T : Text) (db : Db) (runId : Nat) (provider username : String) : Option Nat :=
  ((db.jobs.filter (Job.crawls T runId provider username)).map db.effectiveDepth).min?

/-- `crawl_user_count` -/
def Db.crawlUserCount (T : Text) (db : Db) (runId : Nat) : Nat :=
  (((db.jobsOf runId).filter fun j => j.kind = .crawlOpponents).map fun j => j.target.map T.sqlLower).dedup.length

/-- `acquisition_job_count` -/
def Db.acquisitionJobCount (db : Db) (runId : Nat) : Nat :=
  ((db.jobsOf runId).filter fun j => !j.kind.processing).length

/-! ## Admission -/

/-- `RUN_ALLOWS_WORK_SQL` -/
def Db.runAllowsWork (db : Db) (j : Job) : Bool :=
  db.runs.all fun r => !(some r.id = j.crawlRunId && r.status = .cancelled)

/-- `COALESCE(params->>'collection_mode','bounded')='bounded'` -/
def Job.bounded (j : Job) : Bool :=
  match j.params.lookup "collection_mode" with
  | none | some .null => true
  | some (.text mode) => mode = "bounded"
  | some (.int _) => false

/-- `PROCESSING_READY_SQL` -/
def Db.processingReady (db : Db) (j : Job) : Bool :=
  !((j.kind = .fetchUserGames || j.kind = .crawlOpponents) && j.bounded && db.jobs.any fun child =>
      child.parentJobId = some j.id && child.kind = .normalizePayload && child.state.live) &&
    (j.kind ≠ .expandOpponents || db.jobs.any fun parent => some parent.id = j.parentJobId && parent.state.terminal)

/-- `SCHEDULABLE_STATE_SQL` -/
def Job.schedulable (j : Job) : Bool :=
  j.state = .pending || (j.state = .blocked && j.nextAttemptAt.isSome)

def Job.retryDue (j : Job) (now : Int) : Bool := j.nextAttemptAt.all fun t => t ≤ now

def Db.cooled (db : Db) (now : Int) (j : Job) : Bool :=
  j.kind.processing || db.cooldowns.all fun c => !(some c.1 = j.provider && now < c.2)

def Db.belowActiveCap (db : Db) (maxActiveJobs : Nat) (j : Job) : Bool :=
  db.countIn j.workspaceId (fun s => s = .inProgress) <
    (db.policy j.workspaceId ⟨0, maxActiveJobs⟩).maxActiveJobs

/-- The conjunction of `claim_admission`. -/
def Db.admissible (db : Db) (now : Int) (maxActiveJobs : Nat) (j : Job) : Bool :=
  db.runAllowsWork j && j.schedulable && j.retryDue now && db.processingReady j && db.cooled now j &&
    db.belowActiveCap maxActiveJobs j

/-! ## Ownership -/

/-- The update of `claim_next_job`. -/
def Job.claimed (j : Job) (now : Int) (token : Option Nat) : Job :=
  { j with
    state := .inProgress
    startedAt := some now
    attempts := j.attempts + 1
    reason := none
    doneAt := none
    nextAttemptAt := none
    ownershipToken := token
    ownershipGeneration := j.ownershipGeneration + 1 }

/-- The claim of an admitted row. -/
def Db.claim (db : Db) (jobId : Nat) (now : Int) (maxActiveJobs : Nat) (token : Option Nat) : Option (Job × Db) :=
  (db.job jobId).bind fun j =>
    if db.admissible now maxActiveJobs j then
      some (j.claimed now token, db.updateJob jobId fun j => j.claimed now token)
    else none

/-- The fence that opens every transaction of an owner. -/
def Db.fenced (db : Db) (jobId token : Nat) : Bool :=
  db.jobs.any fun j => j.id = jobId && j.state = .inProgress && j.ownershipToken = some token

/-- `mark_job` -/
def Job.mark (j : Job) (state : JobState) (reason : Option String) (now : Int) : Job :=
  { j with
    state := state
    doneAt := if state.terminal then some now else none
    nextAttemptAt := none
    reason := reason
    enqueuedAt := if state = .pending then max j.enqueuedAt now else j.enqueuedAt }

/-- The retry branch of `finish_attempt`. -/
def Job.retry (j : Job) (reason : String) (due : Int) : Job :=
  { j with
    state := .blocked
    doneAt := none
    reason := some reason
    retryCount := j.retryCount + 1
    nextAttemptAt := some due }

structure WorkerSettings where
  jobMaxRetries : Nat
  jobRetryBase : Int
  jobRetryMax : Int
deriving DecidableEq, Repr

structure Outcome where
  state : JobState
  reason : String
  transient : Bool
  retryAfter : Option Int
  minimumDelay : Int
deriving DecidableEq, Repr

/-- `defer_provider` -/
def deferProvider (cooldowns : List (String × Int)) (provider : String) (notBefore : Int) : List (String × Int) :=
  if cooldowns.any fun c => c.1 = provider then
    cooldowns.map fun c => if c.1 = provider then (provider, max c.2 notBefore) else c
  else cooldowns ++ [(provider, notBefore)]

/-- `delay` of `finish_attempt` -/
def WorkerSettings.delay (w : WorkerSettings) (retries : Nat) (o : Outcome) : Int :=
  max (min w.jobRetryMax (w.jobRetryBase * 2 ^ min retries 30)) (max o.minimumDelay (o.retryAfter.getD 0))

/-! ## Run status -/

/-- `update_crawl_run` with a status -/
def Run.update (r : Run) (status : RunStatus) (now : Int) : Run :=
  { r with
    status := status
    finishedAt := match status with
      | .done | .failed => r.finishedAt.or (some now)
      | .running | .paused => none
      | .cancelled => r.finishedAt }

/-- `job_state_counts` of a run -/
def Db.jobStateCounts (db : Db) (runId : Nat) (state : JobState) : Nat :=
  ((db.jobsOf runId).filter fun j => j.state = state).length

/-- The query for pending jobs that processing is ready for. -/
def Db.pendingReady (db : Db) (runId : Nat) : Bool :=
  (db.jobsOf runId).any fun j => j.state = .pending && db.processingReady j

/-- The status that `refresh_run_status` derives from the counts of one statement and, where they have a pending
job, from the tables of the next one. -/
def Db.derivedStatus (db : Db) (runId : Nat) (counts : JobState → Nat) : RunStatus :=
  if (counts .pending ≠ 0 && db.pendingReady runId) || counts .inProgress ≠ 0 then .running
  else if counts .blocked ≠ 0 then .paused
  else if counts .error ≠ 0 then .failed
  else .done

/-- `refresh_run_status` with nothing committed between its statements; `Finishing` takes them apart. -/
def Db.refreshRunStatus (db : Db) (runId : Nat) (now : Int) : Db :=
  match db.run runId with
  | none => db
  | some run =>
    if run.status = .cancelled then db
    else
      let status := db.derivedStatus runId (db.jobStateCounts runId)
      { db with runs := db.runs.map fun r => if r.id = runId then r.update status now else r }

/-- `refresh_crawl_runs` -/
def Db.refreshCrawlRuns (db : Db) (now : Int) : Option Nat → Db
  | some runId => db.refreshRunStatus runId now
  | none => (db.runs.map Run.id).foldl (fun db runId => db.refreshRunStatus runId now) db

/-! ## Finishing -/

/-- What an attempt leaves of its own row: a retry, or the outcome. -/
def Job.finished (j : Job) (w : WorkerSettings) (o : Outcome) (now : Int) : Job :=
  if o.transient then
    if j.retryCount < w.jobMaxRetries then j.retry o.reason (now + w.delay j.retryCount o)
    else j.mark .error (some ("Retry limit reached: " ++ o.reason)) now
  else j.mark o.state (some o.reason) now

/-- The depth merge of a finished acquisition. -/
def Job.merged (j : Job) (depth : Nat) : Job :=
  { j with depth := min j.depth depth, priority := min j.priority (10 + depth) }

def Db.mergeDepth (T : Text) (db : Db) (j : Job) : Db :=
  match j.kind, j.crawlRunId, j.provider, j.target with
  | .crawlOpponents, some runId, some provider, .name username =>
    match db.knownCrawlDepth T runId provider username with
    | some depth => db.updateJob j.id fun row => row.merged depth
    | none => db
  | _, _, _, _ => db

/-- The cooldown that a transient failure leaves for its provider. -/
def Db.deferFor (db : Db) (w : WorkerSettings) (j : Job) (o : Outcome) (now : Int) : Db :=
  match j.provider with
  | some provider =>
    if o.transient && !j.kind.processing then
      { db with cooldowns := deferProvider db.cooldowns provider (now + w.delay j.retryCount o) }
    else db
  | none => db

/-- `finish_attempt` -/
def Db.finishAttempt (T : Text) (db : Db) (w : WorkerSettings) (jobId : Nat) (o : Outcome) (now : Int) :
    Except Failure Db :=
  match db.job jobId with
  | none => .error .missingRow
  | some j =>
    let db := (db.deferFor w j o now).updateJob jobId fun row => row.finished w o now
    let db := db.mergeDepth T j
    .ok (match j.crawlRunId with
      | some runId => db.refreshRunStatus runId now
      | none => db)

def Db.markJob (db : Db) (jobId : Nat) (state : JobState) (reason : Option String) (now : Int) : Db :=
  db.updateJob jobId fun j => j.mark state reason now

/-! ## Recovery -/

/-- `_resume_stale_in_progress`; `free` are the jobs whose session lock the caller gets. -/
def Db.resumeStaleInProgress (db : Db) (crawlRunId : Option Nat) (staleSeconds now : Int) (free : List Nat) : Db :=
  db.updateJobs
    (fun j => j.state = .inProgress && (crawlRunId.isNone || j.crawlRunId = crawlRunId) && db.runAllowsWork j &&
      (staleSeconds = 0 || j.startedAt.all fun t => t ≤ now - staleSeconds) && j.id ∈ free)
    fun j => { j with
      state := .pending
      startedAt := none
      doneAt := none
      ownershipToken := none
      reason := j.reason.or (some "resumed orphaned job") }

/-- `unblock_jobs` -/
def Db.unblockJobs (db : Db) (crawlRunId : Option Nat) (now : Int) : Db :=
  db.updateJobs
    (fun j => j.state = .blocked && j.retryDue now && (crawlRunId.isNone || j.crawlRunId = crawlRunId) &&
      db.runAllowsWork j)
    fun j => { j with
      state := .pending
      startedAt := none
      doneAt := none
      reason := j.reason.or (some "unblocked by jobs resume") }

/-- `LIKE 'budget_exhausted:%'`, in which `_` stands for any one character. -/
def likeBudgetExhausted (reason : String) : Bool :=
  decide (reason.toList.take 6 = "budget".toList) && decide ((reason.toList.drop 7).take 10 = "exhausted:".toList)

/-- `reason LIKE 'budget_exhausted:%'` -/
def Job.budgetExhausted (j : Job) : Bool := j.reason.any likeBudgetExhausted

/-- The jobs that `resume_run_budget` releases. -/
def Db.resumeRunBudget (db : Db) (runId : Nat) (workspaceId : String) : Except Failure Db :=
  match (db.run runId).bind fun r => r.workBudgetId with
  | none => .error (.valueError "Owned run budget not found")
  | some budgetId =>
    if (db.budget budgetId).any fun b => b.workspaceId = workspaceId then
      .ok (db.updateJobs (fun j => j.workBudgetId = some budgetId && j.state = .blocked && j.budgetExhausted)
        fun j => { j with state := .pending, reason := none, nextAttemptAt := none })
    else .error (.valueError "Owned run budget not found")

end ChessCrawl.Jobs
