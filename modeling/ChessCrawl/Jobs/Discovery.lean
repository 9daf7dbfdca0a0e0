import ChessCrawl.Jobs.Table

/-! Opponent discovery: `jobs/discovery.py` with `enqueue_opponent_expansion` and `promote_crawl_depth`, and
the workers that run jobs over the shared tables. A worker keeps the row that it claimed and the depth that
it last read; every transaction of its own opens with its fence. Discovery edges are not read by any of
this and are left out. -/
namespace ChessCrawl.Jobs
open ChessCrawl.Lib
set_option autoImplicit false

/-! ## Parameters -/

def Params.int (p : Params) (key : String) : Option Int :=
  match p.lookup key with
  | some (.int n) => some n
  | _ => none

/-- `dict.pop` -/
def Params.pop (p : Params) (key : String) : Params := p.filter fun entry => entry.1 ≠ key

/-- `{**params, key: value}` -/
def Params.set (key : String) (value : Value) : Params → Params
  | [] => [(key, value)]
  | (k, v) :: rest =>
    if k = key then (key, value) :: rest
    else if key < k then (key, value) :: (k, v) :: rest
    else (k, v) :: Params.set key value rest

structure CrawlBounds where
  maxDepth : Nat
  maxUsers : Nat
  maxGames : Nat
  maxJobs : Nat
deriving DecidableEq, Repr

/-- The bounds that a job's parameters carry. -/
def Params.bounds (p : Params) : Except Failure CrawlBounds :=
  match p.int "max_depth", p.int "max_users", p.int "max_games", p.int "max_jobs" with
  | some d, some u, some g, some j => .ok ⟨d.toNat, u.toNat, g.toNat, j.toNat⟩
  | _, _, _, _ => .error (.valueError "crawl bounds are missing")

/-- The parameters of an opponent crawl. -/
def crawlParams (seed : String) (since stop : Int) (b : CrawlBounds) : Params :=
  [("max_depth", .int b.maxDepth), ("max_games", .int b.maxGames), ("max_jobs", .int b.maxJobs),
    ("max_users", .int b.maxUsers), ("seed", .text seed), ("since", .int since), ("strategy", .text "opponents"),
    ("until", .int stop)]

/-- `create_crawl_run` -/
def Db.createCrawlRun (db : Db) (provider : Option String) (params : Params) (workspaceId : String) :
    Except Failure (Nat × Db) :=
  if provider.isNone ∧ ¬ (params.lookup "strategy" = some (.text "build_working_set") ∨
      params.lookup "strategy" = some (.text "prepare_export")) then
    .error (.valueError "Only internal archive runs have no provider")
  else
    let id := db.runSeq + 1
    .ok (id, { db with runs := db.runs ++ [⟨id, provider, params, .running, none, workspaceId, none⟩], runSeq := id })

/-- `create_opponent_crawl` -/
def Db.createOpponentCrawl (T : Text) (db : Db) (provider username : String) (since stop : Int) (b : CrawlBounds)
    (workspaceId : String) (now : Int) : Except Failure (Nat × Db) :=
  if b.maxUsers = 0 ∨ b.maxGames = 0 ∨ b.maxJobs = 0 then
    .error (.valueError "--max-users, --max-games, and --max-jobs must be > 0")
  else if stop ≤ since then .error (.valueError "--since must be earlier than --until")
  else do
    let seed := T.lower (T.strip username)
    let params := crawlParams seed since stop b
    let (runId, db) ← db.createCrawlRun (some provider) params workspaceId
    let (_, db) ← db.enqueueJob T ⟨some provider, .crawlOpponents, .name seed, params, some runId, none, 0, 10, none,
      false, workspaceId, none, now⟩
    .ok (runId, db)

/-! ## Expansion -/

/-- The depth that `enqueue_opponent_expansion` and `_expand_opponents` read. -/
def Db.expansionDepth (T : Text) (db : Db) (parent : Job) (depth : Nat) : Nat :=
  match parent.crawlRunId, parent.provider, parent.target with
  | some runId, some provider, .name username =>
    min depth ((db.knownCrawlDepth T runId provider username).getD parent.depth)
  | _, _, _ => depth

/-- The row that `enqueue_opponent_expansion` adds for a depth that it has read. -/
def Db.enqueueExpansionAt (T : Text) (db : Db) (parent : Job) (depth : Nat) (now : Int) :
    Except Failure (EnqueueResult × Db) :=
  if parent.crawlRunId.isNone ∨ parent.kind ≠ .crawlOpponents then
    .error (.valueError "Opponent expansion requires a persisted acquisition parent")
  else db.enqueueJob T ⟨parent.provider, .expandOpponents, .ref parent.id, [("discovery_depth", .int depth)],
    parent.crawlRunId, some parent.id, depth, 20, none, true, parent.workspaceId, parent.workBudgetId, now⟩

/-- `enqueue_opponent_expansion` in one transaction -/
def Db.enqueueOpponentExpansion (T : Text) (db : Db) (parent : Job) (depth : Nat) (now : Int) :
    Except Failure (EnqueueResult × Db) :=
  db.enqueueExpansionAt T parent (db.expansionDepth T parent depth) now

/-- What other transactions committed between the statements of a promotion: `raced` are the parents that
were in progress at its update, and `live` those that had not failed when it read them. -/
structure Race where
  raced : List Nat
  live : List Nat
deriving DecidableEq, Repr

/-- A row in progress had not failed before. -/
def Race.sound (r : Race) : Bool := r.raced.all fun id => id ∈ r.live

def Job.promotable (r : Race) (depth : Nat) (j : Job) : Bool :=
  j.state ≠ .inProgress && j.id ∉ r.raced && depth < j.depth

def Job.expandable (r : Race) (j : Job) : Bool :=
  (j.state ≠ .error && j.state ≠ .skipped) || j.id ∈ r.live

/-- `promote_crawl_depth` -/
def Db.promoteCrawlDepth (T : Text) (db : Db) (runId : Nat) (provider username : String) (depth : Nat) (r : Race)
    (now : Int) : Except Failure Db :=
  let parents := db.jobs.filter (Job.crawls T runId provider username)
  let db := db.updateJobs (fun j => j.crawls T runId provider username && j.promotable r depth) fun j => j.merged depth
  (parents.filter (Job.expandable r)).foldlM
    (fun db parent => (db.enqueueOpponentExpansion T parent depth now).map Prod.snd) db

/-- One edge of `enqueue_opponent_children`. -/
def Db.discover (T : Text) (db : Db) (parent : Job) (runId : Nat) (provider : String) (params : Params)
    (b : CrawlBounds) (nextDepth : Nat) (r : Race) (now : Int) (username : String) : Except Failure Db :=
  match db.knownCrawlDepth T runId provider username with
  | some known =>
    if known ≤ nextDepth then .ok db else db.promoteCrawlDepth T runId provider username nextDepth r now
  | none =>
    if b.maxUsers ≤ db.crawlUserCount T runId then .ok db
    else if b.maxJobs ≤ db.acquisitionJobCount runId then .ok db
    else
      (db.enqueueJob T ⟨some provider, .crawlOpponents, .name username, params, some runId, some parent.id, nextDepth,
        10 + nextDepth, none, false, parent.workspaceId, parent.workBudgetId, now⟩).map Prod.snd

/-- `enqueue_opponent_children` -/
def Db.enqueueOpponentChildren (T : Text) (db : Db) (parent : Job) (runId : Nat) (provider : String)
    (params : Params) (nextDepth : Nat) (edges : List String) (r : Race) (now : Int) : Except Failure Db := do
  let b ← params.bounds
  if b.maxDepth < nextDepth then .ok db
  else edges.foldlM (fun db username => db.discover T parent runId provider params b nextDepth r now username) db

/-- `_known_at_or_before_current_depth` -/
def Db.knownAtOrBefore (T : Text) (db : Db) (runId : Nat) (provider username : String) (depth : Nat) : Bool :=
  (db.knownCrawlDepth T runId provider username).any fun known => known ≤ depth

/-- The transaction of `expand_opponent_frontier` for the opponents it has read, at the depth it works with. -/
def Db.expandOpponentFrontier (T : Text) (db : Db) (parent : Job) (depth : Nat) (edges : List String) (r : Race)
    (now : Int) : Except Failure Db :=
  match parent.crawlRunId, parent.provider with
  | some runId, some provider => do
    let params := (parent.params.pop "cursor_index").pop "bounded_capture_complete"
    let b ← params.bounds
    if b.maxDepth < depth + 1 then .ok db
    else
      let frontier := edges.filter fun username => !db.knownAtOrBefore T runId provider username depth
      db.enqueueOpponentChildren T parent runId provider params (depth + 1) frontier r now
  | _, _ => .error (.valueError "Opponent expansion requires a persisted crawl run")

/-! ## Workers -/

/-- A job in the hands of a worker: the row that it claimed and the depth that it last read. -/
structure Attempt where
  job : Job
  token : Nat
  depth : Option Nat
deriving DecidableEq, Repr

structure World where
  db : Db
  attempts : Nat → Option Attempt

inductive Event
  | createRun (provider : Option String) (params : Params) (workspaceId : String)
  | createOpponentCrawl (provider username : String) (since stop : Int) (b : CrawlBounds) (workspaceId : String)
      (now : Int)
  | enqueue (e : Enqueue)
  | admitBudget (runId : Nat) (b : WorkBudget)
  | cancel (runId : Nat)
  | claim (worker jobId : Nat) (now : Int) (maxActiveJobs token : Nat)
  | capture (worker rawPayloadId : Nat) (fetchLogId : Option Nat) (maxGames : Option Int) (parserVersion : String)
      (now : Int)
  | checkpoint (worker : Nat) (key : String) (value : Value)
  | readDepth (worker : Nat)
  | expansion (worker : Nat) (now : Int)
  | expand (worker : Nat) (edges : List String) (r : Race) (now : Int)
  | finish (worker : Nat) (o : Outcome) (now : Int)
  | mark (worker : Nat) (state : JobState) (reason : Option String) (now : Int)
  | release (worker : Nat)
  | resumeStale (crawlRunId : Option Nat) (staleSeconds now : Int) (free : List Nat)
  | unblock (crawlRunId : Option Nat) (now : Int)
  | resumeRunBudget (runId : Nat) (workspaceId : String)
  | refresh (crawlRunId : Option Nat) (now : Int)

/-- The effect of `admit_run_budget` on runs and jobs. -/
def Db.admitRunBudget (db : Db) (runId : Nat) (b : WorkBudget) : Option Db :=
  if (db.budget b.id).isNone ∧ (db.run runId).any fun r => r.workBudgetId.isNone ∧ r.workspaceId = b.workspaceId then
    let runs := db.runs.map fun (r : Run) => if r.id = runId then { r with workBudgetId := some b.id } else r
    some (Db.updateJobs { db with budgets := db.budgets ++ [b], runs := runs } (fun j => j.crawlRunId = some runId)
      fun j => { j with workBudgetId := some b.id })
  else none

/-- `update_crawl_run` with a cancellation -/
def Db.cancelRun (db : Db) (runId : Nat) : Db :=
  { db with runs := db.runs.map fun r => if r.id = runId then { r with status := .cancelled } else r }

def World.withDb (s : World) (db : Db) : World := { s with db := db }

def World.setAttempt (s : World) (worker : Nat) (a : Option Attempt) : World :=
  { s with attempts := fun w => if w = worker then a else s.attempts w }

/-- The acquisition that an attempt expands: its own job, or the parent that an expansion names. -/
def Db.acquisitionOf (db : Db) (j : Job) : Option Job :=
  match j.kind, j.target with
  | .crawlOpponents, _ => some j
  | .expandOpponents, .ref id => (db.job id).filter fun p => p.kind = .crawlOpponents && p.crawlRunId = j.crawlRunId
  | _, _ => none

/-- A transaction of the worker's own, behind its fence. -/
def World.fencedBy (s : World) (worker : Nat) (f : Attempt → Except Failure Db) : Option World :=
  (s.attempts worker).bind fun a =>
    if s.db.fenced a.job.id a.token then (f a).toOption.map s.withDb else none

section Steps
variable (T : Text) (w : WorkerSettings)

def World.step (s : World) : Event → Option World
  | .createRun provider params workspaceId =>
    (s.db.createCrawlRun provider params workspaceId).toOption.map fun r => s.withDb r.2
  | .createOpponentCrawl provider username since stop b workspaceId now =>
    (s.db.createOpponentCrawl T provider username since stop b workspaceId now).toOption.map fun r => s.withDb r.2
  | .enqueue e => (s.db.enqueueJob T e).toOption.map fun r => s.withDb r.2
  | .admitBudget runId b => (s.db.admitRunBudget runId b).map s.withDb
  | .cancel runId => some (s.withDb (s.db.cancelRun runId))
  | .claim worker jobId now maxActiveJobs token =>
    -- `uuid4` tokens are fresh
    if (s.attempts worker).isNone ∧ ∀ j ∈ s.db.jobs, j.ownershipToken ≠ some token then
      (s.db.claim jobId now maxActiveJobs (some token)).map fun r =>
        (s.withDb r.2).setAttempt worker (some ⟨r.1, token, none⟩)
    else none
  | .capture worker rawPayloadId fetchLogId maxGames parserVersion now => s.fencedBy worker fun a =>
    (s.db.enqueuePayloadNormalization T a.job rawPayloadId fetchLogId maxGames parserVersion now).map Prod.snd
  | .checkpoint worker key value => s.fencedBy worker fun a =>
    if key = "cursor_index" ∨ key = "bounded_capture_complete" then
      .ok (s.db.updateJob a.job.id fun j => { j with params := a.job.params.set key value })
    else .error (.valueError "not a checkpoint")
  | .readDepth worker => (s.attempts worker).bind fun a => (s.db.acquisitionOf a.job).map fun parent =>
    s.setAttempt worker (some { a with depth := some (s.db.expansionDepth T parent a.job.depth) })
  | .expansion worker now => s.fencedBy worker fun a =>
    match a.depth, a.job.kind with
    | some depth, .crawlOpponents => (s.db.enqueueExpansionAt T a.job depth now).map Prod.snd
    | _, _ => .error (.valueError "no acquisition")
  | .expand worker edges r now => s.fencedBy worker fun a =>
    match a.depth, s.db.acquisitionOf a.job with
    | some depth, some parent =>
      if r.sound then s.db.expandOpponentFrontier T parent depth edges r now else .error .leaseLost
    | _, _ => .error (.valueError "Opponent expansion requires its acquisition parent")
  | .finish worker o now => s.fencedBy worker fun a => s.db.finishAttempt T w a.job.id o now
  | .mark worker state reason now => s.fencedBy worker fun a => .ok (s.db.markJob a.job.id state reason now)
  | .release worker => some (s.setAttempt worker none)
  | .resumeStale crawlRunId staleSeconds now free =>
    some (s.withDb (s.db.resumeStaleInProgress crawlRunId staleSeconds now free))
  | .unblock crawlRunId now => some (s.withDb (s.db.unblockJobs crawlRunId now))
  | .resumeRunBudget runId workspaceId => (s.db.resumeRunBudget runId workspaceId).toOption.map s.withDb
  | .refresh crawlRunId now => some (s.withDb (s.db.refreshCrawlRuns now crawlRunId))

/-- Any number of workers over one job table, under one workspace policy for each workspace. -/
def workers : System World Event where
  init s := s.db.jobs = [] ∧ s.db.runs = [] ∧ s.db.budgets = [] ∧ ∀ worker, s.attempts worker = none
  step := World.step T w

end Steps
end ChessCrawl.Jobs
