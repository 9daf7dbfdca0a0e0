import ChessCrawl.Budget.WorkBudgets
import ChessCrawl.Jobs.Discovery

/-! `_submit` of `application/services.py` with the submission identities of `storage/application.py`. A call commits
its operator policy in a transaction of its own. A second transaction takes the lock of the workspace and the key,
looks the key up, and either answers from the stored row or creates the run and its jobs, admits its budget, records
the key and commits. A call may crash in front of any of its steps. What it has written before its commit is its own;
sequences are not part of a transaction. The workspace's budget lock, under which admissions exclude one another, is
left out, so more interleavings are allowed here than there are. -/
namespace ChessCrawl.Application
open ChessCrawl.Lib ChessCrawl.Jobs
set_option autoImplicit false

/-! ## Requests -/

inductive Operation
  | importGames | crawl | upgrade | resource | buildWorkingSet | prepareExport
deriving DecidableEq, Repr

inductive CollectionMode
  | bounded | full | incremental | backfill
deriving DecidableEq, Repr

def CollectionMode.text : CollectionMode → String
  | .bounded => "bounded"
  | .full => "full"
  | .incremental => "incremental"
  | .backfill => "backfill"

structure ImportRequest where
  provider : String
  username : String
  since : Option Int
  stop : Option Int
  maxGames : Int
  collectionMode : CollectionMode
  batchSize : Int
deriving DecidableEq, Repr

structure CrawlRequest where
  provider : String
  username : String
  since : Int
  stop : Int
  maxGames : Nat
  maxDepth : Nat
  maxUsers : Nat
  maxJobs : Nat
deriving DecidableEq, Repr

def optional : Option Int → Value
  | some n => .int n
  | none => .null

/-- `asdict`, with its keys in order -/
def ImportRequest.fields (r : ImportRequest) : Params :=
  [("batch_size", .int r.batchSize), ("collection_mode", .text r.collectionMode.text), ("max_games", .int r.maxGames),
    ("provider", .text r.provider), ("since", optional r.since), ("until", optional r.stop),
    ("username", .text r.username)]

/-- The parameters of the run and of both jobs of an import. -/
def ImportRequest.params (r : ImportRequest) : Params :=
  let params := (Params.set "strategy" (.text "import") r.fields).set "limit" (.int r.maxGames)
  if r.provider = "lichess" ∧ r.collectionMode ≠ .bounded then
    let params := r.since.elim params fun since => params.set "since_ms" (.int (since * 1000))
    r.stop.elim params fun stop => params.set "until_ms" (.int (stop * 1000))
  else params

def CrawlRequest.fields (r : CrawlRequest) : Params :=
  [("max_depth", .int r.maxDepth), ("max_games", .int r.maxGames), ("max_jobs", .int r.maxJobs),
    ("max_users", .int r.maxUsers), ("provider", .text r.provider), ("since", .int r.since), ("until", .int r.stop),
    ("username", .text r.username)]

/-- A request as `request_json` has it. The requests of the operations below an import and a crawl are objects of any
shape, up to the equality of what `json.loads` reads. -/
inductive Canonical (β : Type)
  | object (fields : Params)
  | body (b : β)
deriving DecidableEq

/-- A validated request with what its `create` inserts: an import or an opponent crawl, a run with one root job (an
upgrade, a resource, a refresh, a single game), or a run of an archive job. -/
inductive Request (β : Type)
  | importGames (r : ImportRequest)
  | crawl (r : CrawlRequest)
  | root (operation : Operation) (body : β) (provider : String) (params : Params) (kind : JobKind) (target : String)
  | buildWorkingSet (body : β)
  | prepareExport (body : β)

section Requests
variable {β : Type}

def Request.operation : Request β → Operation
  | .importGames _ => .importGames
  | .crawl _ => .crawl
  | .root operation _ _ _ _ _ => operation
  | .buildWorkingSet _ => .buildWorkingSet
  | .prepareExport _ => .prepareExport

def Request.canonical : Request β → Canonical β
  | .importGames r => .object r.fields
  | .crawl r => .object r.fields
  | .root _ body _ _ _ _ => .body body
  | .buildWorkingSet body => .body body
  | .prepareExport body => .body body

/-- What an insert raises, with the tables that it leaves: a sequence does not go back. -/
def raising {α : Type} (db : Db) (x : Except Failure α) : Except (Failure × Db) α := x.mapError fun e => (e, db)

/-- The run and the job of an archive operation. -/
def createArchiveJob (T : Text) (db : Db) (strategy : String) (kind : JobKind) (workspaceId : String) (now : Int) :
    Except (Failure × Db) ((Nat × List Nat) × Db) := do
  let (runId, db) ← raising db (db.createCrawlRun none [("contract_version", .int 1), ("strategy", .text strategy)] workspaceId)
  let (job, db) ← raising db (db.enqueueJob T ⟨none, kind, .name strategy, [("contract_version", .int 1)], some runId, none,
    0, 100, none, false, workspaceId, none, now⟩)
  .ok ((runId, [job.jobId]), db)

/-- `create`; `refusal` is what `reserve_artifact` raises behind the inserts. -/
def Request.create (T : Text) (db : Db) (workspaceId : String) (now : Int) (refusal : Option Failure) :
    Request β → Except (Failure × Db) ((Nat × List Nat) × Db)
  | .importGames r => do
    let (runId, db) ← raising db (db.createCrawlRun (some r.provider) r.params workspaceId)
    let (profile, db) ← raising db (db.enqueueJob T ⟨some r.provider, .fetchUserProfile, .name r.username, r.params,
      some runId, none, 0, 10, none, false, workspaceId, none, now⟩)
    let (games, db) ← raising db (db.enqueueJob T ⟨some r.provider, .fetchUserGames, .name r.username, r.params, some runId,
      some profile.jobId, 0, 20, none, false, workspaceId, none, now⟩)
    .ok ((runId, [profile.jobId, games.jobId]), db)
  | .crawl r => do
    -- it raises in front of its inserts only
    let (runId, db) ← raising db (db.createOpponentCrawl T r.provider r.username r.since r.stop
      ⟨r.maxDepth, r.maxUsers, r.maxGames, r.maxJobs⟩ workspaceId now)
    -- no other job names the new run, so its root was inserted last
    .ok ((runId, [db.jobSeq]), db)
  | .root _ _ provider params kind target => do
    let (runId, db) ← raising db (db.createCrawlRun (some provider) params workspaceId)
    let (job, db) ← raising db (db.enqueueJob T ⟨some provider, kind, .name target, params, some runId, none, 0, 100, none,
      false, workspaceId, none, now⟩)
    .ok ((runId, [job.jobId]), db)
  | .buildWorkingSet _ => createArchiveJob T db "build_working_set" .buildWorkingSet workspaceId now
  | .prepareExport _ => do
    let (ids, db) ← createArchiveJob T db "prepare_export" .prepareExport workspaceId now
    match refusal with
    | some e => .error (e, db)
    | none => .ok (ids, db)

/-- `dict.setdefault` -/
def setDefault (key : String) (value : Value) (p : Params) : Params :=
  if (p.lookup key).isSome then p else p.set key value

/-- The stored request as a replay compares it: imports of before collection modes name neither mode nor batch. -/
def Canonical.filled (operation : Operation) : Canonical β → Canonical β
  | .object fields =>
    if operation = .importGames then
      .object (setDefault "batch_size" (.int 1) (setDefault "collection_mode" (.text "bounded") fields))
    else .object fields
  | .body b => .body b

end Requests

/-! ## Tables -/

structure Submission (β : Type) where
  workspaceId : String
  key : String
  operation : Operation
  request : Canonical β
  runId : Nat
  jobIds : List Nat

structure Tables (β : Type) where
  submissions : List (Submission β)
  db : Db
  ledger : Budget.Ledger

/-- The identity of a submission. -/
abbrev Identity := String × String

section Submissions
variable {β : Type}

def Submission.identity (r : Submission β) : Identity := (r.workspaceId, r.key)

/-- `get_submission` -/
def Tables.getSubmission (t : Tables β) (i : Identity) : Option (Submission β) :=
  t.submissions.find? fun r => r.identity = i

end Submissions

/-! ## Calls -/

structure Call (β : Type) where
  workspaceId : String
  key : String
  request : Request β
  policy : Budget.BudgetPolicy

inductive Answer
  | accepted (runId : Nat) (jobIds : List Nat) (replayed : Bool)
  | conflict
  | refused
deriving DecidableEq, Repr

/-- The rows that a submission has inserted and not committed. -/
structure Rows where
  runId : Nat
  jobIds : List Nat
  runs : List Run
  jobs : List Job
  budgets : List Jobs.WorkBudget
  accounts : List Budget.WorkBudget
  periods : List Budget.Period
  policy : Option Budget.WorkspacePolicy

/-- Where a call is: in front of its policy transaction, in front of the lock, in front of the lookup, and behind a
lookup that found nothing, its creation, its admission, its record and its commit. -/
inductive Stage (β : Type)
  | opened | tightened | locked | absent
  | created (rows : Rows)
  | admitted (rows : Rows)
  | recorded (rows : Rows) (row : Submission β)
  | committed (runId : Nat) (jobIds : List Nat)

structure Session (β : Type) where
  call : Call β
  stage : Stage β

/-- The tables, the open calls, and who holds the lock of an identity. `created` logs the rows of committed creations
and `answers` what calls have returned or raised. -/
structure Desk (β : Type) where
  tables : Tables β
  sessions : Nat → Option (Session β)
  holder : Identity → Option Nat
  created : List (Submission β)
  answers : List (Call β × Answer)

section Steps
variable {β : Type}

def Call.identity (c : Call β) : Identity := (c.workspaceId, c.key)

def Desk.stand (s : Desk β) (n : Nat) (x : Option (Session β)) : Desk β :=
  { s with sessions := fun m => if m = n then x else s.sessions m }

/-- The end of a transaction: its lock goes with it. -/
def Desk.unlock (s : Desk β) (n : Nat) : Desk β :=
  { s with holder := fun i => if s.holder i = some n then none else s.holder i }

/-- A call returns or raises; an open transaction has ended before. -/
def Desk.answer (s : Desk β) (n : Nat) (c : Call β) (a : Answer) : Desk β :=
  { (s.unlock n).stand n none with answers := s.answers ++ [(c, a)] }

/-- The tables as a submission sees them. -/
def Rows.view (rows : Rows) (db : Db) : Db :=
  { db with
    runs := db.runs ++ rows.runs
    jobs := db.jobs ++ rows.jobs
    budgets := db.budgets ++ rows.budgets }

/-- The rows that the view has beyond the committed tables. -/
def Rows.read (runId : Nat) (jobIds : List Nat) (db view : Db) : Rows :=
  ⟨runId, jobIds, view.runs.drop db.runs.length, view.jobs.drop db.jobs.length, view.budgets.drop db.budgets.length,
    [], [], none⟩

/-- Sequences move when a row is inserted, whether or not it is committed. -/
def Desk.issue (s : Desk β) (db : Db) : Desk β :=
  { s with tables := { s.tables with db := { s.tables.db with runSeq := db.runSeq, jobSeq := db.jobSeq } } }

/-- `install_workspace_policy` behind `submission_context`. -/
def Tables.tighten (number : String → Nat) (t : Tables β) (c : Call β) : Tables β :=
  let w := number c.workspaceId
  let ledger := if w ∈ t.ledger.workspaces then t.ledger else { t.ledger with workspaces := w :: t.ledger.workspaces }
  { t with ledger := (ledger.installWorkspacePolicy w c.policy false).2 }

/-- The lookup of a key that is there: a replay, unless it identifies another request. -/
def Submission.reply [DecidableEq β] (r : Submission β) (q : Request β) : Answer :=
  if r.operation ≠ q.operation ∨ r.request.filled q.operation ≠ q.canonical then .conflict
  else .accepted r.runId r.jobIds true

/-- The row of `record_submission`. -/
def Call.row (c : Call β) (rows : Rows) : Submission β :=
  ⟨c.workspaceId, c.key, c.request.operation, c.request.canonical, rows.runId, rows.jobIds⟩

/-- `admit_run_budget` on the tables that the submission sees. -/
def Tables.admit (number : String → Nat) (t : Tables β) (c : Call β) (rows : Rows) (now : Int) :
    Option (Rows × Nat) :=
  let w := number c.workspaceId
  let view := rows.view t.db
  let archiveOnly := (view.run rows.runId).any fun r => r.provider.isNone &&
    (r.params.lookup "strategy" = some (.text "build_working_set") ||
      r.params.lookup "strategy" = some (.text "prepare_export"))
  match t.ledger.admitRunBudget ⟨rows.runId, w, archiveOnly⟩ w c.policy
      (view.countIn c.workspaceId JobState.live) now with
  | .error _ => none
  | .ok (budgetId, L) =>
    (view.admitRunBudget rows.runId ⟨budgetId, c.workspaceId,
        ⟨(c.policy.value .workspaceMaxQueuedJobs).toNat, (c.policy.value .workspaceMaxActiveJobs).toNat⟩⟩).map
      fun view =>
        ({ Rows.read rows.runId rows.jobIds t.db view with
          accounts := L.budgets.drop t.ledger.budgets.length
          periods := L.periods.drop t.ledger.periods.length
          policy := L.policyOf w }, L.budgetSeq)

/-- The rows join the committed tables. -/
def Budget.Ledger.join (L : Budget.Ledger) (rows : Rows) : Budget.Ledger :=
  { L with
    budgets := L.budgets ++ rows.accounts
    periods := L.periods ++ rows.periods
    policies := rows.policy.elim L.policies fun p => (L.policies.filter fun q => q.workspaceId ≠ p.workspaceId) ++ [p] }

def Tables.commit (t : Tables β) (rows : Rows) (row : Submission β) : Tables β :=
  ⟨t.submissions ++ [row], rows.view t.db, Budget.Ledger.join t.ledger rows⟩

inductive Event (β : Type)
  | begin (n : Nat) (c : Call β)
  | tighten (n : Nat)
  | lock (n : Nat)
  | lookup (n : Nat)
  | create (n : Nat) (now : Int) (refusal : Option Failure)
  | admitBudget (n : Nat) (now : Int)
  | record (n : Nat)
  | commit (n : Nat)
  | reply (n : Nat)
  | crash (n : Nat)
  /-- Workers, recoveries, deliveries and other operations; none of them writes `application_submissions`. -/
  | elsewhere (db : Db) (ledger : Budget.Ledger)

variable [DecidableEq β] (T : Text) (number : String → Nat)

/-- A step of the call that a session is in. -/
def Desk.act (s : Desk β) (n : Nat) (c : Call β) : Stage β → Event β → Option (Desk β)
  | .opened, .tighten _ =>
    some (({ s with tables := s.tables.tighten number c } : Desk β).stand n (some ⟨c, .tightened⟩))
  | .tightened, .lock _ =>
    if s.holder c.identity = none then
      some (({ s with holder := fun i => if i = c.identity then some n else s.holder i } : Desk β).stand n
        (some ⟨c, .locked⟩))
    else none
  | .locked, .lookup _ =>
    match s.tables.getSubmission c.identity with
    | some row => some (s.answer n c (row.reply c.request))
    | none => some (s.stand n (some ⟨c, .absent⟩))
  | .absent, .create _ now refusal =>
    match c.request.create T s.tables.db c.workspaceId now refusal with
    | .error (_, view) => some ((s.issue view).answer n c .refused)
    | .ok ((runId, jobIds), view) =>
      some ((s.issue view).stand n (some ⟨c, .created (Rows.read runId jobIds s.tables.db view)⟩))
  | .created rows, .admitBudget _ now =>
    match s.tables.admit number c rows now with
    | none => some (s.answer n c .refused)
    | some (rows, budgetSeq) =>
      some (({ s with tables := { s.tables with ledger := { s.tables.ledger with budgetSeq := budgetSeq } } } : Desk β).stand
        n (some ⟨c, .admitted rows⟩))
  | .admitted rows, .record _ =>
    some (s.stand n (some ⟨c, .recorded rows (c.row rows)⟩))
  | .recorded rows row, .commit _ =>
    -- the primary key
    if (s.tables.getSubmission row.identity).isNone then
      some (({ s with
        tables := s.tables.commit rows row
        created := s.created ++ [row] } : Desk β).unlock n |>.stand n (some ⟨c, .committed rows.runId rows.jobIds⟩))
    else some (s.answer n c .refused)
  | .committed runId jobIds, .reply _ => some (s.answer n c (.accepted runId jobIds false))
  | _, _ => none

def Event.session : Event β → Option Nat
  | .begin .. | .elsewhere .. => none
  | .tighten n | .lock n | .lookup n | .create n _ _ | .admitBudget n _ | .record n | .commit n | .reply n | .crash n => some n

def Desk.step (s : Desk β) (e : Event β) : Option (Desk β) :=
  match e with
  | .begin n c => if (s.sessions n).isNone then some (s.stand n (some ⟨c, .opened⟩)) else none
  | .elsewhere db ledger => some { s with tables := { s.tables with db := db, ledger := ledger } }
  | .crash n => some ((s.unlock n).stand n none)
  | e => e.session.bind fun n => (s.sessions n).bind fun x => s.act T number n x.call x.stage e

/-- Any number of submissions over tables that may hold rows of before, one for each identity. -/
def submissions : System (Desk β) (Event β) where
  init s := (s.tables.submissions.map Submission.identity).Nodup ∧ (∀ n, s.sessions n = none) ∧
    (∀ i, s.holder i = none) ∧ s.created = [] ∧ s.answers = []
  step := Desk.step T number

end Steps
end ChessCrawl.Application
