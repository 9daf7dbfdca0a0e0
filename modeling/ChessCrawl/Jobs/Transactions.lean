import ChessCrawl.Jobs.Known

/-! Transactions with a window between their statements and their commit. A session sees the committed tables and
what it has written itself. A submission inserts its run and its jobs, then takes its workspace's budget lock and
counts; a worker's transaction takes the lock and counts before each insert. The lock is held to the end of the
transaction. Claims, retries and completions insert nothing and are single steps. -/
namespace ChessCrawl.Jobs
open ChessCrawl.Lib
set_option autoImplicit false

/-! ## Admission -/

/-- `admit_run_budget`; `exhausted` is a period dimension of the workspace that has nothing left. -/
def Db.admitRun (db : Db) (runId : Nat) (exhausted : Option String) (b : WorkBudget) : Except Failure Db :=
  match db.run runId with
  | none => .error .missingRow
  | some run =>
    if run.workspaceId ≠ b.workspaceId then .error (.valueError "Work budget owner does not match the run")
    else if run.workBudgetId.isSome then .ok db
    else
      let policy := db.policy b.workspaceId b.policy
      match exhausted with
      | some dimension => .error (.quotaExceeded dimension)
      | none =>
        if policy.maxQueuedJobs + policy.maxActiveJobs < db.countIn b.workspaceId JobState.live then
          .error (.quotaExceeded "queued_jobs")
        else match db.admitRunBudget runId b with
          | some db' => .ok db'
          | none => .error .missingRow

/-! ## Drafts -/

/-- A row of `discovery_edges`. -/
structure Edge where
  crawlRunId : Nat
  username : String
  depth : Nat
deriving DecidableEq, Repr

/-- An update of a committed row by `promote_crawl_depth`. -/
structure Promotion where
  id : Nat
  depth : Nat
  priority : Int
deriving DecidableEq, Repr

/-- A submission in front of and behind `admit_run_budget`, or a worker's transaction. -/
inductive Phase
  | creating (workspaceId : String) (runId : Option Nat)
  | admitted
  | working
deriving DecidableEq, Repr

/-- What a session has written and not committed. `frontier` are the edges that an expansion has still to follow
from its parent. -/
structure Draft where
  phase : Phase
  runs : List Run
  jobs : List Job
  budgets : List WorkBudget
  edges : List Edge
  promotions : List Promotion
  expanding : Option (Job × Nat)
  frontier : List String
deriving DecidableEq, Repr

def Draft.start (phase : Phase) : Draft := ⟨phase, [], [], [], [], [], none, []⟩

def Draft.patch (d : Draft) (j : Job) : Job :=
  match d.promotions.find? fun p => p.id = j.id with
  | some p => { j with depth := p.depth, priority := p.priority }
  | none => j

/-- The tables as the session sees them. -/
def Draft.view (d : Draft) (db : Db) : Db :=
  { db with
    jobs := db.jobs.map d.patch ++ d.jobs
    runs := db.runs ++ d.runs
    budgets := db.budgets ++ d.budgets }

/-- The draft after a statement that leaves the session's view as `db'`. -/
def Draft.absorb (d : Draft) (db db' : Db) : Draft :=
  { d with
    jobs := db'.jobs.drop db.jobs.length
    runs := db'.runs.drop db.runs.length
    budgets := db'.budgets.drop db.budgets.length
    promotions := ((db'.jobs.take db.jobs.length).filter fun k => k ∉ (d.view db).jobs).map
      (fun k => ⟨k.id, k.depth, k.priority⟩) ++ d.promotions }

/-! ## Sessions -/

/-- `gate` says which session holds the `workspace-budget` lock of a workspace. -/
structure Backlog where
  world : World
  edges : List Edge
  budgetSeq : Nat
  gate : String → Option Nat
  drafts : Nat → Option Draft

def Backlog.gets (s : Backlog) (n : Nat) (workspaceId : String) : Bool :=
  s.gate workspaceId = none || s.gate workspaceId = some n

def Backlog.lock (s : Backlog) (n : Nat) (workspaceId : String) : Backlog :=
  { s with gate := fun v => if v = workspaceId then some n else s.gate v }

def Backlog.put (s : Backlog) (n : Nat) (d : Draft) : Backlog :=
  { s with drafts := fun m => if m = n then some d else s.drafts m }

/-- The end of a transaction: its locks go with it. -/
def Backlog.close (s : Backlog) (n : Nat) : Backlog :=
  { s with
    gate := fun v => if s.gate v = some n then none else s.gate v
    drafts := fun m => if m = n then none else s.drafts m }

/-- Sequences are not part of a transaction. -/
def Backlog.issue (s : Backlog) (db' : Db) : Backlog :=
  { s with world := s.world.withDb { s.world.db with jobSeq := db'.jobSeq, runSeq := db'.runSeq } }

/-- A statement that has run: its writes join the draft. -/
def Backlog.wrote (s : Backlog) (n : Nat) (d : Draft) (db' : Db) : Backlog :=
  (s.issue db').put n (d.absorb s.world.db db')

/-- A statement of a worker's transaction. An insert or a refusal has counted under the lock of its workspace. -/
def Backlog.guarded (s : Backlog) (n : Nat) (d : Draft) (workspaceId : String) (result : Except Failure Db) :
    Option Backlog :=
  match result with
  | .error _ => if s.gets n workspaceId then some (s.close n) else none
  | .ok db' =>
    if db'.jobs.length = (d.view s.world.db).jobs.length then some (s.wrote n d db')
    else if s.gets n workspaceId then some ((s.wrote n d db').lock n workspaceId)
    else none

/-- What neither inserts a job nor touches a run's budget: claims, checkpoints, retries, completions, recoveries
and cancellations. -/
def Event.settles : Event → Bool
  | .cancel _ | .claim .. | .checkpoint .. | .readDepth _ | .finish .. | .mark .. | .release _ | .resumeStale ..
  | .unblock .. | .resumeRunBudget .. | .refresh .. => true
  | .createRun .. | .createOpponentCrawl .. | .enqueue _ | .admitBudget .. | .capture .. | .expansion .. | .expand .. =>
    false

inductive BacklogEvent
  | world (ev : Event)
  | submit (n : Nat) (workspaceId : String)
  | create (n : Nat) (provider : Option String) (params : Params)
  | root (n : Nat) (e : Enqueue)
  | admitRun (n : Nat) (policy : WorkspacePolicy) (exhausted : Option String)
  | work (n : Nat)
  | child (n : Nat) (e : Enqueue)
  | expand (n : Nat) (edges : List String)
  | discover (n : Nat) (r : Race) (now : Int)
  | commit (n : Nat)
  | rollback (n : Nat)

/-- The workspace of a run that has a budget. -/
def Db.budgeted (db : Db) (runId : Nat) : Option String :=
  (db.run runId).bind fun run => if run.workBudgetId.isSome then some run.workspaceId else none

section Steps
variable (T : Text)

/-- A statement that may be refused: the session, its draft, the workspace that it counts, and what it answers. -/
def Backlog.statement (s : Backlog) : BacklogEvent → Option (Nat × Draft × String × Except Failure Db)
  | .create n provider params => (s.drafts n).bind fun d =>
    match d.phase with
    | .creating workspaceId none =>
      some (n, d, workspaceId, ((d.view s.world.db).createCrawlRun provider params workspaceId).map Prod.snd)
    | _ => none
  | .root n e => (s.drafts n).bind fun d =>
    match d.phase with
    | .creating workspaceId (some runId) =>
      -- its own run
      if e.crawlRunId = some runId ∧ ((d.view s.world.db).run runId).any fun run => run ∈ d.runs then
        some (n, d, workspaceId, ((d.view s.world.db).enqueueJob T e).map Prod.snd)
      else none
    | _ => none
  | .admitRun n policy exhausted => (s.drafts n).bind fun d =>
    match d.phase with
    | .creating workspaceId (some runId) =>
      if ((d.view s.world.db).run runId).any fun run => run ∈ d.runs then
        some (n, d, workspaceId,
          (d.view s.world.db).admitRun runId exhausted ⟨s.budgetSeq + 1, workspaceId, policy⟩)
      else none
    | _ => none
  | .child n e => (s.drafts n).bind fun d =>
    if d.phase = .working then
      (e.crawlRunId.bind (d.view s.world.db).budgeted).map fun workspaceId =>
        (n, d, workspaceId, ((d.view s.world.db).enqueueJob T e).map Prod.snd)
    else none
  | .discover n r now => (s.drafts n).bind fun d =>
    match d.phase, d.expanding, d.frontier with
    | .working, some (parent, depth), username :: _ =>
      match parent.crawlRunId, parent.provider, parent.childParams.bounds with
      | some runId, some provider, .ok b =>
        ((d.view s.world.db).budgeted runId).map fun workspaceId => (n, d, workspaceId,
          if b.maxDepth < depth + 1 then .ok (d.view s.world.db)
          else (d.view s.world.db).discover T parent runId provider parent.childParams b (depth + 1) r now username)
      | _, _, _ => none
    | _, _, _ => none
  | _ => none

def Backlog.step (w : WorkerSettings) (s : Backlog) (ev : BacklogEvent) : Option Backlog :=
  match ev with
  | .world e => if e.settles then (s.world.step T w e).map fun t => { s with world := t } else none
  | .submit n workspaceId =>
    if (s.drafts n).isNone then some (s.put n (.start (.creating workspaceId none))) else none
  | .create .. => (s.statement T ev).bind fun x =>
    match x with
    | (n, _, _, .error _) => some (s.close n)
    | (n, d, workspaceId, .ok db') =>
      some (s.wrote n { d with phase := .creating workspaceId (some db'.runSeq) } db')
  | .root .. => (s.statement T ev).map fun x =>
    match x with
    | (n, _, _, .error _) => s.close n
    | (n, d, _, .ok db') => s.wrote n d db'
  | .admitRun .. => (s.statement T ev).bind fun x =>
    if s.gets x.1 x.2.2.1 then
      some (match x with
        | (n, _, _, .error _) => s.close n
        | (n, d, workspaceId, .ok db') =>
          { (s.wrote n { d with phase := .admitted } db').lock n workspaceId with budgetSeq := s.budgetSeq + 1 })
    else none
  | .work n =>
    if (s.drafts n).isNone ∧ (s.world.attempts n).any fun a => s.world.db.fenced a.job.id a.token then
      some (s.put n (.start .working))
    else none
  | .child .. => (s.statement T ev).bind fun x => s.guarded x.1 x.2.1 x.2.2.1 x.2.2.2
  | .expand n edges => (s.drafts n).bind fun d => (s.world.attempts n).bind fun a =>
    match d.phase, d.expanding, a.depth, s.world.db.acquisitionOf a.job with
    | .working, none, some depth, some parent =>
      match parent.crawlRunId, parent.provider, parent.childParams.bounds with
      | some runId, some provider, .ok b =>
        if b.maxDepth < depth + 1 then none
        else
          let frontier := edges.filter fun username =>
            !(d.view s.world.db).knownAtOrBefore T runId provider username depth
          some (s.put n { d with
            expanding := some (parent, depth)
            frontier := frontier
            edges := frontier.map fun username => ⟨runId, username, depth + 1⟩ })
      | _, _, _ => none
    | _, _, _, _ => none
  | .discover .. => (s.statement T ev).bind fun x =>
    s.guarded x.1 { x.2.1 with frontier := x.2.1.frontier.tail } x.2.2.1 x.2.2.2
  | .commit n => (s.drafts n).bind fun d =>
    if d.phase = .admitted ∨ d.phase = .working ∧ d.frontier = [] then
      some (Backlog.close { s with
        world := s.world.withDb (d.view s.world.db)
        edges := s.edges ++ d.edges } n)
    else none
  | .rollback n => some (s.close n)

/-- Submissions, workers' transactions and single steps in any order, under policies that do not change. -/
def backlog (w : WorkerSettings) : System Backlog BacklogEvent where
  init s := (workers T w).init s.world ∧ s.edges = [] ∧ (∀ workspaceId, s.gate workspaceId = none) ∧
    ∀ n, s.drafts n = none
  step := Backlog.step T w

end Steps
end ChessCrawl.Jobs
