import ChessCrawl.Budget.Policy
import ChessCrawl.Lib.Ledger
import ChessCrawl.Lib.Run
import Mathlib.Algebra.Group.Pi.Basic

/-! Work budgets and monthly workspace quotas: `storage/work_budgets.py`. Every operation takes the
workspace-budget lock and runs in one transaction, so it is one step on the tables; an operation that
raises leaves them as they were. Counters stay within bigint, so they are integers. -/
namespace ChessCrawl.Budget
open ChessCrawl.Lib
set_option autoImplicit false

/-! ## Tables -/

/-- Usage, or a change of it, by dimension. -/
abbrev Usage := Dimension → Int

structure WorkBudget where
  id : Nat
  workspaceId : Nat
  crawlRunId : Option Nat
  standaloneJobId : Option Nat
  policy : BudgetPolicy
  usage : Usage
  workspacePolicyVersion : Nat

structure Period where
  workspaceId : Nat
  periodStart : Int
  periodEnd : Int
  usage : Usage

structure WorkspacePolicy where
  workspaceId : Nat
  policy : BudgetPolicy
  managed : Bool
  version : Nat

structure Reservation where
  id : Nat
  budgetId : Nat
  workspaceId : Nat
  periodStart : Int
  reservedBytes : Int
  consumedBytes : Option Int
deriving DecidableEq, Repr

/-- A row of `budget_game_items`. The table does not record the workspace period that was charged;
the last two fields keep it for the statements. -/
structure GameItem where
  budgetId : Nat
  gameKey : String
  workspaceId : Nat
  periodStart : Int
deriving DecidableEq, Repr

/-- Interpretation units billed by one call. No table records them beyond the counters. -/
structure UnitCharge where
  budgetId : Nat
  workspaceId : Nat
  periodStart : Int
  units : Int
deriving DecidableEq, Repr

structure Ledger where
  workspaces : List Nat
  budgets : List WorkBudget
  periods : List Period
  policies : List WorkspacePolicy
  reservations : List Reservation
  gameItems : List GameItem
  unitCharges : List UnitCharge
  budgetSeq : Nat
  reservationSeq : Nat

/-- What an operation can raise. -/
inductive BudgetError
  | budgetExceeded (dimension : Dimension) (remaining : Int) (budgetId : Nat)
  | quotaExceeded (dimension : Dimension) (remaining resetAt : Int) (budgetId : Option Nat)
  | queuedJobsExceeded (resetAt : Int) (budgetId : Option Nat)
  | valueError (message : String)
  | timeOutOfRange
  | missingRow
deriving DecidableEq, Repr

abbrev Result (α : Type) := Except BudgetError α

/-! ## Accounts -/

def Period.key (p : Period) : Nat × Int := (p.workspaceId, p.periodStart)

def WorkBudget.add (amount : Usage) (b : WorkBudget) : WorkBudget := { b with usage := b.usage + amount }

def Period.add (amount : Usage) (p : Period) : Period := { p with usage := p.usage + amount }

/-- The pair of updates of `work_budgets` and `workspace_budget_periods`. -/
def Ledger.charge (L : Ledger) (budgetId workspaceId : Nat) (periodStart : Int) (amount : Usage) : Ledger :=
  { L with
    budgets := post WorkBudget.id WorkBudget.add budgetId amount L.budgets
    periods := post Period.key Period.add (workspaceId, periodStart) amount L.periods }

/-! ## Policies and periods -/

def Ledger.policyOf (L : Ledger) (workspaceId : Nat) : Option WorkspacePolicy :=
  L.policies.find? fun w => w.workspaceId = workspaceId

/-- `_replace_workspace_policy` -/
def Ledger.replaceWorkspacePolicy (L : Ledger) (workspaceId : Nat) (policy : BudgetPolicy) (managed : Bool) :
    Ledger :=
  { L with policies := L.policies.map fun w =>
      if w.workspaceId = workspaceId then
        { w with policy := policy, managed := managed, version := w.version + 1 }
      else w }

/-- `_workspace_policy`: the first policy of a workspace becomes its shared ceiling, and an admission
tightens one that is not managed. -/
def Ledger.workspacePolicy (L : Ledger) (workspaceId : Nat) (policy : BudgetPolicy)
    (tighten managed : Bool) : BudgetPolicy × Ledger :=
  let (row, L) := match L.policyOf workspaceId with
    | some row => (row, L)
    | none =>
      let row : WorkspacePolicy := ⟨workspaceId, policy, managed, 1⟩
      (row, { L with policies := L.policies ++ [row] })
  if tighten && !row.managed then
    let effective := row.policy.tighten policy PolicyField.workspace
    if effective.same row.policy then (effective, L)
    else (effective, L.replaceWorkspacePolicy workspaceId effective false)
  else (row.policy, L)

/-- `_period` -/
def Ledger.period (L : Ledger) (workspaceId : Nat) (now : Int) : Result (Period × Ledger) :=
  match monthlyPeriod now with
  | none => .error .timeOutOfRange
  | some (start, stop) =>
    match L.periods.find? fun p => p.key = (workspaceId, start) with
    | some p => .ok (p, L)
    | none =>
      let p : Period := ⟨workspaceId, start, stop, 0⟩
      .ok (p, { L with periods := L.periods ++ [p] })

/-- `set_workspace_policy` -/
def Ledger.setWorkspacePolicy (L : Ledger) (workspaceId : Nat) (policy : BudgetPolicy)
    (expectedVersion : Int) : Result (Nat × Ledger) :=
  if ¬ (0 ≤ expectedVersion ∧ expectedVersion < 2 ^ 63) then
    .error (.valueError "Expected policy version must be a nonnegative PostgreSQL bigint")
  else
    match L.policyOf workspaceId with
    | none =>
      if expectedVersion = 0 then
        if workspaceId ∈ L.workspaces then .ok (1, (L.workspacePolicy workspaceId policy false true).2)
        else .error (.valueError "Workspace not found")
      else .error (.valueError "Workspace policy version changed; inspect it before updating")
    | some row =>
      if row.version = expectedVersion then
        .ok (row.version + 1, L.replaceWorkspacePolicy workspaceId policy true)
      else .error (.valueError "Workspace policy version changed; inspect it before updating")

/-- `install_workspace_policy` -/
def Ledger.installWorkspacePolicy (L : Ledger) (workspaceId : Nat) (policy : BudgetPolicy) (managed : Bool) :
    BudgetPolicy × Ledger :=
  L.workspacePolicy workspaceId policy true managed

/-! ## Admission -/

/-- The columns of a run and of a job that admission reads. -/
structure CrawlRun where
  id : Nat
  workspaceId : Nat
  archiveOnly : Bool
deriving DecidableEq, Repr

structure Job where
  id : Nat
  workspaceId : Nat
  crawlRun : Option CrawlRun
  workBudgetId : Option Nat
deriving DecidableEq, Repr

/-- `_admission_policy` -/
def Ledger.admissionPolicy (L : Ledger) (workspaceId : Nat) (submitted : BudgetPolicy) :
    Result (BudgetPolicy × Nat) :=
  match L.policyOf workspaceId with
  | some row => .ok (if row.managed then row.policy else submitted, row.version)
  | none => .error .missingRow

def Ledger.insertBudget (L : Ledger) (workspaceId : Nat) (crawlRunId standaloneJobId : Option Nat)
    (policy : BudgetPolicy) (version : Nat) : Nat × Ledger :=
  let id := L.budgetSeq + 1
  (id, { L with
    budgets := L.budgets ++ [⟨id, workspaceId, crawlRunId, standaloneJobId, policy, 0, version⟩]
    budgetSeq := id })

/-- The workspace quota left for new work, in the order the admission checks it. -/
def requireQuota (workspacePolicy : BudgetPolicy) (usage : Period) : List Dimension → Result Unit
  | [] => .ok ()
  | d :: ds =>
    if workspacePolicy.value (.workspaceMax d) - usage.usage d ≤ 0 then
      .error (.quotaExceeded d 0 usage.periodEnd none)
    else requireQuota workspacePolicy usage ds

/-- `admit_run_budget`; `queued` is the workspace's number of unfinished jobs. A run has its
`work_budget_id` exactly when the budget that names the run exists. -/
def Ledger.admitRunBudget (L : Ledger) (run : CrawlRun) (workspaceId : Nat) (policy : BudgetPolicy)
    (queued now : Int) : Result (Nat × Ledger) :=
  if run.workspaceId ≠ workspaceId then
    .error (.valueError "Work budget owner does not match the run")
  else
    match L.budgets.find? fun b => b.crawlRunId = some run.id with
    | some b => .ok (b.id, L)
    | none => do
      let (workspacePolicy, L) := L.workspacePolicy workspaceId policy true false
      let (policy, version) ← L.admissionPolicy workspaceId policy
      let (usage, L) ← L.period workspaceId now
      requireQuota workspacePolicy usage
        (if run.archiveOnly then [.normalizationUnits]
         else [.games, .normalizationUnits, .remoteBytes, .remoteRequests])
      if queued > workspacePolicy.value .workspaceMaxQueuedJobs + workspacePolicy.value .workspaceMaxActiveJobs then
        .error (.queuedJobsExceeded usage.periodEnd none)
      else .ok (L.insertBudget workspaceId (some run.id) none policy version)

/-- `ensure_job_budget` -/
def Ledger.ensureJobBudget (L : Ledger) (job : Job) (policy : BudgetPolicy) (queued now : Int) :
    Result (Nat × Ledger) :=
  match job.workBudgetId, job.crawlRun with
  | some id, _ => .ok (id, L)
  | none, some run => L.admitRunBudget run job.workspaceId policy queued now
  | none, none => do
    let (_, L) := L.workspacePolicy job.workspaceId policy true false
    let (policy, version) ← L.admissionPolicy job.workspaceId policy
    match L.budgets.find? fun b => b.standaloneJobId = some job.id with
    | some b => .ok (b.id, L)
    | none => .ok (L.insertBudget job.workspaceId none (some job.id) policy version)

/-! ## Reservations -/

/-- What `_locked_budget` reads. -/
structure Locked where
  budget : WorkBudget
  usage : Period
  workspacePolicy : BudgetPolicy

/-- `_locked_budget` -/
def Ledger.lockedBudget (L : Ledger) (budgetId : Nat) (now : Int) : Result (Locked × Ledger) :=
  match L.budgets.find? fun b => b.id = budgetId with
  | none => .error .missingRow
  | some budget => do
    let (workspacePolicy, L) := L.workspacePolicy budget.workspaceId budget.policy false false
    let (usage, L) ← L.period budget.workspaceId now
    .ok (⟨budget, usage, workspacePolicy⟩, L)

/-- `_remaining`: the job's own ceiling is checked before the workspace's. -/
def Locked.remaining (c : Locked) (d : Dimension) (requested : Int) : Result Int :=
  let jobRemaining := c.budget.policy.value (.jobMax d) - c.budget.usage d
  let workspaceRemaining := c.workspacePolicy.value (.workspaceMax d) - c.usage.usage d
  if jobRemaining < requested then .error (.budgetExceeded d (max 0 jobRemaining) c.budget.id)
  else if workspaceRemaining < requested then
    .error (.quotaExceeded d (max 0 workspaceRemaining) c.usage.periodEnd (some c.budget.id))
  else .ok (min jobRemaining workspaceRemaining)

/-- The read limit of a request, given the bytes still available. -/
def readLimit (maxResponseBytes available : Int) : Int :=
  min maxResponseBytes (if available < 131072 then available / 2 else available - 65536)

/-- One request, its bytes, and one unit for interpreting the response. -/
def requestUsage (bytes : Int) : Usage
  | .games => 0
  | .normalizationUnits => 1
  | .remoteBytes => bytes
  | .remoteRequests => 1

def processingUsage (interpretationUnits gameUnits : Int) : Usage
  | .games => gameUnits
  | .normalizationUnits => interpretationUnits
  | .remoteBytes => 0
  | .remoteRequests => 0

/-- The rows of one reservation. -/
def Ledger.recordRequest (L : Ledger) (c : Locked) (reserved : Int) : Ledger :=
  { L.charge c.budget.id c.budget.workspaceId c.usage.periodStart (requestUsage reserved) with
    reservations := L.reservations ++
      [⟨L.reservationSeq + 1, c.budget.id, c.budget.workspaceId, c.usage.periodStart, reserved, none⟩]
    reservationSeq := L.reservationSeq + 1 }

/-- `reserve_request` -/
def Ledger.reserveRequest (L : Ledger) (budgetId : Nat) (now : Int) : Result ((Nat × Int) × Ledger) := do
  let (c, L) ← L.lockedBudget budgetId now
  let _ ← c.remaining .remoteRequests 1
  let _ ← c.remaining .games 1
  let _ ← c.remaining .normalizationUnits 1
  let available ← c.remaining .remoteBytes 1
  if available < 2 then .error (.budgetExceeded .remoteBytes available budgetId)
  else
    let limit := readLimit (c.budget.policy.value .maxResponseBytes) available
    .ok ((L.reservationSeq + 1, limit), L.recordRequest c (limit + min 65536 limit))

/-- The refund of a settled reservation. -/
def refundUsage (bytes : Int) : Usage
  | .remoteBytes => -bytes
  | _ => 0

/-- The refund goes to the period of the reservation, whatever the month is now. -/
def Ledger.settle (L : Ledger) (row : Reservation) (consumed : Int) : Ledger :=
  { L.charge row.budgetId row.workspaceId row.periodStart (refundUsage (row.reservedBytes - consumed)) with
    reservations := L.reservations.map fun r =>
      if r.id = row.id then { r with consumedBytes := some consumed } else r }

/-- `settle_request` -/
def Ledger.settleRequest (L : Ledger) (reservationId : Nat) (consumed : Int) : Result Ledger :=
  match L.reservations.find? fun r => r.id = reservationId with
  | none => .error .missingRow
  | some row =>
    if row.consumedBytes.isSome then .ok L
    else if 0 ≤ consumed ∧ consumed ≤ row.reservedBytes then .ok (L.settle row consumed)
    else .error (.valueError "Consumed bytes exceed the reserved bounded read allowance")

/-- `normalization_allowance` -/
def Ledger.normalizationAllowance (L : Ledger) (budgetId : Nat) (now : Int) : Result (Int × Ledger) := do
  let (c, L) ← L.lockedBudget budgetId now
  .ok (max 0 (min
      (c.budget.policy.value (.jobMax .normalizationUnits) - c.budget.usage .normalizationUnits)
      (c.workspacePolicy.value (.workspaceMax .normalizationUnits) - c.usage.usage .normalizationUnits)), L)

/-- `require_backlog_room` -/
def Ledger.requireBacklogRoom (L : Ledger) (budgetId : Nat) (queued now : Int) : Result Ledger := do
  let (c, L) ← L.lockedBudget budgetId now
  if queued ≥ c.workspacePolicy.value .workspaceMaxQueuedJobs + c.workspacePolicy.value .workspaceMaxActiveJobs then
    .error (.queuedJobsExceeded c.usage.periodEnd (some budgetId))
  else .ok L

/-! ## Processing work -/

/-- The row of a game that is new to the budget; one that the budget already has is free. -/
def Ledger.newItems (L : Ledger) (c : Locked) : Option String → List GameItem
  | none => []
  | some key =>
    if L.gameItems.any fun g => decide (g.budgetId = c.budget.id ∧ g.gameKey = key) then []
    else [⟨c.budget.id, key, c.budget.workspaceId, c.usage.periodStart⟩]

/-- The rows of one call of `_reserve_processing_work`. -/
def Ledger.recordWork (L : Ledger) (c : Locked) (items : List GameItem) (units : Int) : Ledger :=
  { L.charge c.budget.id c.budget.workspaceId c.usage.periodStart (processingUsage units items.length) with
    gameItems := L.gameItems ++ items
    unitCharges := L.unitCharges ++ [⟨c.budget.id, c.budget.workspaceId, c.usage.periodStart, units⟩] }

/-- A dimension that is not charged is not checked. -/
def Locked.remainingIf (c : Locked) (charged : Prop) [Decidable charged] (d : Dimension) (requested : Int) :
    Result Int :=
  if charged then c.remaining d requested else .ok 0

/-- `_reserve_processing_work`: the units are checked before the game. -/
def Ledger.reserveProcessingWork (L : Ledger) (budgetId : Nat) (gameKey : Option String) (units now : Int) :
    Result (Bool × Ledger) := do
  let (c, L) ← L.lockedBudget budgetId now
  let _ ← c.remainingIf (units ≠ 0) .normalizationUnits units
  let items := L.newItems c gameKey
  let _ ← c.remainingIf (items ≠ []) .games 1
  if units = 0 ∧ items = [] then .ok (false, L)
  else .ok (items ≠ [], L.recordWork c items units)

/-- `reserve_normalization` -/
def Ledger.reserveNormalization (L : Ledger) (budgetId : Nat) (gameKey : Option String) (units now : Int) :
    Result (Bool × Ledger) :=
  if units < 1 then .error (.valueError "Normalization reservation must contain positive integer units")
  else L.reserveProcessingWork budgetId gameKey units now

/-- `reserve_game` -/
def Ledger.reserveGame (L : Ledger) (budgetId : Nat) (gameKey : String) (now : Int) : Result (Bool × Ledger) :=
  L.reserveProcessingWork budgetId (some gameKey) 0 now

/-! ## Resuming -/

def Ledger.extendBudget (L : Ledger) (budgetId : Nat) (policy : BudgetPolicy) : Ledger :=
  { L with budgets := L.budgets.map fun b =>
      if b.id = budgetId then { b with policy := b.policy.extend policy fun _ => true } else b }

/-- `resume_run_budget`: every ceiling of the run and every shared one can only grow. -/
def Ledger.resumeRunBudget (L : Ledger) (runId workspaceId : Nat) (policy : BudgetPolicy) : Result Ledger :=
  match L.budgets.find? fun b => b.crawlRunId = some runId ∧ b.workspaceId = workspaceId with
  | none => .error (.valueError "Owned run budget not found")
  | some row =>
    let L := L.extendBudget row.id policy
    let (workspacePolicy, L) := L.workspacePolicy workspaceId row.policy false false
    let extended := workspacePolicy.extend policy PolicyField.workspace
    if extended.same workspacePolicy then .ok L
    else
      match L.policyOf workspaceId with
      | some w => .ok (L.replaceWorkspacePolicy workspaceId extended w.managed)
      | none => .error .missingRow

/-! ## The system -/

inductive Event
  | createWorkspace (workspaceId : Nat)
  | setWorkspacePolicy (workspaceId : Nat) (policy : BudgetPolicy) (expectedVersion : Int)
  | installWorkspacePolicy (workspaceId : Nat) (policy : BudgetPolicy) (managed : Bool)
  | admitRunBudget (run : CrawlRun) (workspaceId : Nat) (policy : BudgetPolicy) (queued now : Int)
  | ensureJobBudget (job : Job) (policy : BudgetPolicy) (queued now : Int)
  | reserveRequest (budgetId : Nat) (now : Int)
  | settleRequest (reservationId : Nat) (consumed : Int)
  | normalizationAllowance (budgetId : Nat) (now : Int)
  | requireBacklogRoom (budgetId : Nat) (queued now : Int)
  | reserveNormalization (budgetId : Nat) (gameKey : Option String) (units now : Int)
  | reserveGame (budgetId : Nat) (gameKey : String) (now : Int)
  | resumeRunBudget (runId workspaceId : Nat) (policy : BudgetPolicy)

/-- Each event reads its own clock, so months change between any two. -/
def Ledger.step (L : Ledger) : Event → Result Ledger
  | .createWorkspace workspaceId => .ok { L with workspaces := workspaceId :: L.workspaces }
  | .setWorkspacePolicy workspaceId policy version =>
    (L.setWorkspacePolicy workspaceId policy version).map Prod.snd
  | .installWorkspacePolicy workspaceId policy managed =>
    .ok (L.installWorkspacePolicy workspaceId policy managed).2
  | .admitRunBudget run workspaceId policy queued now =>
    (L.admitRunBudget run workspaceId policy queued now).map Prod.snd
  | .ensureJobBudget job policy queued now => (L.ensureJobBudget job policy queued now).map Prod.snd
  | .reserveRequest budgetId now => (L.reserveRequest budgetId now).map Prod.snd
  | .settleRequest reservationId consumed => L.settleRequest reservationId consumed
  | .normalizationAllowance budgetId now => (L.normalizationAllowance budgetId now).map Prod.snd
  | .requireBacklogRoom budgetId queued now => L.requireBacklogRoom budgetId queued now
  | .reserveNormalization budgetId gameKey units now =>
    (L.reserveNormalization budgetId gameKey units now).map Prod.snd
  | .reserveGame budgetId gameKey now => (L.reserveGame budgetId gameKey now).map Prod.snd
  | .resumeRunBudget runId workspaceId policy => L.resumeRunBudget runId workspaceId policy

def Ledger.empty : Ledger := ⟨[], [], [], [], [], [], [], 0, 0⟩

def workBudgets : System Ledger Event where
  init L := L = Ledger.empty
  step L e := (L.step e).toOption

end ChessCrawl.Budget
