import ChessCrawl.Budget.Games
import ChessCrawl.Normalize.Steps

/-! A bounded `fetch_user_games` job without a crawl run: `execute_bounded_acquisition` of
`jobs/acquisition.py`, the standalone branch of `remaining_game_budget` in `jobs/discovery.py`, and the
`normalize_payload` children that `enqueue_payload_normalization` and the runner give it. The job and its
children charge one work budget. An attempt that loses its job ends: its transactions are fenced. -/
namespace ChessCrawl.Normalize
open ChessCrawl.Lib
set_option autoImplicit false

/-! ## Jobs -/

inductive JobState
  | pending
  | inProgress (worker : Nat)
  | blocked | done | error | skipped
deriving DecidableEq, Repr

/-- The states in which a child keeps its parent from being claimed. -/
def JobState.unfinished : JobState → Bool
  | .pending | .inProgress _ | .blocked => true
  | .done | .error | .skipped => false

/-- How an attempt can end other than by completing its work: stopped or orphaned, blocked by a budget or
a transient failure, or failed. -/
def JobState.interruption : JobState → Bool
  | .pending | .blocked | .error | .skipped => true
  | .inProgress _ | .done => false

/-- What the job was given; `months` is the number of calendar months of its window. -/
structure BoundedJob where
  provider : Provider
  maxGames : Nat
  limit : Option Int
  months : Nat
  workBudgetId : Nat
deriving DecidableEq, Repr

/-- A `normalize_payload` job. -/
structure Child where
  id : Nat
  rawPayloadId : Nat
  fetchLogId : Nat
  parserVersion : String
  maxGames : Int
  state : JobState
  attempts : Nat
deriving DecidableEq, Repr

/-- Where the parent's attempt is. -/
inductive Attempt
  | idle | claimed | inspected
  | measured (remaining : Int)
  | captured | checkpointed
deriving DecidableEq, Repr

structure Parent where
  state : JobState
  cursorIndex : Nat
  captureComplete : Bool
  attempt : Attempt
deriving DecidableEq, Repr

structure Jobs where
  world : World
  parent : Parent
  children : List Child

/-! ## The parent -/

/-- `remaining_game_budget` of a job without a run, on `work_budget_game_count`. -/
def BoundedJob.remainingGameBudget (job : BoundedJob) (L : Budget.Ledger) : Except Failure Int :=
  match L.budgets.find? fun b => b.id = job.workBudgetId with
  | none => .error (.valueError "Work budget not found")
  | some b => .ok (max 0 (job.maxGames - b.usage .games))

/-- Python's `or` on an optional number: a missing one and zero give way. -/
def orElseInt : Option Int → Int → Int
  | some n, d => if n = 0 then d else n
  | none, d => d

/-- The allowance that a captured unit passes on: a month gets all that remains, a stream its limit. -/
def BoundedJob.unitAllowance (job : BoundedJob) (remaining : Int) : Except Failure Int :=
  match job.provider with
  | .chessCom => .ok remaining
  | .lichess =>
    let limit := orElseInt job.limit (orElseInt (some remaining) job.maxGames)
    if limit ≤ 0 then .error (.valueError "Lichess jobs require a positive limit")
    else .ok (min limit remaining)

/-- The job has captured all its units. -/
def BoundedJob.exhausted (job : BoundedJob) (p : Parent) : Bool :=
  p.captureComplete || (job.provider = .chessCom && p.cursorIndex ≥ job.months)

/-- The checkpoint of a captured unit. -/
def BoundedJob.checkpointJob (job : BoundedJob) (p : Parent) : Parent :=
  match job.provider with
  | .chessCom => { p with cursorIndex := p.cursorIndex + 1 }
  | .lichess => { p with captureComplete := true }

/-- `enqueue_payload_normalization`: one child for each captured occurrence and parser, whatever became of it. -/
def enqueuePayloadNormalization (children : List Child) (rawId fetchLogId : Nat) (parserVersion : String)
    (maxGames : Int) : List Child :=
  if children.any fun c => c.rawPayloadId = rawId && c.fetchLogId = fetchLogId && c.parserVersion = parserVersion then
    children
  else children ++ [⟨children.length, rawId, fetchLogId, parserVersion, maxGames, .pending, 0⟩]

/-! ## Children -/

/-- What the runner passes to `normalize_games_payload` for a child. -/
def BoundedJob.childRequest (job : BoundedJob) (c : Child) (evidenceVersion : String) : Request :=
  ⟨c.rawPayloadId, none, some c.maxGames, some job.workBudgetId, true, c.parserVersion, evidenceVersion⟩

def Jobs.onDuty (s : Jobs) (worker : Nat) : Bool := s.children.any fun c => c.state = .inProgress worker

def setChild (children : List Child) (id : Nat) (f : Child → Child) : List Child :=
  children.map fun c => if c.id = id then f c else c

/-- The children of a worker leave its hands in the given state. -/
def release (children : List Child) (worker : Nat) (state : JobState) : List Child :=
  children.map fun c => if c.state = .inProgress worker then { c with state := state } else c

/-! ## Steps -/

inductive JobEvent
  | world (e : Event)
  | claimParent (worker : Nat)
  | inspect | measure
  | capture (rawId fetchLogId : Nat) (parserVersion : String)
  | checkpoint
  | endParent (outcome : JobState)
  | unblockParent
  | attempt (worker childId : Nat) (evidenceVersion : String)
  | actChild (worker : Nat) (a : Act)
  | returnChild (worker : Nat)
  | endChild (worker : Nat) (outcome : JobState)
  | unblockChild (childId : Nat)

/-- Other work on the same database: no worker of a child, and no game of the job's budget. -/
def Jobs.foreign (job : BoundedJob) (s : Jobs) : Event → Bool
  | .start worker q => !s.onDuty worker && q.workBudgetId ≠ some job.workBudgetId
  | .act worker _ => !s.onDuty worker
  | .abandon worker => !s.onDuty worker
  | .ledger e => !e.chargesGame job.workBudgetId
  | _ => true

/-- `PROCESSING_READY_SQL` -/
def Jobs.processingReady (s : Jobs) : Bool := s.children.all fun c => !c.state.unfinished

def Jobs.setParent (s : Jobs) (p : Parent) : Jobs := { s with parent := p }

/-- The parent decides what is left to do. -/
def BoundedJob.measure (job : BoundedJob) (s : Jobs) : Option Jobs :=
  match job.remainingGameBudget s.world.db.ledger with
  | .error _ => none
  | .ok remaining =>
    some (s.setParent (if remaining = 0 ∨ job.exhausted s.parent then
      { s.parent with state := .done, attempt := .idle }
    else { s.parent with attempt := .measured remaining }))

/-- The parent stores its unit's child. -/
def BoundedJob.capture (job : BoundedJob) (s : Jobs) (remaining : Int) (rawId fetchLogId : Nat)
    (parserVersion : String) : Option Jobs :=
  match job.unitAllowance remaining with
  | .error _ => none
  | .ok allowance =>
    some { s with
      parent := { s.parent with attempt := .captured }
      children := enqueuePayloadNormalization s.children rawId fetchLogId parserVersion allowance }

/-- A worker claims a child and begins its call; a call that raises at once fails the child. -/
def BoundedJob.attempt (job : BoundedJob) (s : Jobs) (worker : Nat) (c : Child) (evidenceVersion : String) :
    Jobs :=
  let claimed := fun state => setChild s.children c.id fun c => { c with state := state, attempts := c.attempts + 1 }
  match s.world.db.startCall (job.childRequest c evidenceVersion) with
  | .ok (call, db) =>
    { s with world := s.world.setCall worker (some call) db, children := claimed (.inProgress worker) }
  | .error _ => { s with children := claimed .error }

def BoundedJob.step (job : BoundedJob) (s : Jobs) : JobEvent → Option Jobs
  | .world e => if s.foreign job e then (s.world.step e).map fun t => { s with world := t } else none
  | .claimParent worker =>
    if s.parent.state = .pending ∧ s.processingReady then
      some (s.setParent { s.parent with state := .inProgress worker, attempt := .claimed })
    else none
  | .inspect =>
    -- `processing_failure`: a failed source must not be skipped
    if s.parent.attempt = .claimed then
      some (s.setParent (if s.children.any fun c => c.state = .error ∨ c.state = .skipped then
        { s.parent with state := .error, attempt := .idle } else { s.parent with attempt := .inspected }))
    else none
  | .measure => if s.parent.attempt = .inspected then job.measure s else none
  | .capture rawId fetchLogId parserVersion =>
    match s.parent.attempt with
    | .measured remaining => job.capture s remaining rawId fetchLogId parserVersion
    | _ => none
  | .checkpoint =>
    if s.parent.attempt = .captured then
      some (s.setParent { job.checkpointJob s.parent with attempt := .checkpointed })
    else none
  | .endParent outcome =>
    if s.parent.attempt ≠ .idle ∧ outcome.interruption then
      some (s.setParent { s.parent with state := outcome, attempt := .idle })
    else none
  | .unblockParent =>
    if s.parent.state = .blocked then some (s.setParent { s.parent with state := .pending }) else none
  | .attempt worker childId evidenceVersion =>
    (s.children.find? fun c => c.id = childId && c.state = .pending).bind fun c =>
      if s.world.free worker ∧ ¬ s.onDuty worker then some (job.attempt s worker c evidenceVersion) else none
  | .actChild worker a =>
    if s.onDuty worker then (s.world.step (.act worker a)).map fun t => { s with world := t } else none
  | .returnChild worker =>
    if s.onDuty worker ∧ (s.world.calls worker).any fun c => c.phase = .returned then
      some { s with
        world := s.world.setCall worker none s.world.db
        children := release s.children worker .done }
    else none
  | .endChild worker outcome =>
    if s.onDuty worker ∧ outcome.interruption then
      some { s with
        world := s.world.setCall worker none s.world.db
        children := release s.children worker outcome }
    else none
  | .unblockChild childId =>
    some { s with children := setChild s.children childId fun c =>
      if c.state = .blocked then { c with state := .pending } else c }

def Jobs.initial : Jobs := ⟨World.initial, ⟨.pending, 0, false, .idle⟩, []⟩

/-- A bounded job and its children among any other work. -/
def boundedAcquisition (job : BoundedJob) : System Jobs JobEvent where
  init s := s = Jobs.initial
  step := job.step

/-! ## The resumed attempt -/

/-- The games charged to the job's work budget. -/
def BoundedJob.charged (job : BoundedJob) (s : Jobs) : Nat :=
  (s.world.db.ledger.gamesOf job.workBudgetId).length

/-- The child's stored allowance is no larger than what the job's cap leaves. -/
def BoundedJob.fits (job : BoundedJob) (s : Jobs) (c : Child) : Prop :=
  (job.charged s : Int) + c.maxGames ≤ job.maxGames

/-- A child is attempted again only while its stored allowance fits. -/
def BoundedJob.resumesWithinCap (job : BoundedJob) (s : Jobs) : JobEvent → Prop
  | .attempt _ childId _ => ∀ c ∈ s.children, c.id = childId → c.attempts = 0 ∨ job.fits s c
  | _ => True

instance (job : BoundedJob) (s : Jobs) (e : JobEvent) : Decidable (job.resumesWithinCap s e) :=
  match e with
  | .attempt _ childId _ => inferInstanceAs (Decidable (∀ c ∈ s.children, c.id = childId → c.attempts = 0 ∨
      (job.charged s : Int) + c.maxGames ≤ job.maxGames))
  | .world _ | .claimParent _ | .inspect | .measure | .capture _ _ _ | .checkpoint | .endParent _
  | .unblockParent | .actChild _ _ | .returnChild _ | .endChild _ _ | .unblockChild _ => .isTrue trivial

end ChessCrawl.Normalize
