import ChessCrawl.Normalize.Selection
import ChessCrawl.Lib.Run
import Mathlib.Logic.Function.Basic

/-! `normalize_games_payload` of `normalize/games.py` as a machine: one step for each statement or
transaction that another worker can come between. A call that raises ends where it is, with its last
transaction rolled back; a stop request, a lost lease and a crash end it at any step. -/
namespace ChessCrawl.Normalize
open ChessCrawl.Lib
set_option autoImplicit false

/-! ## Calls -/

/-- The arguments of a call with what its connection and its deployment carry. -/
structure Request where
  rawId : Nat
  crawlRunId : Option Nat
  maxGames : Option Int
  workBudgetId : Option Nat
  fenced : Bool
  parserVersion : String
  evidenceVersion : String
deriving DecidableEq, Repr

/-- Where a call is: after `begin_normalization`, after `processed_items`, at the head of its loop, at a
game that an exhausted allowance does not admit by itself, before the interpretation charge, before the
write with or without prepared evidence, and at its return. -/
inductive Phase
  | begun | checkpointed | scanning | exhausted | admitted
  | paid (prepared : Bool)
  | returned
deriving DecidableEq, Repr

structure Call where
  request : Request
  provider : Provider
  pointers : List String
  observed : Nat
  checkpoints : List (String × Nat)
  retained : List String
  todo : List (String × NormalizedGame)
  gameIds : List Nat
  remaining : Option Int
  phase : Phase
deriving DecidableEq, Repr

/-- The endpoints that list games; a payload of any other one normalizes to nothing. -/
def RawPayload.listsGames (raw : RawPayload) : Bool :=
  match raw.provider, raw.endpointType with
  | .chessCom, .monthlyArchive => true
  | .lichess, .userGamesStream => true
  | .lichess, .game => true
  | _, _ => false

def jsonPointer : EndpointType → Nat → String
  | .monthlyArchive, index => "/games/" ++ toString index
  | .game, _ => ""
  | _, index => "/" ++ toString index

def RawPayload.pointers (raw : RawPayload) : List String :=
  (List.range raw.games.length).map (jsonPointer raw.endpointType)

/-- Everything up to `begin_normalization`. The body never changes, so reading it first is no step. -/
def Db.startCall (db : Db) (q : Request) : Except Failure (Call × Db) :=
  if q.maxGames.any fun m => m < 0 then .error (.valueError "max_games must be nonnegative")
  else
    match db.archive.raw q.rawId with
    | none => .error .missingRow
    | some raw =>
      if raw.listsGames then do
        let (observed, db) ← db.beginNormalization q.rawId q.parserVersion
        .ok (⟨q, raw.provider, raw.pointers, observed, [], [], raw.pointers.zip raw.games, [], q.maxGames,
          .begun⟩, db)
      else .ok (⟨q, raw.provider, [], 0, [], [], [], [], q.maxGames, .returned⟩, db)

/-- Leave the current game. -/
def Call.next (c : Call) : Call := { c with todo := c.todo.tail, phase := .scanning }

/-! ## Admission -/

/-- The bounds of the run, if there is one. -/
def Call.bounds (c : Call) (db : Db) : Except Failure (Option RunGameBounds) :=
  match c.request.crawlRunId with
  | none => .ok none
  | some runId => (db.runGameBounds runId c.provider c.remaining).map some

def admits (bounds : Option RunGameBounds) (g : NormalizedGame) : Bool :=
  bounds.all fun b => b.includes g.endTime g.createdAt

def Call.allowance (c : Call) : Option RunGameBounds → Option Int
  | some b => b.remaining
  | none => c.remaining

/-- `already_selected` of the preflight and `already_acquired` of the write: membership of the run, or
of the work budget where there is no run. -/
def Call.alreadyAcquired (c : Call) (db : Db) (g : NormalizedGame) : Bool :=
  match c.request.crawlRunId with
  | some runId => (db.archive.findExistingGame g).any fun row => db.runHasGame runId row.id
  | none => c.request.workBudgetId.any fun b => db.workBudgetHasGame b g.gameKey

/-- `pointer in checkpoints`, for the calls that may trust it. -/
def Call.reusable (c : Call) (pointer : String) : Option Nat :=
  if c.request.crawlRunId.isSome || c.request.fenced then c.checkpoints.lookup pointer else none

/-! ## The write -/

/-- Unique-game quota, and what it says about a call without a run. -/
def Call.reserveGame (c : Call) (db : Db) (g : NormalizedGame) (now : Int) : Except Failure (Bool × Db) :=
  match c.request.workBudgetId with
  | none => .ok (c.alreadyAcquired db g, db)
  | some budgetId =>
    match db.ledger.reserveGame budgetId g.gameKey now with
    | .error _ => .error .budgetExceeded
    | .ok (isNew, ledger) =>
      .ok (if c.request.crawlRunId.isNone then !isNew else c.alreadyAcquired db g, { db with ledger := ledger })

/-- The game's row: a checkpoint's, unless its source has become current again, or a new write. -/
def Call.storeGame (c : Call) (db : Db) (pointer : String) (g : NormalizedGame) (prepared : Bool) :
    Except Failure (Nat × Db) :=
  let refresh := (db.archive.findExistingGame g).any fun row =>
    db.archive.gameSourceNeedsRefresh row.id c.request.rawId
  match if refresh then none else c.reusable pointer with
  | some gameId => .ok (gameId, db)
  | none =>
    (db.archive.normalizeGame c.request.evidenceVersion c.request.rawId pointer g prepared).map fun r =>
      (r.1, { db with archive := r.2 })

/-- How the locked transaction left one game. -/
inductive Written
  | excluded
  | refreshed (gameId : Nat)
  | acquired (gameId : Nat)
deriving DecidableEq, Repr

/-- The attribution of a game that was not acquired before. -/
def Call.attribute (c : Call) (db : Db) (gameId : Nat) : Except Failure (Written × Db) :=
  match c.request.crawlRunId with
  | none => .ok (.acquired gameId, db)
  | some runId => (db.associateRunGame runId gameId).map fun r => (.acquired gameId, r.2)

/-- The writes of an admitted game. -/
def Call.writeAdmitted (c : Call) (db : Db) (pointer : String) (g : NormalizedGame) (prepared : Bool)
    (now : Int) : Except Failure (Written × Db) := do
  let (acquired, db) ← c.reserveGame db g now
  let (gameId, db) ← c.storeGame db pointer g prepared
  let db := db.markItem ⟨c.request.rawId, c.request.parserVersion, pointer, c.observed, gameId⟩
  if acquired then .ok (.refreshed gameId, db) else c.attribute db gameId

/-- The locked transaction of one game. -/
def Call.writeGame (c : Call) (db : Db) (pointer : String) (g : NormalizedGame) (prepared : Bool)
    (now : Int) : Except Failure (Written × Db) := do
  let bounds ← c.bounds db
  if ¬ admits bounds g then .ok (.excluded, db)
  else if ¬ c.alreadyAcquired db g ∧ c.allowance bounds = some 0 then .ok (.excluded, db)
  else c.writeAdmitted db pointer g prepared now

/-- The call after its transaction has committed. -/
def Call.wrote (c : Call) (pointer : String) : Written → Call
  | .excluded => c.next
  | .refreshed gameId => { c.next with checkpoints := (pointer, gameId) :: c.checkpoints }
  | .acquired gameId =>
    { c.next with
      checkpoints := (pointer, gameId) :: c.checkpoints
      gameIds := c.gameIds ++ [gameId]
      remaining := c.remaining.map (· - 1) }

/-! ## Steps of a call -/

inductive Act
  | checkpoint | retain | preflight | select
  | pay (now : Int)
  | write (now : Int)
  | finish
deriving DecidableEq, Repr

/-- The loop's preflight, which holds no lock. -/
def Call.preflight (c : Call) (db : Db) (g : NormalizedGame) : Option Call :=
  match c.bounds db with
  | .error _ => none
  | .ok bounds =>
    some (if ¬ admits bounds g then c.next
      else if c.allowance bounds = some 0 then { c with phase := .exhausted }
      else { c with phase := .admitted })

/-- The interpretation charge, in a transaction of its own. -/
def Call.pay (c : Call) (db : Db) (pointer : String) (now : Int) : Option Call × Db :=
  let paid : Call := { c with phase := .paid ¬ ((c.reusable pointer).isSome ∨ pointer ∈ c.retained) }
  match c.request.workBudgetId with
  | none => (some paid, db)
  | some budgetId =>
    match db.ledger.reserveNormalization budgetId none 1 now with
    | .error _ => (none, db)
    | .ok (_, ledger) => (some paid, { db with ledger := ledger })

/-- The write with its retry: a revision that vanished after the preflight is parsed, outside the locks. -/
def Call.write (c : Call) (db : Db) (pointer : String) (g : NormalizedGame) (prepared : Bool) (now : Int) :
    Option Call × Db :=
  match c.writeGame db pointer g prepared now with
  | .ok (written, db) => (some (c.wrote pointer written), db)
  | .error .evidencePreparationRequired => (some { c with phase := .paid true }, db)
  | .error _ => (none, db)

/-- One step of a call: `none` where the call is at another place, and a missing call where it raised. -/
def Call.act (c : Call) (db : Db) : Act → Option (Option Call × Db)
  | .checkpoint =>
    if c.phase = .begun then
      some (some { c with
        checkpoints := db.processedItems c.request.rawId c.request.parserVersion c.observed
        phase := .checkpointed }, db)
    else none
  | .retain =>
    if c.phase = .checkpointed then
      some (some { c with
        retained := db.archive.reusableGameSources c.request.evidenceVersion c.request.rawId c.todo
        phase := .scanning }, db)
    else none
  | .preflight =>
    match c.phase, c.todo with
    | .scanning, (_, g) :: _ => some (c.preflight db g, db)
    | _, _ => none
  | .select =>
    match c.phase, c.todo with
    | .exhausted, (_, g) :: _ =>
      some (some (if c.alreadyAcquired db g then { c with phase := .admitted } else c.next), db)
    | _, _ => none
  | .pay now =>
    match c.phase, c.todo with
    | .admitted, (pointer, _) :: _ => some (c.pay db pointer now)
    | _, _ => none
  | .write now =>
    match c.phase, c.todo with
    | .paid prepared, (pointer, g) :: _ => some (c.write db pointer g prepared now)
    | _, _ => none
  | .finish =>
    match c.phase, c.todo with
    | .scanning, [] =>
      some (some { c with phase := .returned },
        db.certify c.request.rawId c.request.parserVersion c.observed c.pointers c.pointers.isEmpty)
    | _, _ => none

/-! ## The system -/

/-- The tables and the call that each worker is in. -/
structure World where
  db : Db
  calls : Nat → Option Call

inductive Event
  | storePayload (raw : RawPayload)
  | observe (log : FetchLog)
  | createRun (run : CrawlRun)
  | upsert (g : NormalizedGame)
  | associate (runId : Nat) (gameIds : List Nat)
  | ledger (e : Budget.Event)
  | start (worker : Nat) (q : Request)
  | act (worker : Nat) (a : Act)
  | abandon (worker : Nat)

def Archive.storePayload (a : Archive) (raw : RawPayload) : Option Archive :=
  if (a.raw raw.id).isNone ∧ raw.status = .pending ∧ raw.parserVersion = none ∧
      (raw.endpointType = .game → raw.games.length = 1) then
    some { a with raws := a.raws ++ [raw] }
  else none

/-- A fetch log of a stored body. Its id is only known to be unused: a row with a smaller id than another
worker's can commit after it. -/
def Archive.observe (a : Archive) (log : FetchLog) : Option Archive :=
  if (a.raw log.rawPayloadId).isSome ∧ 0 < log.id ∧ ∀ l ∈ a.logs, l.id ≠ log.id then
    some { a with logs := a.logs ++ [log] }
  else none

def Db.createRun (db : Db) (run : CrawlRun) : Option Db :=
  if (db.run run.id).isNone then some { db with runs := db.runs ++ [run] } else none

def World.setCall (s : World) (worker : Nat) (c : Option Call) (db : Db) : World :=
  ⟨db, Function.update s.calls worker c⟩

/-- A worker is free before its first call and once a call has returned or raised. -/
def World.free (s : World) (worker : Nat) : Bool := (s.calls worker).all fun c => c.phase = .returned

def World.step (s : World) : Event → Option World
  | .storePayload raw => (s.db.archive.storePayload raw).map fun a => { s with db := { s.db with archive := a } }
  | .observe log => (s.db.archive.observe log).map fun a => { s with db := { s.db with archive := a } }
  | .createRun run => (s.db.createRun run).map fun db => { s with db := db }
  | .upsert g => (s.db.archive.upsertGame g).toOption.map fun r => { s with db := { s.db with archive := r.2 } }
  | .associate runId gameIds => (s.db.associateAll runId gameIds).toOption.map fun db => { s with db := db }
  | .ledger e => (s.db.ledger.step e).toOption.map fun L => { s with db := { s.db with ledger := L } }
  | .start worker q =>
    if s.free worker then
      (s.db.startCall q).toOption.map fun r => s.setCall worker (some r.1) r.2
    else none
  | .act worker a =>
    (s.calls worker).bind fun c => (c.act s.db a).map fun r => s.setCall worker r.1 r.2
  | .abandon worker => some (s.setCall worker none s.db)

def Archive.empty : Archive := ⟨[], [], [], [], [], [], 0, 0⟩

def World.initial : World := ⟨⟨Archive.empty, [], [], [], [], Budget.Ledger.empty⟩, fun _ => none⟩

/-- Any number of workers over one database. -/
def normalizers : System World Event where
  init s := s = World.initial
  step := World.step

end ChessCrawl.Normalize
