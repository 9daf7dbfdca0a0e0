import ChessCrawl.Normalize.Archive
import ChessCrawl.Budget.WorkBudgets

/-! Checkpoints of a payload's normalization, `storage/normalization.py`, and the attribution of games to
bounded runs, `storage/acquisition.py`. The payload lock and the run lock that these functions take make
each of them atomic against the others on the same payload or run. -/
namespace ChessCrawl.Normalize
set_option autoImplicit false

/-! ## Tables -/

/-- A row of `payload_normalization_runs`. -/
structure PayloadRun where
  rawPayloadId : Nat
  parserVersion : String
  observationId : Nat
  complete : Bool
deriving DecidableEq, Repr

structure NormalizationItem where
  rawPayloadId : Nat
  parserVersion : String
  jsonPointer : String
  observationId : Nat
  gameId : Nat
deriving DecidableEq, Repr

/-- `params_json` of a run; `collection` says that its mode is not the bounded one. -/
structure RunParams where
  collection : Bool
  maxGames : Option Int
  since : Option Int
  stop : Option Int
  sinceMs : Option Int
  stopMs : Option Int
deriving DecidableEq, Repr

structure CrawlRun where
  id : Nat
  provider : Provider
  params : RunParams
deriving DecidableEq, Repr

structure RunGame where
  crawlRunId : Nat
  gameId : Nat
deriving DecidableEq, Repr

structure Db where
  archive : Archive
  progress : List PayloadRun
  items : List NormalizationItem
  runs : List CrawlRun
  runGames : List RunGame
  ledger : Budget.Ledger

/-! ## Checkpoints -/

/-- `observation_id` -/
def Archive.observationId (a : Archive) (rawId : Nat) : Nat :=
  ((a.logs.filter fun l => l.rawPayloadId = rawId && l.observation).map FetchLog.id).foldr max 0

/-- The reset of `begin_normalization`. -/
def Db.resetNormalization (db : Db) (rawId observed : Nat) (parserVersion : String) : Db :=
  let started : PayloadRun := ⟨rawId, parserVersion, observed, false⟩
  { db with
    items := db.items.filter fun i => ¬ (i.rawPayloadId = rawId ∧ i.parserVersion = parserVersion)
    progress := (db.progress.filter fun p => ¬ (p.rawPayloadId = rawId ∧ p.parserVersion = parserVersion)) ++ [started]
    archive := { db.archive with raws := db.archive.raws.map fun r =>
      if r.id = rawId then { r with status := .pending } else r } }

/-- Whether earlier checkpoints are worthless: no attempt, another observation, or a completed attempt
whose parser is no longer the payload's. -/
def Db.needsReset (db : Db) (raw : RawPayload) (observed : Nat) (parserVersion : String) : Bool :=
  match db.progress.find? fun p => p.rawPayloadId = raw.id ∧ p.parserVersion = parserVersion with
  | none => true
  | some p => p.observationId ≠ observed || (p.complete && raw.parserVersion ≠ some parserVersion)

/-- `begin_normalization` -/
def Db.beginNormalization (db : Db) (rawId : Nat) (parserVersion : String) : Except Failure (Nat × Db) :=
  match db.archive.raw rawId with
  | none => .error .missingRow
  | some raw =>
    let observed := db.archive.observationId rawId
    .ok (observed, if db.needsReset raw observed parserVersion then
      db.resetNormalization rawId observed parserVersion else db)

/-- `processed_items` -/
def Db.processedItems (db : Db) (rawId : Nat) (parserVersion : String) (observed : Nat) : List (String × Nat) :=
  (db.items.filter fun i =>
    i.rawPayloadId = rawId ∧ i.parserVersion = parserVersion ∧ i.observationId = observed).map
      fun i => (i.jsonPointer, i.gameId)

/-- The primary key of `normalization_items`. -/
def NormalizationItem.key (i : NormalizationItem) : Nat × String × String :=
  (i.rawPayloadId, i.parserVersion, i.jsonPointer)

/-- `mark_item`: an item of a later observation stays. -/
def Db.markItem (db : Db) (item : NormalizationItem) : Db :=
  { db with items :=
      if db.items.any fun i => i.key = item.key then
        db.items.map fun i => if i.key = item.key ∧ item.observationId ≥ i.observationId then item else i
      else db.items ++ [item] }

/-- `set(pointers) <= completed` -/
def covers (pointers : List String) (items : List (String × Nat)) : Bool :=
  pointers.all fun p => items.any fun i => i.1 = p

/-- `finish_normalization` -/
def Db.finishNormalization (db : Db) (rawId : Nat) (parserVersion : String) (observed : Nat)
    (pointers : List String) : Bool × Db :=
  if db.archive.observationId rawId = observed ∧ covers pointers (db.processedItems rawId parserVersion observed) then
    (true, { db with progress := db.progress.map fun p =>
      if p.rawPayloadId = rawId ∧ p.parserVersion = parserVersion ∧ p.observationId = observed then
        { p with complete := true } else p })
  else (false, db)

/-- `update_raw_payload_status` -/
def Archive.updateRawPayloadStatus (a : Archive) (rawId : Nat) (status : Status) (parserVersion : String) :
    Archive :=
  { a with raws := a.raws.map fun r =>
      if r.id = rawId then { r with status := status, parserVersion := some parserVersion } else r }

/-- The closing transaction of `normalize_games_payload`; `empty` says that the body lists no game. -/
def Db.certify (db : Db) (rawId : Nat) (parserVersion : String) (observed : Nat) (pointers : List String)
    (empty : Bool) : Db :=
  match db.finishNormalization rawId parserVersion observed pointers with
  | (true, db) => { db with archive :=
      db.archive.updateRawPayloadStatus rawId (if empty then .skipped else .parsed) parserVersion }
  | (false, db) => db

/-! ## Bounded runs -/

structure RunGameBounds where
  remaining : Option Int
  since : Option Int
  stop : Option Int
  createdSinceMs : Option Int
  createdStopMs : Option Int
deriving DecidableEq, Repr

/-- A half-open window whose ends may be missing. -/
def within (since stop : Option Int) (t : Int) : Bool :=
  (since.all fun s => decide (s ≤ t)) && stop.all fun e => decide (t < e)

/-- `RunGameBounds.includes` -/
def RunGameBounds.includes (b : RunGameBounds) (endedAt createdMs : Option Int) : Bool :=
  let created := if b.createdSinceMs.isSome || b.createdStopMs.isSome then
    createdMs.any (within b.createdSinceMs b.createdStopMs) else true
  created && (if b.since.isNone && b.stop.isNone then true else endedAt.any (within b.since b.stop))

def Db.run (db : Db) (runId : Nat) : Option CrawlRun := db.runs.find? fun r => r.id = runId

/-- The rows of `run_games` of one run. -/
def Db.members (db : Db) (runId : Nat) : List RunGame := db.runGames.filter fun m => m.crawlRunId = runId

/-- `run_has_game` -/
def Db.runHasGame (db : Db) (runId gameId : Nat) : Bool := ⟨runId, gameId⟩ ∈ db.runGames

/-- The capacity that a run leaves to a request. -/
def RunParams.remaining (p : RunParams) (acquired : Nat) (requested : Option Int) : Option Int :=
  match if p.collection then none else p.maxGames with
  | none => requested
  | some configured =>
    let available := max 0 (configured - acquired)
    some (match requested with
      | none => available
      | some r => min r available)

def RunParams.createdBound (p : RunParams) (provider : Provider) (ms seconds : Option Int) : Option Int :=
  if p.collection && provider = .lichess then ms.or (seconds.map (· * 1000)) else none

/-- `run_game_bounds` -/
def Db.runGameBounds (db : Db) (runId : Nat) (provider : Provider) (requested : Option Int) :
    Except Failure RunGameBounds :=
  match db.run runId with
  | none => .error (.valueError "Crawl run not found")
  | some run =>
    if run.provider ≠ provider then
      .error (.valueError "A crawl run cannot acquire games from a different provider")
    else
      let p := run.params
      .ok ⟨p.remaining (db.members runId).length requested,
        if p.collection then none else p.since, if p.collection then none else p.stop,
        p.createdBound provider p.sinceMs p.since, p.createdBound provider p.stopMs p.stop⟩

/-- `createdAt` of the metadata of the game's current version. -/
def Archive.createdMs (a : Archive) (g : GameRow) : Option Int :=
  (a.versions.find? fun v => g.currentVersionId = some v.id).bind GameVersion.createdAt

/-- `associate_run_game` -/
def Db.associateRunGame (db : Db) (runId gameId : Nat) : Except Failure (Bool × Db) :=
  match db.archive.game gameId with
  | none => .error (.valueError "Game not found")
  | some g =>
    if db.runHasGame runId gameId then .ok (false, db)
    else do
      let bounds ← db.runGameBounds runId g.provider none
      if ¬ bounds.includes g.endedAt (db.archive.createdMs g) then
        .error (.valueError "The game does not have an end time within the crawl run's date window")
      else if bounds.remaining = some 0 then
        .error (.valueError "The crawl run's game limit has been reached")
      else .ok (true, { db with runGames := db.runGames ++ [⟨runId, gameId⟩] })

/-- The games of one injected fetch, attributed in one transaction. -/
def Db.associateAll (db : Db) (runId : Nat) : List Nat → Except Failure Db
  | [] => .ok db
  | gameId :: rest => do
    let (_, db) ← db.associateRunGame runId gameId
    db.associateAll runId rest

/-- `work_budget_has_game` -/
def Db.workBudgetHasGame (db : Db) (budgetId : Nat) (gameKey : String) : Bool :=
  db.ledger.gameItems.any fun i => decide (i.budgetId = budgetId ∧ i.gameKey = gameKey)

end ChessCrawl.Normalize
