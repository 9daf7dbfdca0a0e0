import Mathlib.Data.List.Basic
import Mathlib.Tactic.Common

/-! The archive tables of games: identities and mutable facts of `storage/repository.py`, revisions of
`storage/game_evidence.py`, and `_normalize_game` of `normalize/games.py`, which writes one game of one
stored body. Every function here runs inside the caller's transaction; one that raises leaves the caller
to roll back. Participants, ratings and the parsed evidence rows are not read by anything below. -/
namespace ChessCrawl.Normalize
set_option autoImplicit false

/-! ## Rows -/

inductive Provider
  | chessCom | lichess
deriving DecidableEq, Repr

def Provider.key : Provider → String
  | .chessCom => "chess.com"
  | .lichess => "lichess"

inductive EndpointType
  | monthlyArchive | userGamesStream | game | other
deriving DecidableEq, Repr

inductive Outcome
  | whiteWin | blackWin | draw
deriving DecidableEq, Repr

/-- The columns that every update of a game replaces. -/
structure GameFacts where
  rated : Bool
  outcome : Option Outcome
  isLive : Bool
  statusRaw : Option String
  variant : String
  timeControl : String
deriving DecidableEq, Repr

/-- One game as a parser reads it out of a body. `startIsNull` and `endIsNull` say that the source names
the time and gives it as null; `createdAt` is the source's own integer, in milliseconds. -/
structure NormalizedGame where
  provider : Provider
  providerGameId : Option String
  canonicalUrl : Option String
  contentHash : String
  facts : GameFacts
  startTime : Option Int
  endTime : Option Int
  startIsNull : Bool
  endIsNull : Bool
  createdAt : Option Int
  revisionHash : String
deriving DecidableEq, Repr

structure GameRow where
  id : Nat
  provider : Provider
  providerGameId : Option String
  canonicalUrl : Option String
  contentHash : String
  facts : GameFacts
  createdAt : Option Int
  endedAt : Option Int
  currentVersionId : Option Nat
deriving DecidableEq, Repr

inductive Status
  | pending | parsed | skipped
deriving DecidableEq, Repr

/-- A row of `raw_payloads`; `games` is what the body lists. -/
structure RawPayload where
  id : Nat
  provider : Provider
  endpointType : EndpointType
  games : List NormalizedGame
  fetchedAt : Int
  status : Status
  parserVersion : Option String
deriving DecidableEq, Repr

structure FetchLog where
  id : Nat
  rawPayloadId : Nat
  statusCode : Nat
  attemptedAt : Int
deriving DecidableEq, Repr

structure SourceRecord where
  gameId : Nat
  rawPayloadId : Nat
deriving DecidableEq, Repr

/-- A row of `game_versions`; `createdAt` is the entry of its source metadata. -/
structure GameVersion where
  id : Nat
  gameId : Nat
  contentHash : String
  evidenceVersion : String
  createdAt : Option Int
deriving DecidableEq, Repr

structure VersionSource where
  versionId : Nat
  rawPayloadId : Nat
  jsonPointer : String
deriving DecidableEq, Repr

structure Archive where
  raws : List RawPayload
  logs : List FetchLog
  games : List GameRow
  sourceRecords : List SourceRecord
  versions : List GameVersion
  versionSources : List VersionSource
  gameSeq : Nat
  versionSeq : Nat
deriving Repr

/-- What a write can raise. -/
inductive Failure
  | evidencePreparationRequired
  | uniqueViolation
  | valueError (message : String)
  | missingRow
  | budgetExceeded
deriving DecidableEq, Repr

def Archive.raw (a : Archive) (rawId : Nat) : Option RawPayload :=
  a.raws.find? fun r => r.id = rawId

def Archive.game (a : Archive) (gameId : Nat) : Option GameRow :=
  a.games.find? fun g => g.id = gameId

/-! ## Identity -/

/-- Python's `or` on an optional text: a missing or empty one gives way. -/
def orElseText : Option String → String → String
  | some s, d => if s = "" then d else s
  | none, d => d

def NormalizedGame.gameKey (g : NormalizedGame) : String :=
  g.provider.key ++ "/" ++ orElseText g.providerGameId (orElseText g.canonicalUrl g.contentHash)

/-- `find_existing_game` -/
def Archive.findExistingGame (a : Archive) (g : NormalizedGame) : Option GameRow :=
  let byId := g.providerGameId.bind fun gid =>
    a.games.find? fun row => row.provider = g.provider ∧ row.providerGameId = some gid
  let byUrl := g.canonicalUrl.bind fun url => a.games.find? fun row => row.canonicalUrl = some url
  (byId.or byUrl).or (a.games.find? fun row => row.contentHash = g.contentHash)

/-- The unique indexes of `games`. -/
def GameRow.clashes (g h : GameRow) : Bool :=
  (g.provider = h.provider ∧ g.providerGameId.isSome ∧ g.providerGameId = h.providerGameId) ∨
    (g.canonicalUrl.isSome ∧ g.canonicalUrl = h.canonicalUrl) ∨ g.contentHash = h.contentHash

/-- `"ended_at" in _supplied_nullable_facts(game)`: a live game cannot keep an earlier end. -/
def NormalizedGame.replacesEndedAt (g : NormalizedGame) : Bool := g.endIsNull || g.facts.isLive

def NormalizedGame.replacesCreatedAt (g : NormalizedGame) : Bool := g.startIsNull

/-- `CASE WHEN replace THEN new ELSE COALESCE(new, old) END` -/
def mergeFact {α : Type} (replace : Bool) (new old : Option α) : Option α :=
  if replace then new else new.or old

/-- The row after `UPDATE games`. -/
def GameRow.merge (row : GameRow) (g : NormalizedGame) : GameRow :=
  { row with
    providerGameId := g.providerGameId.or row.providerGameId
    canonicalUrl := g.canonicalUrl.or row.canonicalUrl
    contentHash := g.contentHash
    facts := g.facts
    createdAt := mergeFact g.replacesCreatedAt g.startTime row.createdAt
    endedAt := mergeFact g.replacesEndedAt g.endTime row.endedAt }

def Archive.replaceGame (a : Archive) (row : GameRow) : Archive :=
  { a with games := a.games.map fun g => if g.id = row.id then row else g }

/-- `upsert_game`: an insert cannot clash, since no row has any of the three identities. -/
def Archive.upsertGame (a : Archive) (g : NormalizedGame) : Except Failure (Nat × Archive) :=
  match a.findExistingGame g with
  | none =>
    let id := a.gameSeq + 1
    .ok (id, { a with
      games := a.games ++ [⟨id, g.provider, g.providerGameId, g.canonicalUrl, g.contentHash, g.facts,
        g.startTime, g.endTime, none⟩]
      gameSeq := id })
  | some row =>
    let merged := row.merge g
    if a.games.any fun other => other.id ≠ row.id && other.clashes merged then .error .uniqueViolation
    else .ok (row.id, a.replaceGame merged)

/-! ## Sightings -/

/-- A row of `raw_payloads LEFT JOIN fetch_logs`, for a version where one is being chosen. -/
structure Sighting where
  seenAt : Int
  log : Option Nat
  rawId : Nat
  version : Nat
deriving DecidableEq, Repr

/-- `f.id DESC NULLS LAST` -/
def logAfter : Option Nat → Option Nat → Bool
  | some m, some n => m > n
  | some _, none => true
  | none, _ => false

def Sighting.after (s t : Sighting) : Bool :=
  s.seenAt > t.seenAt || (s.seenAt = t.seenAt &&
    (logAfter s.log t.log || (s.log = t.log &&
      (s.rawId > t.rawId || (s.rawId = t.rawId && s.version > t.version)))))

/-- `ORDER BY … DESC LIMIT 1` -/
def latestSighting : List Sighting → Option Sighting
  | [] => none
  | s :: rest =>
    match latestSighting rest with
    | some t => if t.after s then some t else some s
    | none => some s

/-- `status_code IN (200,304)` -/
def FetchLog.observation (l : FetchLog) : Bool := l.statusCode = 200 || l.statusCode = 304

def Archive.sightings (a : Archive) (version : Nat) (raw : RawPayload) : List Sighting :=
  match a.logs.filter fun l => l.rawPayloadId = raw.id && l.observation with
  | [] => [⟨raw.fetchedAt, none, raw.id, version⟩]
  | logs => logs.map fun l => ⟨l.attemptedAt, some l.id, raw.id, version⟩

/-- `is_latest_game_source` -/
def Archive.isLatestGameSource (a : Archive) (gameId rawId : Nat) : Bool :=
  let sources := a.raws.filter fun r =>
    r.id = rawId || a.sourceRecords.any fun s => s.gameId = gameId && s.rawPayloadId = r.id
  match latestSighting (sources.flatMap (a.sightings 0)) with
  | some s => s.rawId = rawId
  | none => false

/-- `game_source_needs_refresh` -/
def Archive.gameSourceNeedsRefresh (a : Archive) (gameId rawId : Nat) : Bool :=
  let current := a.games.any fun g => g.id = gameId && a.versionSources.any fun s =>
    g.currentVersionId = some s.versionId && s.rawPayloadId = rawId
  !current && a.isLatestGameSource gameId rawId

/-! ## Evidence -/

/-- `reusable_game_sources` -/
def Archive.reusableGameSources (a : Archive) (evidenceVersion : String) (rawId : Nat)
    (games : List (String × NormalizedGame)) : List String :=
  let reusable := fun (entry : String × NormalizedGame) => a.versionSources.any fun s =>
    s.rawPayloadId = rawId && s.jsonPointer = entry.1 && a.versions.any fun v =>
      v.id = s.versionId && v.evidenceVersion = evidenceVersion && v.contentHash = entry.2.revisionHash
  (games.filter reusable).map Prod.fst

/-- The choice of `current_version_id`. -/
def Archive.currentVersion (a : Archive) (gameId : Nat) : Option Nat :=
  let versions := a.versions.filter fun v => v.gameId = gameId
  let sources := versions.flatMap fun v => a.versionSources.filter fun s => s.versionId = v.id
  let seen := sources.flatMap fun s =>
    (a.raws.filter fun r => r.id = s.rawPayloadId).flatMap (a.sightings s.versionId)
  (latestSighting seen).map Sighting.version

def Archive.setCurrentVersion (a : Archive) (gameId : Nat) : Archive :=
  { a with games := a.games.map fun g =>
      if g.id = gameId then { g with currentVersionId := a.currentVersion gameId } else g }

def Archive.addVersionSource (a : Archive) (source : VersionSource) : Archive :=
  { a with versionSources := if source ∈ a.versionSources then a.versionSources else a.versionSources ++ [source] }

/-- `store_game_evidence`; `evidence` says that it has been prepared. -/
def Archive.storeGameEvidence (a : Archive) (evidenceVersion : String) (gameId rawId : Nat) (pointer : String)
    (g : NormalizedGame) (evidence : Bool) : Except Failure Archive :=
  match a.versions.find? fun v =>
      v.gameId = gameId && v.contentHash = g.revisionHash && v.evidenceVersion = evidenceVersion with
  | some v => .ok ((a.addVersionSource ⟨v.id, rawId, pointer⟩).setCurrentVersion gameId)
  | none =>
    if evidence then
      let id := a.versionSeq + 1
      let stored : Archive := { a with
        versions := a.versions ++ [⟨id, gameId, g.revisionHash, evidenceVersion, g.createdAt⟩]
        versionSeq := id }
      .ok ((stored.addVersionSource ⟨id, rawId, pointer⟩).setCurrentVersion gameId)
    else .error .evidencePreparationRequired

/-- `insert_source_record` for a game -/
def Archive.insertSourceRecord (a : Archive) (gameId rawId : Nat) : Archive :=
  let record : SourceRecord := ⟨gameId, rawId⟩
  { a with sourceRecords := if record ∈ a.sourceRecords then a.sourceRecords else a.sourceRecords ++ [record] }

/-- The choice between `upsert_game` and keeping facts that a newer source supplied. -/
def Archive.writeFacts (a : Archive) (rawId : Nat) (g : NormalizedGame) : Except Failure (Nat × Archive) :=
  match a.findExistingGame g with
  | some row => if a.isLatestGameSource row.id rawId then a.upsertGame g else .ok (row.id, a)
  | none => a.upsertGame g

/-- `_normalize_game` -/
def Archive.normalizeGame (a : Archive) (evidenceVersion : String) (rawId : Nat) (pointer : String)
    (g : NormalizedGame) (evidence : Bool) : Except Failure (Nat × Archive) := do
  let (gameId, a) ← a.writeFacts rawId g
  let a ← (a.insertSourceRecord gameId rawId).storeGameEvidence evidenceVersion gameId rawId pointer g evidence
  .ok (gameId, a)

end ChessCrawl.Normalize
