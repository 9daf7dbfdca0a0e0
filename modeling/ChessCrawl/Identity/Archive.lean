import ChessCrawl.Lib.Upsert

/-! Provider accounts and the evidence that hangs on them: `_upsert_provider_user_locked`,
`_merge_user_placeholder`, `_merge_user_edges` and `_merge_source_records` of `storage/repository.py`, with
`merge_player_evidence` and `record_alias` of `storage/player_profiles.py`. A call runs in one transaction under
the identity locks, so it is one step on the tables; `normalize` is `username.strip().lower()`. -/
namespace ChessCrawl.Identity
open ChessCrawl.Lib
set_option autoImplicit false

/-! ## Tables -/

structure ProviderUser where
  id : Nat
  provider : String
  providerUserId : Option String
  usernameNormalized : String
  displayUsername : String
  accountStatus : Option String
  title : Option String
  firstSeenAt : Option Int
  updatedAt : Option Int
deriving DecidableEq, Repr

inductive Color
  | white | black
deriving DecidableEq, Repr

structure GameParticipant where
  id : Nat
  gameId : Nat
  color : Color
  providerUserId : Option Nat
  usernameNormalized : Option String
deriving DecidableEq, Repr

structure Game where
  id : Nat
  provider : String
deriving DecidableEq, Repr

structure RawPayload where
  id : Nat
  fetchedAt : Int
deriving DecidableEq, Repr

structure FetchLog where
  id : Nat
  providerUserId : Option Nat
  rawPayloadId : Option Nat
  statusCode : Option Int
  attemptedAt : Int
deriving DecidableEq, Repr

structure Alias where
  providerUserId : Nat
  usernameNormalized : String
  displayUsername : String
  firstSeenAt : Int
  lastSeenAt : Int
  rawPayloadId : Option Nat
deriving DecidableEq, Repr

structure UserObservation where
  id : Nat
  providerUserId : Nat
  snapshotId : Nat
  rawPayloadId : Nat
  fetchLogId : Option Nat
  observationKey : String
  capturedAt : Int
  endpointType : String
deriving DecidableEq, Repr

/-- The columns of a profile snapshot that a later capture replaces together. -/
structure SnapshotFacts where
  capturedAt : Int
  observedUsername : String
  status : Option String
  title : Option String
  country : Option String
  followers : Option Int
  patron : Option Int
  countAll : Option Int
  countRated : Option Int
  countWin : Option Int
  countLoss : Option Int
  countDraw : Option Int
  perfsOrStats : Option String
  rawPayloadId : Nat
  nativeData : Option String
  createdAt : Option Int
  lastSeenAt : Option Int
  realName : Option String
  location : Option String
  avatarUrl : Option String
  profileUrl : Option String
  isVerified : Option Bool
  isStreamer : Option Bool
  fideRating : Option Int
deriving DecidableEq, Repr

structure UserSnapshot where
  id : Nat
  providerUserId : Nat
  contentHash : String
  facts : SnapshotFacts
deriving DecidableEq, Repr

/-- The rating columns are only ever copied together. -/
structure RatingRecord where
  snapshotId : Nat
  performance : String
  columns : List (Option String)
  nativeData : String
deriving DecidableEq, Repr

structure Acquisition where
  providerUserId : Nat
  provider : String
  usernameNormalized : String
  ownerScope : String
  resourceKey : String
  parameters : String
  parametersHash : String
  sourceKey : String
  attemptedAt : Int
  statusCode : Int
  rawPayloadId : Option Nat
deriving DecidableEq, Repr

structure ResourceSnapshot where
  id : Nat
  providerUserId : Nat
  ownerScope : String
  resourceKey : String
  parameters : String
  parametersHash : String
  contentHash : String
  nativeData : String
  coverageStatus : String
  coverageNote : Option String
  parserVersion : String
deriving DecidableEq, Repr

structure ResourceObservation where
  id : Nat
  snapshotId : Nat
  rawPayloadId : Nat
  fetchLogId : Option Nat
  observationKey : String
  capturedAt : Int
deriving DecidableEq, Repr

structure RatingHistoryPoint where
  snapshotId : Nat
  perfIndex : Int
  pointIndex : Int
  performance : String
  ratingDate : String
  rating : Int
  sourcePointer : String
deriving DecidableEq, Repr

inductive EntityType
  | user | userSnapshot | userResource
  | other (name : String)
deriving DecidableEq, Repr

structure SourceRecord where
  id : Nat
  entityType : EntityType
  entityId : Nat
  provider : String
  endpointType : String
  sourceKey : Option String
  jsonPointer : Option String
  rawPayloadId : Nat
  firstSeenAt : Int
deriving DecidableEq, Repr

structure DiscoveryEdge where
  id : Nat
  crawlRunId : Option Nat
  provider : String
  fromUserId : Nat
  toUserId : Nat
  viaGameId : Option Nat
  gameCount : Int
  depth : Int
  edgeKind : String
  firstSeenAt : Int
deriving DecidableEq, Repr

structure RunEdge where
  crawlRunId : Nat
  discoveryEdgeId : Nat
deriving DecidableEq, Repr

/-- `run_counters`: what it counts in `discovery_jobs`, and the run's edges. -/
structure Counters where
  jobs : List (String × Nat)
  edges : Nat
deriving DecidableEq, Repr

structure CrawlRun where
  id : Nat
  status : String
  counters : Option Counters
  updatedAt : Int
  finishedAt : Option Int
  revision : Nat
deriving DecidableEq, Repr

structure Archive where
  users : List ProviderUser
  userSeq : Nat
  participants : List GameParticipant
  games : List Game
  rawPayloads : List RawPayload
  fetchLogs : List FetchLog
  aliases : List Alias
  observations : List UserObservation
  snapshots : List UserSnapshot
  ratingRecords : List RatingRecord
  acquisitions : List Acquisition
  resourceSnapshots : List ResourceSnapshot
  resourceObservations : List ResourceObservation
  ratingPoints : List RatingHistoryPoint
  sourceRecords : List SourceRecord
  sourceSeq : Nat
  edges : List DiscoveryEdge
  runEdges : List RunEdge
  runs : List CrawlRun
  jobCounters : Nat → List (String × Nat)

/-! ## Expressions of the queries -/

/-- `LEAST` and `GREATEST` pass over `NULL`. -/
def least : Option Int → Option Int → Option Int
  | some a, some b => some (min a b)
  | some a, none => some a
  | none, b => b

def greatest : Option Int → Option Int → Option Int
  | some a, some b => some (max a b)
  | some a, none => some a
  | none, b => b

/-! ## Aliases -/

def Alias.key (a : Alias) : Nat × String := (a.providerUserId, a.usernameNormalized)

/-- `ON CONFLICT` of `record_alias`: the later spelling wins. -/
def Alias.observe (old new : Alias) : Alias :=
  { old with
    displayUsername := if new.lastSeenAt ≥ old.lastSeenAt then new.displayUsername else old.displayUsername
    firstSeenAt := min old.firstSeenAt new.firstSeenAt
    lastSeenAt := max old.lastSeenAt new.lastSeenAt
    rawPayloadId := if new.lastSeenAt ≥ old.lastSeenAt then new.rawPayloadId else old.rawPayloadId }

def ProviderUser.seen (u : ProviderUser) (first last : Option Int) : ProviderUser :=
  { u with firstSeenAt := least u.firstSeenAt first, updatedAt := greatest u.updatedAt last }

/-- `UPDATE provider_users ... WHERE id = ...` -/
def Archive.updateUser (db : Archive) (id : Nat) (f : ProviderUser → ProviderUser) : Archive :=
  { db with users := db.users.map fun u => if u.id = id then f u else u }

section Names
variable (normalize : String → String)

/-- `record_alias` without `first_observed_at` -/
def Archive.recordAlias (db : Archive) (userId : Nat) (username : String) (observedAt : Int)
    (rawPayloadId : Option Nat) : Archive :=
  { db with
    aliases := upsert Alias.key Alias.observe db.aliases
      ⟨userId, normalize username, username, observedAt, observedAt, rawPayloadId⟩ }.updateUser userId
    fun u => u.seen (some observedAt) (some observedAt)

/-! ## Merging the evidence of a placeholder -/

/-- Both ends of an alias's observations. -/
def Archive.mergeAlias (survivor : Nat) (db : Archive) (a : Alias) : Archive :=
  (db.recordAlias normalize survivor a.displayUsername a.firstSeenAt a.rawPayloadId).recordAlias normalize survivor
    a.displayUsername a.lastSeenAt a.rawPayloadId

def SourceRecord.key (s : SourceRecord) : EntityType × Nat × Nat := (s.entityType, s.entityId, s.rawPayloadId)

def SourceRecord.absorb (old new : SourceRecord) : SourceRecord :=
  { old with
    firstSeenAt := min old.firstSeenAt new.firstSeenAt
    sourceKey := old.sourceKey.or new.sourceKey
    jsonPointer := old.jsonPointer.or new.jsonPointer }

/-- The rows of the `SELECT`, each with an identity of its own. -/
def renumbered (seq : Nat) (entityId : Nat) (rows : List SourceRecord) : List SourceRecord :=
  rows.mapIdx fun n s => { s with id := seq + n + 1, entityId := entityId }

/-- `_merge_source_records` -/
def Archive.mergeSourceRecords (db : Archive) (entityType : EntityType) (survivor replaced : Nat) : Archive :=
  let rows := db.sourceRecords.filter fun s => s.entityType = entityType ∧ s.entityId = replaced
  { db with
    sourceRecords := (upsertAll SourceRecord.key SourceRecord.absorb db.sourceRecords
      (renumbered db.sourceSeq survivor rows)).filter fun s => ¬ (s.entityType = entityType ∧ s.entityId = replaced)
    sourceSeq := db.sourceSeq + rows.length }

def Acquisition.key (a : Acquisition) : Nat × String × String × String :=
  (a.providerUserId, a.ownerScope, a.resourceKey, a.parametersHash)

/-- `ON CONFLICT`: the later attempt wins, the incoming one on a tie. -/
def Acquisition.attempt (old new : Acquisition) : Acquisition :=
  if new.attemptedAt ≥ old.attemptedAt then
    { old with
      provider := new.provider
      usernameNormalized := new.usernameNormalized
      sourceKey := new.sourceKey
      attemptedAt := new.attemptedAt
      statusCode := new.statusCode
      rawPayloadId := new.rawPayloadId }
  else old

/-- One resource snapshot of the placeholder. -/
def Archive.mergeResourceSnapshot (survivor : Nat) (db : Archive) (snapshot : ResourceSnapshot) : Archive :=
  match db.resourceSnapshots.find? fun m => m.providerUserId = survivor ∧ m.ownerScope = snapshot.ownerScope ∧
      m.resourceKey = snapshot.resourceKey ∧ m.parametersHash = snapshot.parametersHash ∧
      m.contentHash = snapshot.contentHash with
  | none =>
    { db with resourceSnapshots := db.resourceSnapshots.map fun r =>
        if r.id = snapshot.id then { r with providerUserId := survivor } else r }
  | some matching =>
    let db : Archive := { db with
      resourceObservations := db.resourceObservations.map fun o =>
        if o.snapshotId = snapshot.id then { o with snapshotId := matching.id } else o }
    let db : Archive := db.mergeSourceRecords .userResource matching.id snapshot.id
    { db with
      ratingPoints := db.ratingPoints.filter fun p => p.snapshotId ≠ snapshot.id
      resourceSnapshots := db.resourceSnapshots.filter fun r => r.id ≠ snapshot.id }

/-- `merge_player_evidence` -/
def Archive.mergePlayerEvidence (db : Archive) (survivor replaced : Nat) : Archive :=
  let db : Archive := { db with
    fetchLogs := db.fetchLogs.map fun f =>
      if f.providerUserId = some replaced then { f with providerUserId := some survivor } else f }
  let db : Archive := (db.aliases.filter fun a => a.providerUserId = replaced).foldl (Archive.mergeAlias normalize survivor) db
  let db : Archive := { db with aliases := db.aliases.filter fun a => a.providerUserId ≠ replaced }
  let db : Archive := { db with
    observations := db.observations.map fun o =>
      if o.providerUserId = replaced then { o with providerUserId := survivor } else o }
  let db : Archive := { db with
    acquisitions := (upsertAll Acquisition.key Acquisition.attempt db.acquisitions
      ((db.acquisitions.filter fun a => a.providerUserId = replaced).map fun a =>
        { a with providerUserId := survivor })).filter fun a => a.providerUserId ≠ replaced }
  (db.resourceSnapshots.filter fun s => s.providerUserId = replaced).foldl
    (Archive.mergeResourceSnapshot survivor) db

def RatingRecord.key (r : RatingRecord) : Nat × String := (r.snapshotId, r.performance)

/-- Of equal contents the facts of the later capture stay. -/
def Archive.keepLaterFacts (db : Archive) (matching snapshot : UserSnapshot) : Archive :=
  if snapshot.facts.capturedAt ≥ matching.facts.capturedAt then
    { db with snapshots := db.snapshots.map fun s =>
        if s.id = matching.id then { s with facts := snapshot.facts } else s }
  else db

/-- One profile snapshot of the placeholder. -/
def Archive.mergeSnapshot (survivor : Nat) (db : Archive) (snapshot : UserSnapshot) : Archive :=
  match db.snapshots.find? fun m => m.providerUserId = survivor ∧ m.contentHash = snapshot.contentHash with
  | none =>
    { db with snapshots := db.snapshots.map fun s =>
        if s.id = snapshot.id then { s with providerUserId := survivor } else s }
  | some matching =>
    let db :=
      if snapshot.facts.capturedAt ≥ matching.facts.capturedAt then
        { db with snapshots := db.snapshots.map fun s =>
            if s.id = matching.id then { s with facts := snapshot.facts } else s }
      else db
    let db : Archive := db.mergeSourceRecords .userSnapshot matching.id snapshot.id
    { db with
      observations := db.observations.map fun o =>
        if o.snapshotId = snapshot.id then { o with snapshotId := matching.id } else o
      ratingRecords := (upsertAll RatingRecord.key (fun old _ => old) db.ratingRecords
        ((db.ratingRecords.filter fun r => r.snapshotId = snapshot.id).map fun r =>
          { r with snapshotId := matching.id })).filter fun r => r.snapshotId ≠ snapshot.id
      snapshots := db.snapshots.filter fun s => s.id ≠ snapshot.id }

/-! ## Edges -/

def renamed (survivor replaced user : Nat) : Nat := if user = replaced then survivor else user

/-- The games two accounts have played against each other. -/
def Archive.knownGames (db : Archive) (source target : Nat) (provider : String) : Int :=
  ((db.games.filter fun g => g.provider = provider).filter fun g =>
    db.participants.any fun a => a.gameId = g.id ∧ a.providerUserId = some source ∧
      db.participants.any fun b => b.gameId = g.id ∧ b.color ≠ a.color ∧ b.providerUserId = some target).length

/-- The surviving edge: its provenance is that of the earlier one, or of the later where that has none. -/
def DiscoveryEdge.absorb (knownGames : Int) (matching edge : DiscoveryEdge) : DiscoveryEdge :=
  let edgeFirst := decide (edge.firstSeenAt < matching.firstSeenAt ∨
    edge.firstSeenAt = matching.firstSeenAt ∧ edge.id < matching.id)
  let (earlier, later) := if edgeFirst then (edge, matching) else (matching, edge)
  { matching with
    gameCount := max (max matching.gameCount edge.gameCount) knownGames
    depth := min matching.depth edge.depth
    firstSeenAt := min matching.firstSeenAt edge.firstSeenAt
    crawlRunId := earlier.crawlRunId.or later.crawlRunId
    viaGameId := earlier.viaGameId.or later.viaGameId }

/-- One edge of the placeholder, with the runs whose graph changes. -/
def Archive.mergeEdge (survivor replaced : Nat) (state : Archive × List Nat) (edge : DiscoveryEdge) :
    Archive × List Nat :=
  let (db, affected) := state
  let source := renamed survivor replaced edge.fromUserId
  let target := renamed survivor replaced edge.toUserId
  match db.edges.find? fun m => m.provider = edge.provider ∧ m.fromUserId = source ∧ m.toUserId = target ∧
      m.id ≠ edge.id with
  | none =>
    ({ db with edges := db.edges.map fun e =>
        if e.id = edge.id then { e with fromUserId := source, toUserId := target } else e }, affected)
  | some matching =>
    let runs := (db.runEdges.filter fun r => r.discoveryEdgeId = edge.id ∨ r.discoveryEdgeId = matching.id).map
      RunEdge.crawlRunId
    let knownGames := db.knownGames source target edge.provider
    ({ db with
        edges := (db.edges.map fun e => if e.id = matching.id then e.absorb knownGames edge else e).filter
          fun e => e.id ≠ edge.id
        runEdges := (upsertAll (fun r => r) (fun old _ => old) db.runEdges
          ((db.runEdges.filter fun r => r.discoveryEdgeId = edge.id).map fun r =>
            { r with discoveryEdgeId := matching.id })).filter fun r => r.discoveryEdgeId ≠ edge.id },
      affected ++ runs)

/-- `_merge_user_edges` -/
def Archive.mergeUserEdges (db : Archive) (survivor replaced : Nat) : Archive × List Nat :=
  let edges := (db.edges.filter fun e => e.fromUserId = replaced ∨ e.toUserId = replaced).mergeSort
    fun a b => decide (a.id ≤ b.id)
  edges.foldl (Archive.mergeEdge survivor replaced) (db, [])

/-- The trigger `set_run_revision` on an update -/
def CrawlRun.setRevision (old new : CrawlRun) : CrawlRun :=
  { new with
    revision := if (new.status, new.counters, new.finishedAt) ≠ (old.status, old.counters, old.finishedAt) then
      old.revision + 1 else old.revision }

/-- `update_crawl_run` with the counters of `run_counters` -/
def Archive.refreshCounters (now : Int) (db : Archive) (runId : Nat) : Archive :=
  let edges := (db.runEdges.filter fun r => r.crawlRunId = runId).length
  { db with runs := db.runs.map fun r =>
      if r.id = runId then
        r.setRevision { r with counters := some ⟨db.jobCounters runId, edges⟩, updatedAt := now }
      else r }

/-- `_merge_user_placeholder` -/
def Archive.mergeUserPlaceholder (db : Archive) (survivor replaced : Nat) (now : Int) : Archive :=
  let db : Archive := { db with
    participants := db.participants.map fun p =>
      if p.providerUserId = some replaced then { p with providerUserId := some survivor } else p }
  let db : Archive := db.mergePlayerEvidence normalize survivor replaced
  let db : Archive := (db.snapshots.filter fun s => s.providerUserId = replaced).foldl (Archive.mergeSnapshot survivor) db
  let db : Archive := db.mergeSourceRecords .user survivor replaced
  let (db, affected) := db.mergeUserEdges survivor replaced
  let placeholder := db.users.find? fun u => u.id = replaced
  let db : Archive := db.updateUser survivor fun u =>
    u.seen (placeholder.bind (·.firstSeenAt)) (placeholder.bind (·.updatedAt))
  let db : Archive := { db with users := db.users.filter fun u => u.id ≠ replaced }
  (affected.dedup.mergeSort fun a b => decide (a ≤ b)).foldl (Archive.refreshCounters now) db

/-! ## Observing an account -/

/-- The arguments of `_upsert_provider_user_locked`; `timestamp` is `now`, or the clock where it is absent. -/
structure Observed where
  provider : String
  username : String
  providerUserId : Option String
  displayUsername : Option String
  accountStatus : Option String
  title : Option String
  timestamp : Int
  profileRawPayloadId : Option Nat
deriving DecidableEq, Repr

/-- `display_username or username` -/
def Observed.display (o : Observed) : String :=
  match o.displayUsername with
  | some d => if d = "" then o.username else d
  | none => o.username

/-- The rows that `_is_latest_profile` orders: time, fetch and payload of each observation. -/
def Archive.profileTimes (db : Archive) (userId rawPayloadId : Nat) : List (Int × Nat × Nat) :=
  (db.rawPayloads.filter fun r => r.id = rawPayloadId ∨ db.sourceRecords.any fun s =>
    s.entityType = .user ∧ s.entityId = userId ∧ s.endpointType = "user_profile" ∧ s.rawPayloadId = r.id).flatMap
    fun r =>
      let fetches := db.fetchLogs.filter fun f =>
        f.rawPayloadId = some r.id ∧ (f.statusCode = some 200 ∨ f.statusCode = some 304)
      if fetches = [] then [(r.fetchedAt, 0, r.id)] else fetches.map fun f => (f.attemptedAt, f.id + 1, r.id)

/-- A row before another in descending order, a missing fetch being the last. -/
def laterTime (a b : Int × Nat × Nat) : Bool :=
  a.1 > b.1 || a.1 = b.1 && (a.2.1 > b.2.1 || a.2.1 = b.2.1 && a.2.2 > b.2.2)

/-- `_is_latest_profile` -/
def Archive.isLatestProfile (db : Archive) (userId rawPayloadId : Nat) : Bool :=
  match (db.profileTimes userId rawPayloadId).foldl (fun best x =>
    match best with
    | none => some x
    | some b => if laterTime x b then some x else some b) none with
  | none => false
  | some best => best.2.2 = rawPayloadId

/-- The `UPDATE` of an account that is known. -/
def ProviderUser.observe (normalize : String → String) (o : Observed) (u : ProviderUser) : ProviderUser :=
  { u with
    providerUserId := o.providerUserId.or u.providerUserId
    usernameNormalized := normalize o.username
    displayUsername := o.display
    accountStatus := if o.profileRawPayloadId.isSome then o.accountStatus else o.accountStatus.or u.accountStatus
    title := if o.profileRawPayloadId.isSome then o.title else o.title.or u.title
    firstSeenAt := least u.firstSeenAt (some o.timestamp)
    updatedAt := greatest u.updatedAt (some o.timestamp) }

def conflict (o : Observed) : String :=
  "Cannot reconcile " ++ o.provider ++ "/" ++ normalize o.username ++ ": conflicting provider user IDs"

def Archive.named (db : Archive) (o : Observed) : Option ProviderUser :=
  db.users.find? fun u => u.provider = o.provider ∧ u.usernameNormalized = normalize o.username

def Archive.identified (db : Archive) (o : Observed) : Option ProviderUser :=
  o.providerUserId.bind fun id => db.users.find? fun u => u.provider = o.provider ∧ u.providerUserId = some id

/-- A profile body that is not the latest one says nothing about the account. -/
def Archive.staleProfile (db : Archive) (userId : Nat) (o : Observed) : Bool :=
  o.profileRawPayloadId.any fun raw => !db.isLatestProfile userId raw

/-- What follows once the account is found. A call that raises ends with the tables as they are then. -/
def Archive.observeExisting (db : Archive) (o : Observed) (now : Int) (existing : ProviderUser)
    (named identified : Option ProviderUser) : Except String Nat × Archive :=
  if db.staleProfile existing.id o then (.ok existing.id, db)
  else if identified.isSome && o.profileRawPayloadId.isNone && existing.updatedAt.any (fun t => o.timestamp < t) then
    (.ok existing.id, db)
  else
    let update (db : Archive) := db.updateUser existing.id (ProviderUser.observe normalize o)
    match named with
    | some other =>
      if other.id ≠ existing.id then
        if other.providerUserId.isSome then (.error (conflict normalize o), db)
        else if db.staleProfile other.id o then (.ok existing.id, db)
        else (.ok existing.id, update (db.mergeUserPlaceholder normalize existing.id other.id now))
      else (.ok existing.id, update db)
    | none => (.ok existing.id, update db)

def Archive.insertUser (db : Archive) (u : ProviderUser) : Archive :=
  { db with users := db.users ++ [{ u with id := db.userSeq + 1 }], userSeq := db.userSeq + 1 }

/-- `_upsert_provider_user_locked`; `now` is the clock of the run counters. -/
def Archive.upsertProviderUserLocked (db : Archive) (o : Observed) (now : Int) : Except String Nat × Archive :=
  let named := db.named normalize o
  let identified := db.identified o
  if identified.isNone && o.providerUserId.isSome &&
      named.any (fun u => u.providerUserId.isSome && u.providerUserId ≠ o.providerUserId) then
    (.error (conflict normalize o), db)
  else
    match identified.or named with
    | some existing => db.observeExisting normalize o now existing named identified
    | none =>
      (.ok (db.userSeq + 1), db.insertUser ⟨0, o.provider, o.providerUserId, normalize o.username, o.display,
        o.accountStatus, o.title, some o.timestamp, some o.timestamp⟩)

/-- `resolve_capture_account`: a private target is a placeholder without dates. -/
def Archive.resolveCaptureAccount (db : Archive) (provider username : String) (observedAt : Int) (isPublic : Bool)
    (now : Int) : Except String Nat × Archive :=
  match db.users.find? fun u => u.provider = provider ∧ u.usernameNormalized = normalize username with
  | some current => (.ok current.id, db)
  | none =>
    if isPublic then
      db.upsertProviderUserLocked normalize ⟨provider, username, none, none, none, none, observedAt, none⟩ now
    else
      (.ok (db.userSeq + 1), db.insertUser ⟨0, provider, none, normalize username, username, none, none, none, none⟩)

end Names

end ChessCrawl.Identity
