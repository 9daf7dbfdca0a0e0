import ChessCrawl.Normalize.Provenance

/-! Captures and normalizations of the payloads of one game. A response is committed with its fetch log,
so a stored body always has an observation; captures of one source come one after another, under the lock
of its provider and of its key, so the ids of a payload's logs increase. Calls of `normalize_games_payload`
may come between each other at every step. -/
namespace ChessCrawl.Normalize
open ChessCrawl.Lib
set_option autoImplicit false

/-! ## Operations -/

inductive Op
  /-- a response with a body that was not stored yet -/
  | capture (raw : RawPayload) (log : FetchLog)
  /-- a response whose body is stored: not modified, or the same bytes once more -/
  | observe (log : FetchLog)
  | worker (e : Event)

/-- The serial id of a log that is inserted now, behind the other logs of its payload. -/
def Archive.serial (a : Archive) (log : FetchLog) : Bool :=
  a.logs.all fun l => l.rawPayloadId ≠ log.rawPayloadId || l.id < log.id

/-- `_persist_response` for a body that is new. -/
def Archive.persistResponse (a : Archive) (raw : RawPayload) (log : FetchLog) : Option Archive :=
  if log.rawPayloadId = raw.id ∧ log.statusCode = 200 ∧ a.serial log then
    (a.storePayload raw).bind fun a => a.observe log
  else none

def World.withArchive (s : World) (a : Archive) : World := { s with db := { s.db with archive := a } }

/-- What a worker of this deployment does besides capturing. -/
def Event.working : Event → Bool
  | .storePayload _ => false
  | .observe _ => false
  | .upsert _ => false
  | _ => true

def World.operate (s : World) : Op → Option World
  | .capture raw log => (s.db.archive.persistResponse raw log).map s.withArchive
  | .observe log => if s.db.archive.serial log then (s.db.archive.observe log).map s.withArchive else none
  | .worker e => if e.working then s.step e else none

def replays : System World Op where
  init s := s = World.initial
  step := World.operate

/-- The identity of a game: its id at the provider, and the addresses and hashes that its listings bear. -/
structure GameIdentity where
  provider : Provider
  id : String
  urls : Set String
  hashes : Set String

namespace GameIdentity
variable (G : GameIdentity)

def Is (g : NormalizedGame) : Prop := g.provider = G.provider ∧ g.providerGameId = some G.id

/-- Addresses and hashes are the game's own. -/
structure Names (url : Option String) (hash : String) : Prop where
  url : ∀ u ∈ url, u ∈ G.urls
  hash : hash ∈ G.hashes

/-- Neither the id nor the address nor the hash is the game's. -/
structure Apart (id url : Option String) (hash : String) : Prop where
  id : id ≠ some G.id
  url : ∀ u ∈ url, u ∉ G.urls
  hash : hash ∉ G.hashes

/-- A listing of the game bears its names, and a listing of another game does not. -/
def Tells (g : NormalizedGame) : Prop :=
  (G.Is g → G.Names g.canonicalUrl g.contentHash) ∧
    (¬ G.Is g → G.Apart g.providerGameId g.canonicalUrl g.contentHash)

/-- The row of the game. -/
structure Owns (row : GameRow) : Prop where
  provider : row.provider = G.provider
  id : row.providerGameId = some G.id
  names : G.Names row.canonicalUrl row.contentHash

/-- The row of another game. -/
def Foreign (row : GameRow) : Prop := G.Apart row.providerGameId row.canonicalUrl row.contentHash

end GameIdentity

/-- One evidence parser, payloads that list a game at one place, and listings that tell the game apart. -/
def Faithful (evidence : String) (G : GameIdentity) (s : World) : Op → Prop
  | .capture raw _ => ∀ g ∈ raw.games, G.Tells g
  | .observe _ => True
  | .worker e => Ordinary evidence s e

/-! ## Normalized since the last observation -/

def Op.observes (rawId : Nat) : Op → Prop
  | .capture raw _ => raw.id = rawId
  | .observe log => log.rawPayloadId = rawId
  | .worker _ => False

def Op.starts (worker : Nat) : Op → Prop
  | .worker (.start w _) => w = worker
  | _ => False

/-- A run without a cap and without a window. -/
def RunParams.Unbounded (p : RunParams) : Prop :=
  (p.collection = true ∨ p.maxGames = none) ∧ p.since = none ∧ p.stop = none ∧ p.sinceMs = none ∧ p.stopMs = none

/-- The call has no cap of its own, and its run has none. -/
structure Request.Uncapped (q : Request) (ops : List Op) : Prop where
  maxGames : q.maxGames = none
  run : ∀ runId, q.crawlRunId = some runId → ∀ run, Op.worker (.createRun run) ∈ ops → run.id = runId →
    run.params.Unbounded

/-- An uncapped call for the payload begins after its last observation and runs to its end. -/
def NormalizedAfter (ops : List Op) (rawId : Nat) : Prop :=
  ∃ pre w q mid post, ops = pre ++ .worker (.start w q) :: (mid ++ .worker (.act w .finish) :: post) ∧
    q.rawId = rawId ∧ q.Uncapped ops ∧ (∀ o ∈ mid, ¬ o.starts w) ∧ (∀ o ∈ mid, ¬ o.observes rawId) ∧
    ∀ o ∈ post, ¬ o.observes rawId

end ChessCrawl.Normalize
