import ChessCrawl.Artifacts.Store
import ChessCrawl.Lib.Run

/-! The sessions that build, download and prune export artifacts, as a transition system. A transaction that reads a row
and writes it later stops between the two; a worker's write transaction holds its job row, so the job stays with its
worker until the transaction ends. A deletion of an object is sent and lands later, also when its sender is gone. The
row locks of `mark_pruning` only take interleavings away and are left out. -/
namespace ChessCrawl.Artifacts
open ChessCrawl.Lib
set_option autoImplicit false

/-! ## Program points -/

/-- Points of `_prepare_export`; `started`, `inserting` and `sealing` are inside a transaction. -/
inductive BuildPc
  | opened
  | starting
  | started
  | clearing
  | rendering
  | writing (x : Snapshot) (location : String) (ordinal : Nat) (rest : Bytes)
  | published (x : Snapshot) (location : String) (ordinal : Nat) (chunk rest : Bytes)
  | inserting (x : Snapshot) (location : String) (ordinal : Nat) (chunk rest : Bytes)
  | sealing (x : Snapshot) (ordinal : Nat)
deriving DecidableEq, Repr

/-- Points of `prune_artifacts`; `marked` and `voiding` are inside a transaction, and `marked` holds the workspace lock. -/
inductive PrunePc
  | marking (before : Int) (limit : Nat)
  | marked (jobs : List Nat)
  | pruning (jobs : List Nat)
  | expiring (job : Nat) (jobs : List Nat)
  | voiding (job : Nat) (jobs : List Nat)
deriving DecidableEq, Repr

/-- Points of `delete_artifact_parts`. -/
inductive DeletePc
  | deleting (rows : List ChunkRow)
  | authorized (row : ChunkRow) (rows : List ChunkRow)
  | sent (row : ChunkRow) (rows : List ChunkRow)
  | deleted (row : ChunkRow) (rows : List ChunkRow)
deriving DecidableEq, Repr

/-- A worker on a claim of its job, or an operator's pruning; `dropping` deletes the parts of a job for either. -/
inductive Session
  | build (job generation : Nat) (pc : BuildPc)
  | buildDrop (job generation : Nat) (pc : DeletePc)
  | prune (ws : String) (pc : PrunePc)
  | pruneDrop (ws : String) (job : Nat) (jobs : List Nat) (pc : DeletePc)
deriving DecidableEq, Repr

/-- A job row: the session it is in progress in, and how often it was claimed. -/
structure JobRow where
  owner : Option Nat
  generation : Nat
deriving DecidableEq, Repr

/-- `inflight` holds the object deletions on their way, with their senders. -/
structure State where
  db : Db
  store : Key → Option Bytes
  inflight : List (Nat × Key)
  jobs : Nat → JobRow
  locks : String → Option Nat
  sessions : Nat → Option Session
  clock : Int

/-- What a session meets at a point: the rendered export and the store's location, the jobs that the pruning query
returns, and whether something outside refuses (a stop request, a failing store, a reference by source evidence). -/
structure Input where
  snapshot : Snapshot
  location : String
  selected : List Nat
  refuse : Bool
deriving DecidableEq, Repr

/-! ## Steps of a session -/

/-- The fence of a worker's transaction. -/
def State.fenced (s : State) (n job generation : Nat) : Bool := decide (s.jobs job = ⟨some n, generation⟩)

/-- The session leaves: what it was about to do is not done. -/
def State.ends (s : State) (n : Nat) : State :=
  { s with
    sessions := Function.update s.sessions n none
    locks := fun ws => if s.locks ws = some n then none else s.locks ws }

def State.at (s : State) (n : Nat) (session : Session) : State :=
  { s with sessions := Function.update s.sessions n (some session) }

/-- The commit of a transaction; `none` is an exception in it. -/
def State.commit (s : State) (n : Nat) (db : Option Db) (session : Option Session) : State :=
  match db, session with
  | some db, some session => { s with db := db }.at n session
  | some db, none => { s with db := db }.ends n
  | none, _ => s.ends n

/-- The object that `prepare_archive_object` writes, with its registry row. -/
def objectOf (cd : Codec) (location ws : String) (job attempt : Nat) (chunk : Bytes) : Key × ObjectRow :=
  let encoded := cd.compress chunk
  (⟨location, ws, job, attempt, cd.digest encoded⟩,
    ⟨cd.digest chunk, cd.digest encoded, chunk.length, encoded.length⟩)

/-- The workspace of an artifact; a job without one has no session here. -/
def Db.workspace (db : Db) (job : Nat) : String := ((db.artifacts job).map Artifact.workspaceId).getD ""

def BuildPc.advance (cd : Codec) (s : State) (n job generation : Nat) (i : Input) : BuildPc → Option State
  | .opened =>
    some (if i.refuse ∨ (s.db.artifacts job).any (fun a => decide (a.state = .ready)) then s.ends n
      else s.at n (.build job generation .starting))
  | .starting =>
    some (if s.fenced n job generation && s.db.mayStart job s.clock then s.at n (.build job generation .started)
      else s.ends n)
  | .started => some (s.commit n (some (s.db.setState job .building)) (some (.build job generation .clearing)))
  | .clearing =>
    match s.db.chunkPage job 0 256 with
    | [] => some (s.at n (.build job generation .rendering))
    | rows => some (s.at n (.buildDrop job generation (.deleting rows)))
  | .rendering =>
    -- The largest limits that the settings allow; a smaller one is a refusal from outside.
    some (if i.refuse ∨ 10000000 < i.snapshot.rows ∨ 4 * 1024 ^ 3 < i.snapshot.body.length then s.ends n
      else s.at n (.build job generation (.writing i.snapshot i.location 0 i.snapshot.body)))
  | .writing x _ ordinal [] =>
    some (if i.refuse ∨ (s.fenced n job generation && s.db.mayPublish job s.clock &&
        s.db.complete job (manifestOf cd x ordinal)) = false then s.ends n
      else s.at n (.build job generation (.sealing x ordinal)))
  | .writing x location ordinal rest =>
    let chunk := rest.take chunkBytes
    let (key, _) := objectOf cd location (s.db.workspace job) job generation chunk
    some (if i.refuse ∨ ((s.store key).any fun held => decide (held ≠ cd.compress chunk)) then s.ends n
      else
        { s with store := Function.update s.store key (some (cd.compress chunk)) }.at n
          (.build job generation (.published x location (ordinal + 1) chunk (rest.drop chunkBytes))))
  | .published x location ordinal chunk rest =>
    let reserved := ((s.db.artifacts job).map Artifact.reservedBytes).getD 0
    some (if s.fenced n job generation && s.db.mayPublish job s.clock &&
        decide (chunk.length ≤ chunkBytes ∧ s.db.chunkTotal job + chunk.length ≤ reserved) then
        s.at n (.build job generation (.inserting x location ordinal chunk rest))
      else s.ends n)
  | .inserting x location ordinal chunk rest =>
    let (key, row) := objectOf cd location (s.db.workspace job) job generation chunk
    some (s.commit n ((s.db.registerArchiveObject key row).bind fun db => db.insertChunk job ordinal key)
      (some (.build job generation (.writing x location ordinal rest))))
  | .sealing x ordinal =>
    if (s.locks (s.db.workspace job)).isSome then none
    else some (s.commit n (s.db.publish job (manifestOf cd x ordinal)) none)

/-- The deletion of parts, for a worker and an operator alike: only the fence differs. -/
def DeletePc.advance (s : State) (n job : Nat) (fenced : Bool) (i : Input) (at' : DeletePc → Session) (done : Session) :
    DeletePc → Option State
  | .deleting [] => some (s.at n done)
  | .deleting (row :: rows) =>
    some (if fenced && s.db.mutable job then s.at n (at' (.authorized row rows)) else s.ends n)
  | .authorized row rows =>
    some (if i.refuse ∨ row.key.jobId ≠ job ∨ row.key.workspaceId ≠ s.db.workspace job then s.ends n
      else { s with inflight := (n, row.key) :: s.inflight }.at n (at' (.sent row rows)))
  | .sent row rows => if (n, row.key) ∈ s.inflight then none else some (s.at n (at' (.deleted row rows)))
  | .deleted row rows =>
    some (if fenced then s.commit n (s.db.removeChunk job row.ordinal) (some (at' (.deleting rows))) else s.ends n)

def PrunePc.advance (s : State) (n : Nat) (ws : String) (i : Input) : PrunePc → Option State
  | .marking before limit =>
    if (s.locks ws).isSome then none
    else if i.selected.length ≤ limit ∧ i.selected.Nodup ∧
        i.selected.all (s.db.prunable ws before s.clock fun job => (s.jobs job).owner.isNone) then
      some ({ s with locks := Function.update s.locks ws (some n) }.at n (.prune ws (.marked i.selected)))
    else none
  | .marked jobs =>
    some ({ s with
      db := s.db.markPruning jobs
      locks := Function.update s.locks ws none }.at n (.prune ws (.pruning jobs)))
  | .pruning [] => some (s.ends n)
  | .pruning (job :: jobs) => some (s.at n (.pruneDrop ws job jobs (.deleting (s.db.chunkPage job 0 256))))
  | .expiring job jobs =>
    some (s.at n (.prune ws (if s.db.mayExpire job then .voiding job jobs else .pruning jobs)))
  | .voiding job jobs =>
    if (s.locks ws).isSome then none
    else some (s.commit n (s.db.expire job) (some (.prune ws (.pruning jobs))))

def Session.advance (cd : Codec) (s : State) (n : Nat) (i : Input) : Session → Option State
  | .build job generation pc => pc.advance cd s n job generation i
  | .buildDrop job generation pc =>
    pc.advance s n job (s.fenced n job generation) i (.buildDrop job generation) (.build job generation .clearing)
  | .prune ws pc => pc.advance s n ws i
  | .pruneDrop ws job jobs pc =>
    pc.advance s n job true i (.pruneDrop ws job jobs) (.prune ws (.expiring job jobs))

/-- A worker inside a transaction holds its job row. -/
def Session.holds (job : Nat) : Session → Bool
  | .build j _ .started => decide (j = job)
  | .build j _ (.inserting _ _ _ _ _) => decide (j = job)
  | .build j _ (.sealing _ _) => decide (j = job)
  | _ => false

/-! ## The system -/

inductive Event
  | tick (microseconds : Nat)
  | reserve (job : Nat) (ws : String) (st : Settings)
  | claim (n job : Nat)
  | release (job : Nat)
  | prune (n : Nat) (ws : String) (before : Int) (limit : Nat)
  | advance (n : Nat) (i : Input)
  | crash (n : Nat)
  | land (n : Nat) (key : Key)
  | acquire (job : Nat) (ws : String) (lease : Nat) (lifetime : Int) (slots : Nat) (purged : List Nat)
  | giveBack (lease : Nat) (ws : String)
deriving DecidableEq

/-- `release` is any way a job leaves its worker: done, paused, failed, or taken back from a lost one. -/
def step (cd : Codec) (s : State) : Event → Option State
  | .tick d => some { s with clock := s.clock + d }
  | .reserve job ws st =>
    if (s.locks ws).isSome then none
    else (s.db.reserveArtifact job ws st s.clock).map fun db => { s with db := db }
  | .claim n job =>
    if (s.sessions n).isSome ∨ (s.jobs job).owner.isSome ∨ (s.db.artifacts job).isNone then none
    else
      let generation := (s.jobs job).generation + 1
      some ({ s with jobs := Function.update s.jobs job ⟨some n, generation⟩ }.at n (.build job generation .opened))
  | .release job =>
    match (s.jobs job).owner with
    | none => none
    | some n =>
      if (s.sessions n).any (Session.holds job) then none
      else some { s with jobs := Function.update s.jobs job ⟨none, (s.jobs job).generation⟩ }
  | .prune n ws before limit =>
    if (s.sessions n).isSome then none else some (s.at n (.prune ws (.marking before limit)))
  | .advance n i => (s.sessions n).bind fun session => session.advance cd s n i
  | .crash n => some (s.ends n)
  | .land n key =>
    if (n, key) ∈ s.inflight then
      some { s with store := Function.update s.store key none, inflight := s.inflight.erase (n, key) }
    else none
  | .acquire job ws lease lifetime slots purged =>
    if (s.locks ws).isSome then none
    else (s.db.acquireDownload job ws lease lifetime s.clock slots purged).map fun db => { s with db := db }
  | .giveBack lease ws => some { s with db := s.db.releaseDownload lease ws }

def artifacts (cd : Codec) : System State Event where
  init s := s.db = Db.empty ∧ (∀ key, s.store key = none) ∧ s.inflight = [] ∧ (∀ job, s.jobs job = ⟨none, 0⟩) ∧
    (∀ ws, s.locks ws = none) ∧ ∀ n, s.sessions n = none
  step := step cd

end ChessCrawl.Artifacts
