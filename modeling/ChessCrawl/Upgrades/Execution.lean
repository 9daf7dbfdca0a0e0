import ChessCrawl.Lib.Cursor
import ChessCrawl.Lib.Run
import Mathlib.Logic.Function.Basic

/-! `storage/execution.py` and `JobRunner._reprocess_archive`: offline upgrades, which replay the stored payloads of a provider
up to a pinned id. Executions overlap, stop, fail and crash in any order. -/
namespace ChessCrawl.Upgrades
open ChessCrawl.Lib
set_option autoImplicit false

/-! ## Tables -/

structure Payload where
  id : Nat
  provider : String
  ownerScope : String
deriving DecidableEq, Repr

/-- `raw_payloads`, by id; its ids are those of a sequence that starts at one. -/
structure Archive where
  rows : List Payload
  sorted : rows.Pairwise fun p q => p.id < q.id
  positive : ∀ p ∈ rows, 0 < p.id

/-- `provider=… AND owner_scope IN ('public',…)` -/
def inScope (provider ownerScope : String) (p : Payload) : Bool :=
  decide (p.provider = provider ∧ (p.ownerScope = "public" ∨ p.ownerScope = ownerScope))

inductive UpgradeState
  | running | done | error
deriving DecidableEq, Repr

/-- A row of `data_upgrades`. -/
structure Upgrade where
  provider : String
  ownerScope : String
  parserVersion : String
  state : UpgradeState
  highWaterRawId : Nat
  lastRawId : Nat
  processed : Nat
  error : Option String
  jobId : Nat
deriving DecidableEq, Repr

abbrev Table := String → Option Upgrade

/-- The payloads of an upgrade. -/
def Upgrade.selects (u : Upgrade) (p : Payload) : Bool :=
  inScope u.provider u.ownerScope p && decide (p.id ≤ u.highWaterRawId)

/-- The ids of the payloads of an upgrade, in order. -/
def Upgrade.work (u : Upgrade) (a : Archive) : List Nat := (a.rows.filter u.selects).map Payload.id

/-! ## Operations -/

/-- `SELECT COALESCE(MAX(id),0)` -/
def highWater (a : Archive) (provider ownerScope : String) : Nat :=
  ((a.rows.filter (inScope provider ownerScope)).map Payload.id).max?.getD 0

/-- `start_upgrade`; it is atomic, so an error leaves the table as it was. -/
def startUpgrade (table : Table) (a : Archive) (upgradeId provider parserVersion : String) (jobId : Nat)
    (ownerScope : String) : Except String (Table × Upgrade) :=
  let row := (table upgradeId).getD ⟨provider, ownerScope, parserVersion, .running, highWater a provider ownerScope, 0, 0,
    none, jobId⟩
  if row.provider ≠ provider ∨ row.ownerScope ≠ ownerScope ∨ row.parserVersion ≠ parserVersion ∨ row.jobId ≠ jobId then
    .error "Upgrade identity already belongs to different inputs or job"
  else .ok (Function.update table upgradeId (some row), row)

/-- `upgrade_batch` -/
def upgradeBatch (a : Archive) (u : Upgrade) (batchSize : Nat) : List Nat :=
  ((a.rows.filter fun p => inScope u.provider u.ownerScope p && decide (u.lastRawId < p.id ∧ p.id ≤ u.highWaterRawId)).map
    Payload.id).take batchSize

/-- The row after `checkpoint_upgrade`. -/
def Upgrade.checkpoint (u : Upgrade) (rawId : Nat) (done : Bool) : Upgrade :=
  { u with
    lastRawId := max u.lastRawId rawId
    processed := u.processed + if u.lastRawId < rawId then 1 else 0
    state := if done then .done else .running
    error := none }

def checkpointUpgrade (table : Table) (upgradeId : String) (rawId : Nat) (done : Bool) : Table :=
  Function.update table upgradeId ((table upgradeId).map fun u => u.checkpoint rawId done)

/-- `fail_upgrade` -/
def failUpgrade (table : Table) (upgradeId : String) (jobId : Nat) (provider ownerScope error : String) : Table :=
  Function.update table upgradeId ((table upgradeId).map fun u =>
    if u.jobId = jobId ∧ u.provider = provider ∧ u.ownerScope = ownerScope then
      { u with state := .error, error := some error }
    else u)

/-! ## Executions -/

/-- What an execution reads of its job, and the parser manifest that is installed where it runs. -/
structure Call where
  jobId : Nat
  provider : String
  target : String
  upgradeId : Option String
  batchSize : Option Int
  parserVersion : Option String
  ownerScope : Option String
  manifest : String
deriving DecidableEq, Repr

namespace Call

def identity (c : Call) : String := c.upgradeId.getD c.target

def size (c : Call) : Int := c.batchSize.getD 25

def scope (c : Call) : String := c.ownerScope.getD "public"

/-- `installed_parser_target` -/
def installedParserTarget (c : Call) : Except String String :=
  let requested := c.parserVersion.getD "current"
  if requested ≠ "current" ∧ requested ≠ c.manifest then
    .error "Requested parser target is unavailable; use current or the installed parser manifest"
  else .ok c.manifest

/-- `_reprocess_archive` up to the row of its upgrade. -/
def start (c : Call) (table : Table) (a : Archive) : Except String (Table × Upgrade) :=
  if c.size < 1 ∨ 100 < c.size then .error "Upgrade batch_size must be between one and one hundred"
  else c.installedParserTarget.bind fun target => startUpgrade table a c.identity c.provider target c.jobId c.scope

end Call

inductive Phase
  | selecting (upgrade : Upgrade)
  | replaying (upgrade : Upgrade) (batch rest : List Nat)
  | checkpointing (upgrade : Upgrade) (batch : List Nat) (rawId : Nat) (rest : List Nat)
  | raised (message : String)
deriving DecidableEq, Repr

structure Session where
  call : Call
  phase : Phase
deriving DecidableEq, Repr

/-- A successful replay: the upgrade, the payload, and the parsers it ran under. -/
structure Replay where
  upgradeId : String
  rawId : Nat
  manifest : String
deriving DecidableEq, Repr

structure State where
  archive : Archive
  table : Table
  sessions : Nat → Option Session
  replays : List Replay

def State.at (s : State) (n : Nat) (session : Session) : State :=
  { s with sessions := Function.update s.sessions n (some session) }

def State.ends (s : State) (n : Nat) : State := { s with sessions := Function.update s.sessions n none }

inductive Event
  | begin (n : Nat) (call : Call)
  | select (n : Nat)
  | stop (n : Nat)
  | replay (n : Nat)
  | checkpoint (n : Nat)
  | finish (n : Nat)
  | raise (n : Nat) (message : String)
  | fail (n : Nat)
  | crash (n : Nat)
  | archive (a : Archive)

/-- One statement of an execution. `stop` is a request to stop, or a replay that ends with its job pending or blocked;
`raise` is any other exception, which `fail` then reports on the row; `crash` loses the execution. -/
def step (s : State) : Event → Option State
  | .begin n call =>
    if (s.sessions n).isSome then none
    else
      match call.start s.table s.archive with
      | .error message => some (s.at n ⟨call, .raised message⟩)
      | .ok (table, upgrade) => some ({ s with table := table }.at n ⟨call, .selecting upgrade⟩)
  | .select n =>
    match s.sessions n with
    | some ⟨call, .selecting upgrade⟩ =>
      let batch := upgradeBatch s.archive upgrade call.size.toNat
      some (s.at n ⟨call, .replaying upgrade batch batch⟩)
    | _ => none
  | .stop n =>
    match s.sessions n with
    | some ⟨_, .replaying _ _ (_ :: _)⟩ => some (s.ends n)
    | _ => none
  | .replay n =>
    match s.sessions n with
    | some ⟨call, .replaying upgrade batch (rawId :: rest)⟩ =>
      some ({ s with replays := s.replays ++ [Replay.mk call.identity rawId call.manifest] }.at n
        ⟨call, .checkpointing upgrade batch rawId rest⟩)
    | _ => none
  | .checkpoint n =>
    match s.sessions n with
    | some ⟨call, .checkpointing upgrade batch rawId rest⟩ =>
      some ({ s with table := checkpointUpgrade s.table call.identity rawId false }.at n
        ⟨call, .replaying upgrade batch rest⟩)
    | _ => none
  | .finish n =>
    match s.sessions n with
    | some ⟨call, .replaying upgrade batch []⟩ =>
      if (batch.length : Int) < call.size then
        some ({ s with table := checkpointUpgrade s.table call.identity upgrade.highWaterRawId true }.ends n)
      else some (s.ends n)
    | _ => none
  | .raise n message =>
    match s.sessions n with
    | some ⟨call, _⟩ => some (s.at n ⟨call, .raised message⟩)
    | none => none
  | .fail n =>
    match s.sessions n with
    | some ⟨call, .raised message⟩ =>
      some ({ s with table := failUpgrade s.table call.identity call.jobId call.provider call.scope message }.ends n)
    | _ => none
  | .crash n => some (s.ends n)
  | .archive a => some { s with archive := a }

def upgrades : System State Event where
  init s := (∀ id, s.table id = none) ∧ (∀ n, s.sessions n = none) ∧ s.replays = []
  step := step

/-- The payloads of an upgrade are fixed from its start on. -/
def Fixed (s : State) : Event → Prop
  | .archive a => ∀ id u, s.table id = some u → u.work a = u.work s.archive
  | _ => True

end ChessCrawl.Upgrades
