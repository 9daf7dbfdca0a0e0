import ChessCrawl.Dispatch.Outbox
import ChessCrawl.Lib.Run

/-! Event delivery: the triggers of `0004_events.sql` with the delivery guard of `0019_event_delivery.sql`,
`storage/events.py` and `publish_pending`. Writers run transactions with savepoints and hold their row
locks to the end; outbox ids come from a sequence at the insert and the rows appear at the commit. The hub
accepts a revision during the call that publishes it, or not at all. -/
namespace ChessCrawl.Events
open ChessCrawl.Lib
set_option autoImplicit false

/-! ## Tables -/

/-- The event types `job.updated` and `run.updated`. -/
inductive Kind
  | job | run
deriving DecidableEq, Repr

structure Resource where
  kind : Kind
  id : Nat
deriving DecidableEq, Repr

/-- The columns that `set_job_revision` and `set_run_revision` compare. -/
inductive Columns
  | job (columns : Dispatch.Columns)
  | run (status : Nat) (counters : Option Nat) (finishedAt : Option Int)
deriving DecidableEq, Repr

structure Row where
  columns : Columns
  revision : Nat
deriving DecidableEq, Repr

/-- A row of `event_outbox`. -/
structure EventRow where
  id : Nat
  resource : Resource
  revision : Nat
  attempts : Nat
  nextAttemptAt : Int
  deliveredAt : Option Int
deriving DecidableEq, Repr

def EventRow.pending (e : EventRow) : Bool := e.deliveredAt.isNone

/-- The committed tables. `history` lists every revision with the delivery setting of the session that
wrote it, for the statements. -/
structure Db where
  rows : Resource → Option Row
  outbox : List EventRow
  history : List (Resource × Nat × Bool)

/-! ## Writers -/

/-- An uncommitted insert or update, with the outbox id of its event. -/
structure Write where
  resource : Resource
  columns : Columns
  revision : Nat
  changed : Bool
  enabled : Bool
  event : Option Nat
deriving DecidableEq, Repr

structure Txn where
  writes : List Write
  savepoints : List Nat
deriving DecidableEq, Repr

/-- A session with its `chess_crawl.events_enabled`. -/
structure Session where
  enabled : Bool
  txn : Option Txn
deriving DecidableEq, Repr

def Db.apply (db : Db) (w : Write) : Db where
  rows := Function.update db.rows w.resource (some ⟨w.columns, w.revision⟩)
  outbox := db.outbox ++ (w.event.map fun id => ⟨id, w.resource, w.revision, 0, 0, none⟩).toList
  history := if w.changed then (w.resource, w.revision, w.enabled) :: db.history else db.history

/-- What a transaction sees after its own writes, and what its commit makes of the tables. -/
def Db.after (db : Db) (ws : List Write) : Db := ws.foldl Db.apply db

/-- The revision triggers, the event trigger and the delivery guard on one row; `seq` is the last id
of the outbox sequence, which a suppressed insert also consumes. -/
def trigger (seq : Nat) (enabled : Bool) (resource : Resource) (old : Option Row) (columns : Columns) : Write :=
  match old with
  | none => ⟨resource, columns, 1, true, enabled, if enabled then some (seq + 1) else none⟩
  | some row =>
    if columns = row.columns then ⟨resource, columns, row.revision, false, enabled, none⟩
    else ⟨resource, columns, row.revision + 1, true, enabled, if enabled then some (seq + 1) else none⟩

inductive Act
  | begin
  | write (resource : Resource) (columns : Columns)
  | savepoint
  | rollbackTo
  | release
  | commit
  | rollback
deriving DecidableEq, Repr

/-- Another transaction has written the row. -/
def locked (others : List Session) (resource : Resource) : Bool :=
  others.any fun y => y.txn.any fun t => t.writes.any fun w => decide (w.resource = resource)

def Session.act (db : Db) (seq : Nat) (others : List Session) (x : Session) :
    Act → Option (Session × Db × Nat)
  | .begin =>
    match x.txn with
    | none => some ({ x with txn := some ⟨[], []⟩ }, db, seq)
    | some _ => none
  | .write resource columns =>
    match x.txn with
    | some t =>
      if locked others resource then none
      else
        let w := trigger seq x.enabled resource ((db.after t.writes).rows resource) columns
        some ({ x with txn := some { t with writes := t.writes ++ [w] } }, db,
          if w.changed then seq + 1 else seq)
    | none => none
  | .savepoint =>
    match x.txn with
    | some t => some ({ x with txn := some { t with savepoints := t.writes.length :: t.savepoints } }, db, seq)
    | none => none
  | .rollbackTo =>
    match x.txn with
    | some ⟨writes, n :: savepoints⟩ =>
      some ({ x with txn := some ⟨writes.take n, savepoints⟩ }, db, seq)
    | _ => none
  | .release =>
    match x.txn with
    | some ⟨writes, _ :: savepoints⟩ => some ({ x with txn := some ⟨writes, savepoints⟩ }, db, seq)
    | _ => none
  | .commit =>
    match x.txn with
    | some t => some ({ x with txn := none }, db.after t.writes, seq)
    | none => none
  | .rollback =>
    match x.txn with
    | some _ => some ({ x with txn := none }, db, seq)
    | none => none

/-! ## The publisher -/

/-- `next_pending_event`: the smallest pending id, whatever its backoff. -/
def nextPending : List EventRow → Option EventRow
  | [] => none
  | e :: es =>
    match nextPending es with
    | none => if e.pending then some e else none
    | some f => if e.pending && decide (e.id < f.id) then some e else some f

inductive Phase
  | idle
  | publishing (event : EventRow)
  | answered (event : EventRow) (succeeded : Bool)
deriving DecidableEq, Repr

inductive PublisherAct
  | pick (now : Int)
  | publish (accepted succeeded : Bool)
  | acknowledge (now : Int)
  | defer (nextAttemptAt : Int)
  | prune (deliveredBefore : Int) (limit : Nat)
  | crash
deriving DecidableEq, Repr

def acknowledgeEvent (outbox : List EventRow) (id : Nat) (now : Int) : List EventRow :=
  outbox.map fun e =>
    if e.id = id ∧ e.pending then { e with deliveredAt := some now, attempts := e.attempts + 1 } else e

def deferEvent (outbox : List EventRow) (id : Nat) (nextAttemptAt : Int) : List EventRow :=
  outbox.map fun e =>
    if e.id = id ∧ e.pending then { e with nextAttemptAt := nextAttemptAt, attempts := e.attempts + 1 } else e

/-- `ORDER BY delivered_at,id` -/
def deliveredOrder (x y : EventRow) : Prop :=
  x.deliveredAt.getD 0 < y.deliveredAt.getD 0 ∨ (x.deliveredAt.getD 0 = y.deliveredAt.getD 0 ∧ x.id ≤ y.id)

instance : DecidableRel deliveredOrder := fun x y => inferInstanceAs
  (Decidable (x.deliveredAt.getD 0 < y.deliveredAt.getD 0 ∨
    (x.deliveredAt.getD 0 = y.deliveredAt.getD 0 ∧ x.id ≤ y.id)))

/-- `prune_events` without `discard_pending_before` -/
def pruneEvents (outbox : List EventRow) (deliveredBefore : Int) (limit : Nat) : List EventRow :=
  let removed := ((outbox.filter fun e => e.deliveredAt.any fun t => decide (t < deliveredBefore)).insertionSort
    deliveredOrder).take limit
  outbox.filter fun e => decide (e ∉ removed)

/-! ## The system -/

structure State where
  db : Db
  seq : Nat
  sessions : List Session
  publisher : Phase
  accepted : List (Resource × Nat)

/-- The revisions of a resource in the order the hub accepted them. -/
def revisionsOf (accepted : List (Resource × Nat)) (resource : Resource) : List Nat :=
  (accepted.filter fun a => decide (a.1 = resource)).map Prod.snd

inductive Event
  | connect (enabled : Bool)
  | act (session : Nat) (a : Act)
  | publisher (a : PublisherAct)
deriving DecidableEq, Repr

/-- A success is reported only for an accepted event; a failure may hide an acceptance. Cleanup needs
the publisher's lock, so it runs between two events. -/
def State.publish (s : State) : PublisherAct → Option State
  | .pick now =>
    match s.publisher, nextPending s.db.outbox with
    | .idle, some e => if e.nextAttemptAt ≤ now then some { s with publisher := .publishing e } else none
    | _, _ => none
  | .publish accepted succeeded =>
    match s.publisher with
    | .publishing e =>
      if succeeded && !accepted then none
      else some { s with
        publisher := .answered e succeeded
        accepted := if accepted then s.accepted ++ [(e.resource, e.revision)] else s.accepted }
    | _ => none
  | .acknowledge now =>
    match s.publisher with
    | .answered e true =>
      some { s with publisher := .idle, db := { s.db with outbox := acknowledgeEvent s.db.outbox e.id now } }
    | _ => none
  | .defer nextAttemptAt =>
    match s.publisher with
    | .answered e false =>
      some { s with publisher := .idle, db := { s.db with outbox := deferEvent s.db.outbox e.id nextAttemptAt } }
    | _ => none
  | .prune deliveredBefore limit =>
    match s.publisher with
    | .idle => some { s with db := { s.db with outbox := pruneEvents s.db.outbox deliveredBefore limit } }
    | _ => none
  | .crash => some { s with publisher := .idle }

def step (s : State) : Event → Option State
  | .connect enabled => some { s with sessions := s.sessions ++ [⟨enabled, none⟩] }
  | .act i a => do
    let x ← s.sessions[i]?
    let (x, db, seq) ← x.act s.db s.seq (s.sessions.eraseIdx i) a
    some { s with db := db, seq := seq, sessions := s.sessions.set i x }
  | .publisher a => s.publish a

/-- Rows from before the event migration have revision zero and no events. -/
def delivery : System State Event where
  init s := s.db.outbox = [] ∧ s.db.history = [] ∧ s.sessions = [] ∧ s.publisher = .idle ∧ s.accepted = [] ∧
    ∀ resource row, s.db.rows resource = some row → row.revision = 0
  step := step

end ChessCrawl.Events
