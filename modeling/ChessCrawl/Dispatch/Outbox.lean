import ChessCrawl.Lib.Run
import ChessCrawl.Ownership.Sessions
import Mathlib.Data.List.Sort

/-! The dispatch outbox: the triggers `set_job_revision` and `record_dispatch_event`, the publisher
(`SqsDispatcher.publish_one` over `pending_dispatch`), `maintain_dispatch` and `SqsConsumer.run_once`.
Publishers and maintenance run read-committed transactions: a statement sees the rows committed when it
starts, locks the ones no other transaction has, and its updates appear at the commit. -/
namespace ChessCrawl.Dispatch
open ChessCrawl.Lib
open ChessCrawl.Ownership (JobState)
set_option autoImplicit false

/-! ## Tables -/

/-- The columns that `set_job_revision` compares. -/
structure Columns where
  state : JobState
  paramsJson : Nat
  attempts : Nat
  retryCount : Nat
  nextAttemptAt : Option Int
  reason : Option Nat
  startedAt : Option Int
  doneAt : Option Int
deriving DecidableEq, Repr

structure Job where
  columns : Columns
  revision : Nat
deriving DecidableEq, Repr

def Columns.schedulable (c : Columns) : Bool :=
  c.state = .pending || (c.state = .blocked && c.nextAttemptAt.isSome)

/-- A row of `dispatch_outbox`. -/
structure Hint where
  id : Nat
  jobId : Nat
  jobRevision : Nat
  attempts : Nat
  availableAt : Int
  deliveredAt : Option Int
  supersededAt : Option Int
deriving DecidableEq, Repr

/-- Neither delivered nor superseded. -/
def Hint.live (h : Hint) : Bool := h.deliveredAt.isNone && h.supersededAt.isNone

/-- A queue message; `sentRevision` is the committed revision of the job when it was sent. -/
structure Message where
  id : Nat
  jobId : Nat
  sentRevision : Nat
  deleted : Bool
deriving DecidableEq, Repr

structure Board where
  jobs : Nat → Option Job
  outbox : List Hint
  outboxSeq : Nat
  queue : List Message
  queueSeq : Nat

/-! ## Job writes -/

/-- `record_dispatch_event`, the part that retires the previous hint; `locked` rows are skipped. -/
def retirePrevious (outbox : List Hint) (jobId oldRevision : Nat) (locked : Nat → Bool) (now : Int) : List Hint :=
  outbox.map fun h =>
    if h.jobId = jobId ∧ h.jobRevision = oldRevision ∧ h.live ∧ !locked h.id then
      { h with supersededAt := some now }
    else h

/-- `record_dispatch_event`, the part that inserts a hint for a schedulable job. -/
def Board.insertHint (b : Board) (jobId : Nat) (job : Job) : Board :=
  if job.columns.schedulable ∧
      b.outbox.all fun h => decide (¬ (h.jobId = jobId ∧ h.jobRevision = job.revision)) then
    { b with
      outbox := b.outbox ++
        [⟨b.outboxSeq + 1, jobId, job.revision, 0, job.columns.nextAttemptAt.getD 0, none, none⟩]
      outboxSeq := b.outboxSeq + 1 }
  else b

def Board.setJob (b : Board) (jobId : Nat) (job : Job) : Board :=
  { b with jobs := Function.update b.jobs jobId (some job) }

/-- `INSERT INTO discovery_jobs` -/
def Board.insertJob (b : Board) (jobId : Nat) (columns : Columns) : Option Board :=
  match b.jobs jobId with
  | some _ => none
  | none => some ((b.setJob jobId ⟨columns, 1⟩).insertHint jobId ⟨columns, 1⟩)

/-- `UPDATE discovery_jobs`: the revision moves only with the compared columns. -/
def Board.updateJob (b : Board) (jobId : Nat) (columns : Columns) (locked : Nat → Bool) (now : Int) :
    Option Board :=
  match b.jobs jobId with
  | none => none
  | some old =>
    if columns = old.columns then some b
    else
      let new : Job := ⟨columns, old.revision + 1⟩
      let b := { b with outbox := retirePrevious b.outbox jobId old.revision locked now }
      some ((b.setJob jobId new).insertHint jobId new)

/-! ## Publishers and maintenance -/

abbrev Cursor := Int × Nat

/-- What became of the selected hint. -/
inductive Outcome
  | selected
  | delivered (time : Int)
  | failed (time : Int)
deriving DecidableEq, Repr

/-- An open transaction on the outbox: locked rows and uncommitted updates. -/
structure Txn where
  locked : List Nat
  now : Int
  retired : List Nat
  choice : Option (Nat × Nat × Outcome)
  cursor : Option Cursor
  purge : Option (Int × Nat)
  deleted : List Nat

inductive Phase
  | idle
  | windowed (now : Int) (ids : List Nat) (cursor : Cursor)
  | reading (now : Int) (ids : List Nat) (cursor : Cursor) (seen : Nat → Option Job)
  | inspecting (now threshold : Int) (limit : Nat) (ids : List Nat) (seen : Nat → Option Job)
  | holding (t : Txn)

/-- A dispatcher process with the cursors it keeps between calls. -/
structure Publisher where
  dispatchAfter : Option Cursor
  afterId : Nat
  phase : Phase

/-- `ORDER BY available_at,id` -/
def hintOrder (x y : Hint) : Prop :=
  x.availableAt < y.availableAt ∨ (x.availableAt = y.availableAt ∧ x.id ≤ y.id)

instance : DecidableRel hintOrder := fun x y => inferInstanceAs
  (Decidable (x.availableAt < y.availableAt ∨ (x.availableAt = y.availableAt ∧ x.id ≤ y.id)))

/-- `COALESCE(delivered_at,superseded_at)` -/
def Hint.closedAt (h : Hint) : Option Int := h.deliveredAt.orElse fun _ => h.supersededAt

def closedOrder (x y : Hint) : Prop :=
  x.closedAt.getD 0 < y.closedAt.getD 0 ∨ (x.closedAt.getD 0 = y.closedAt.getD 0 ∧ x.id ≤ y.id)

instance : DecidableRel closedOrder := fun x y => inferInstanceAs
  (Decidable (x.closedAt.getD 0 < y.closedAt.getD 0 ∨ (x.closedAt.getD 0 = y.closedAt.getD 0 ∧ x.id ≤ y.id)))

def Cursor.before (c : Option Cursor) (h : Hint) : Bool :=
  match c with
  | none => true
  | some (time, id) => decide (time < h.availableAt ∨ (time = h.availableAt ∧ id < h.id))

/-- The due window of `pending_dispatch`, oldest first. -/
def dueWindow (outbox : List Hint) (now : Int) (after : Option Cursor) (limit : Nat) : List Hint :=
  ((outbox.filter fun h => h.live && decide (h.availableAt ≤ now) && Cursor.before after h).insertionSort
    hintOrder).take limit

/-- `_current_dispatch` on the joined job columns. -/
def currentDispatch (seen : Nat → Option Job) (h : Hint) : Bool :=
  match seen h.jobId with
  | some job => decide (h.jobRevision = job.revision) && job.columns.schedulable
  | none => false

/-- The selected hint's job is due. -/
def dueNow (seen : Nat → Option Job) (now : Int) (h : Hint) : Bool :=
  match seen h.jobId with
  | some job => job.columns.nextAttemptAt.all fun time => decide (time ≤ now)
  | none => false

/-- The joined rows that the statement could lock. -/
def lockable (b : Board) (ids : List Nat) (seen : Nat → Option Job) (locked : Nat → Bool) : List Hint :=
  b.outbox.filter fun h => decide (h.id ∈ ids) && h.live && !locked h.id && (seen h.jobId).isSome

/-- `_retire_obsolete_dispatch` -/
def Txn.retire (t : Txn) (h : Hint) : Hint :=
  if h.id ∈ t.retired then { h with supersededAt := some t.now } else h

/-- `delivered_dispatch` and `failed_dispatch` -/
def Txn.answer (t : Txn) (h : Hint) : Hint :=
  match t.choice with
  | some (id, _, .delivered time) =>
    if h.id = id then { h with deliveredAt := some time, attempts := h.attempts + 1 } else h
  | some (id, _, .failed time) =>
    if h.id = id then { h with availableAt := time + 30, attempts := h.attempts + 1 } else h
  | _ => h

def Txn.update (t : Txn) (h : Hint) : Hint := t.answer (t.retire h)

/-- The updates of a transaction reach the table. -/
def Board.commit (b : Board) (t : Txn) : Board :=
  { b with outbox := (b.outbox.filter fun h => decide (h.id ∉ t.deleted)).map t.update }

def Board.send (b : Board) (jobId : Nat) : Board :=
  match b.jobs jobId with
  | some job =>
    { b with
      queue := b.queue ++ [⟨b.queueSeq + 1, jobId, job.revision, false⟩]
      queueSeq := b.queueSeq + 1 }
  | none => b

inductive Act
  | look (now : Int) (limit : Nat)
  | read
  | lock (skip : List Nat)
  | send (failed arrived : Bool) (time : Int)
  | inspect (now retention : Int) (limit : Nat)
  | reconcile (skip : List Nat)
  | purge (skip : List Nat)
  | commit
  | crash

/-- Rows that another transaction has, or that a job write has at the moment. -/
def Publisher.act (b : Board) (locked : Nat → Bool) (p : Publisher) : Act → Option (Publisher × Board)
  | .look now limit =>
    match p.phase with
    | .idle =>
      let window := dueWindow b.outbox now p.dispatchAfter limit
      match window.getLast? with
      | none => some ({ p with dispatchAfter := none }, b)
      | some last => some ({ p with phase := .windowed now (window.map Hint.id) (last.availableAt, last.id) }, b)
    | _ => none
  | .read =>
    match p.phase with
    | .windowed now ids cursor => some ({ p with phase := .reading now ids cursor b.jobs }, b)
    | _ => none
  | .lock skip =>
    match p.phase with
    | .reading now ids cursor seen =>
      let rows := ((lockable b ids seen fun id => locked id || decide (id ∈ skip)).filter fun h =>
        decide (h.availableAt ≤ now)).insertionSort hintOrder
      let obsolete := rows.filter fun h => !currentDispatch seen h
      let selected := rows.find? fun h => currentDispatch seen h && dueNow seen now h
      let t : Txn := ⟨rows.map Hint.id, now, obsolete.map Hint.id,
        selected.map fun h => (h.id, h.jobId, .selected), some cursor, none, []⟩
      some ({ p with phase := .holding t }, b)
    | _ => none
  | .send failed arrived time =>
    match p.phase with
    | .holding t =>
      match t.choice with
      | some (id, jobId, .selected) =>
        -- an exception may still leave the message in the queue
        let b := if !failed || arrived then b.send jobId else b
        let outcome := if failed then .failed time else .delivered time
        some ({ p with phase := .holding { t with choice := some (id, jobId, outcome) } }, b)
      | _ => none
    | _ => none
  | .inspect now retention limit =>
    match p.phase with
    | .idle =>
      if 0 < retention then
        let ids := (b.outbox.filter fun h => h.live && decide (p.afterId < h.id)).map Hint.id
        some ({ p with phase := .inspecting now (now - retention) limit ids b.jobs }, b)
      else none
    | _ => none
  | .reconcile skip =>
    match p.phase with
    | .inspecting now threshold limit ids seen =>
      let rows := ((lockable b ids seen fun id => locked id || decide (id ∈ skip)).insertionSort fun x y =>
        x.id ≤ y.id).take limit
      let obsolete := rows.filter fun h => !currentDispatch seen h
      let t : Txn := ⟨rows.map Hint.id, now, obsolete.map Hint.id, none, none, some (threshold, limit), []⟩
      some ({ p with afterId := (rows.getLast?.map Hint.id).getD 0, phase := .holding t }, b)
    | _ => none
  | .purge skip =>
    match p.phase with
    | .holding t =>
      match t.purge with
      | some (threshold, limit) =>
        let rows := ((b.outbox.filter fun h => (h.closedAt.any fun time => decide (time < threshold)) &&
          !locked h.id && decide (h.id ∉ skip)).insertionSort closedOrder).take limit
        let t := { t with purge := none, deleted := rows.map Hint.id, locked := rows.map Hint.id ++ t.locked }
        some ({ p with phase := .holding t }, b)
      | none => none
    | _ => none
  | .commit =>
    match p.phase with
    | .holding t =>
      match t.choice, t.purge with
      | none, none =>
        -- maintenance has no cursor of its own
        let after := t.cursor.orElse fun _ => p.dispatchAfter
        some ({ p with dispatchAfter := after, phase := .idle }, b.commit t)
      | some (_, _, .selected), _ => none
      | some _, none => some ({ p with dispatchAfter := none, phase := .idle }, b.commit t)
      | _, some _ => none
    | _ => none
  | .crash => some (⟨none, 0, .idle⟩, b)

/-! ## Consumers -/

inductive Reception
  | idle
  | executing (message : Message) (claimed : Bool)
  | deleting (message : Message)

inductive ConsumerAct
  | receive (message : Message)
  | claim (skip : List Nat) (now : Int)
  | observe
  | delete
  | crash

/-- The update of `claim_next_job`. -/
def Columns.claim (c : Columns) (now : Int) : Columns :=
  { c with state := .inProgress, startedAt := some now, attempts := c.attempts + 1, reason := none,
           doneAt := none, nextAttemptAt := none }

def Board.delete (b : Board) (message : Message) : Board :=
  { b with queue := b.queue.map fun m => if m.id = message.id then { m with deleted := true } else m }

/-- The states in which an unclaimed message is dropped. -/
def finished : JobState → Bool
  | .done | .error | .skipped | .inProgress => true
  | _ => false

/-- The job needs no further work from the message. -/
def Board.jobFinished (b : Board) (jobId : Nat) : Bool :=
  match b.jobs jobId with
  | none => true
  | some job => finished job.columns.state

def consume (b : Board) (locked : Nat → Bool) : Reception → ConsumerAct → Option (Reception × Board)
  | .idle, .receive m =>
    -- delivery is at least once, and a duplicate may arrive after the deletion
    if m ∈ b.queue then some (.executing m false, b) else none
  | .executing m false, .claim skip now =>
    match b.jobs m.jobId with
    | some job =>
      if job.columns.state = .pending ∨ job.columns.state = .blocked then
        (b.updateJob m.jobId (job.columns.claim now) (fun id => locked id || decide (id ∈ skip)) now).map
          fun b => (.executing m true, b)
      else none
    | none => none
  | .executing m claimed, .observe =>
    some (if claimed || b.jobFinished m.jobId then .deleting m else .idle, b)
  | .deleting m, .delete => some (.idle, b.delete m)
  | _, .crash => some (.idle, b)
  | _, _ => none

/-! ## The system -/

structure State where
  board : Board
  publishers : List Publisher
  consumers : List Reception

inductive Event
  | insertJob (jobId : Nat) (columns : Columns)
  | updateJob (jobId : Nat) (columns : Columns) (skip : List Nat) (now : Int)
  | newPublisher
  | newConsumer
  | publish (publisher : Nat) (a : Act)
  | consume (consumer : Nat) (a : ConsumerAct)

def Phase.locks (id : Nat) : Phase → Bool
  | .holding t => decide (id ∈ t.locked)
  | _ => false

def lockedBy (ps : List Publisher) (id : Nat) : Bool := ps.any fun p => p.phase.locks id

def step (s : State) : Event → Option State
  | .insertJob jobId columns => (s.board.insertJob jobId columns).map fun b => { s with board := b }
  | .updateJob jobId columns skip now =>
    (s.board.updateJob jobId columns (fun id => lockedBy s.publishers id || decide (id ∈ skip)) now).map
      fun b => { s with board := b }
  | .newPublisher => some { s with publishers := s.publishers ++ [⟨none, 0, .idle⟩] }
  | .newConsumer => some { s with consumers := s.consumers ++ [.idle] }
  | .publish i a => do
    let p ← s.publishers[i]?
    let (p, b) ← p.act s.board (lockedBy (s.publishers.eraseIdx i)) a
    some { s with board := b, publishers := s.publishers.set i p }
  | .consume i a => do
    let r ← s.consumers[i]?
    let (r, b) ← consume s.board (lockedBy s.publishers) r a
    some { s with board := b, consumers := s.consumers.set i r }

def emptyBoard : Board := ⟨fun _ => none, [], 0, [], 0⟩

def dispatch : System State Event where
  init s := s.board = emptyBoard ∧ s.publishers = [] ∧ s.consumers = []
  step := step

end ChessCrawl.Dispatch
