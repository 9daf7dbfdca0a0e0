import ChessCrawl.Lib.Run
import Mathlib.Data.List.Basic
import Mathlib.Logic.Function.Basic

/-! Job ownership over PostgreSQL sessions: `claim_next_job`, fenced write transactions,
`finish_attempt`, `release_job_ownership` and `_resume_stale_in_progress`. A session holds advisory
locks with multiplicity and at most one outer transaction; row locks last to its end, advisory locks
to their release or the death of the session. Lock keys are hashes and may collide. -/
namespace ChessCrawl.Ownership
open ChessCrawl.Lib
set_option autoImplicit false

inductive JobState
  | pending | inProgress | blocked | done | error | skipped
deriving DecidableEq, Repr

/-- The ownership columns of a `discovery_jobs` row. -/
structure Row where
  state : JobState
  ownershipToken : Option Nat
  ownerBackendPid : Option Nat
  ownershipGeneration : Nat
deriving DecidableEq, Repr

/-- `lock_key` on the two namespaces, and the provider of the acquisition kinds. -/
structure Config where
  jobKey : Nat → Int
  providerKey : Nat → Int
  provider : Nat → Option Nat

/-- An uncommitted update of a row. -/
inductive Write
  | claim (job token : Nat)
  | recover (job : Nat)
  | finish (job : Nat) (state : JobState)
deriving DecidableEq, Repr

def Write.job : Write → Nat
  | .claim job _ | .recover job | .finish job _ => job

inductive Pc
  | ready
  | permitted (job : Nat) (keys : List Int)
  | owned (job : Nat) (keys : List Int)
  | claimed
  | orphan (job : Nat)
  | recovered (job : Nat)
deriving DecidableEq, Repr

/-- An outer write transaction with the fence it verified, its row locks and its updates. -/
structure Txn where
  fence : Option (Nat × Nat)
  shared : List Nat
  exclusive : List Nat
  writes : List Write
  pc : Pc
deriving DecidableEq, Repr

structure Session where
  live : Bool
  pid : Nat
  jobFence : Option (Nat × Nat)
  ownershipKeys : List Int
  held : List Int
  txn : Option Txn
deriving DecidableEq, Repr

/-- Committed ownership events, and commits of transactions that carried a fence. -/
inductive Entry
  | claimed (job token generation session : Nat)
  | recovered (job : Nat)
  | fencedCommit (job token session : Nat)
deriving DecidableEq, Repr

structure Archive where
  rows : Nat → Row
  issued : List (Nat × Nat)
  log : List Entry

inductive Action
  | begin
  | lockRow (job : Nat)
  | takeProvider (job : Nat)
  | takeJob (job : Nat)
  | skipCandidate
  | claimWrite (token : Nat)
  | findOrphan (job : Nat)
  | resumeOrphan
  | releaseOrphan
  | finish (state : JobState)
  | commit
  | rollback
  | release
  | die
deriving DecidableEq, Repr

/-! ## Locks -/

def canAcquire (others : List Session) (key : Int) : Bool := others.all fun y => decide (key ∉ y.held)

/-- No other transaction has the row exclusively. -/
def canShare (others : List Session) (job : Nat) : Bool :=
  others.all fun y => y.txn.all fun t => decide (job ∉ t.exclusive)

/-- No other transaction has the row at all. -/
def canLock (others : List Session) (job : Nat) : Bool :=
  others.all fun y => y.txn.all fun t => decide (job ∉ t.exclusive ∧ job ∉ t.shared)

def claimable : JobState → Bool
  | .pending | .blocked => true
  | _ => false

def Row.ownedBy (r : Row) (token pid : Nat) : Bool :=
  decide (r.state = .inProgress ∧ r.ownershipToken = some token ∧ r.ownerBackendPid = some pid)

/-! ## Commit -/

def Write.apply (pid : Nat) (w : Write) (r : Row) : Row :=
  match w with
  | .claim _ token => ⟨.inProgress, some token, some pid, r.ownershipGeneration + 1⟩
  | .recover _ => ⟨.pending, none, none, r.ownershipGeneration⟩
  | .finish _ state => { r with state := state }

def Write.entries (session : Nat) (w : Write) (r : Row) : List Entry :=
  match w with
  | .claim job token => [.claimed job token (r.ownershipGeneration + 1) session]
  | .recover job => [.recovered job]
  | .finish _ _ => []

/-- The log has its newest entry first. -/
def Archive.write (session pid : Nat) (a : Archive) (w : Write) : Archive :=
  { a with
    rows := Function.update a.rows w.job (w.apply pid (a.rows w.job))
    log := w.entries session (a.rows w.job) ++ a.log }

def Archive.fenced (session : Nat) (a : Archive) : Option (Nat × Nat) → Archive
  | some (job, token) => { a with log := .fencedCommit job token session :: a.log }
  | none => a

/-! ## Steps of a session -/

/-- The outer transaction: session locks first, then the fence under a shared row lock. A lost lock
or fence raises and opens nothing. -/
def Session.begin (a : Archive) (others : List Session) (x : Session) : Option Session :=
  if x.ownershipKeys.all fun k => decide (k ∈ x.held) then
    match x.jobFence with
    | none => some { x with txn := some ⟨none, [], [], [], .ready⟩ }
    | some (job, token) =>
      if (a.rows job).ownedBy token x.pid && canShare others job then
        some { x with txn := some ⟨some (job, token), [job], [], [], .ready⟩ }
      else none
  else none

def Session.inTxn (cfg : Config) (a : Archive) (others : List Session) (session : Nat) (x : Session)
    (t : Txn) : Action → Option (Session × Archive)
  | .lockRow job =>
    -- `FOR UPDATE SKIP LOCKED` over the admitted rows
    if t.pc = .ready ∧ claimable (a.rows job).state ∧ canLock others job then
      some ({ x with txn := some { t with exclusive := job :: t.exclusive } }, a)
    else none
  | .takeProvider job =>
    match cfg.provider job with
    | some p =>
      if t.pc = .ready ∧ job ∈ t.exclusive ∧ canAcquire others (cfg.providerKey p) then
        some ({ x with held := cfg.providerKey p :: x.held,
                       txn := some { t with pc := .permitted job [cfg.providerKey p] } }, a)
      else none
    | none =>
      if t.pc = .ready ∧ job ∈ t.exclusive then
        some ({ x with txn := some { t with pc := .permitted job [] } }, a)
      else none
  | .takeJob job =>
    match t.pc with
    | .permitted j keys =>
      if j = job ∧ canAcquire others (cfg.jobKey job) then
        some ({ x with held := cfg.jobKey job :: x.held,
                       txn := some { t with pc := .owned job (keys ++ [cfg.jobKey job]) } }, a)
      else none
    | _ => none
  | .skipCandidate =>
    match t.pc with
    | .permitted _ keys | .owned _ keys =>
      some ({ x with held := keys.foldl List.erase x.held, txn := some { t with pc := .ready } }, a)
    | _ => none
  | .claimWrite token =>
    match t.pc with
    | .owned job keys =>
      -- `uuid4` tokens are fresh
      if job ∈ t.exclusive ∧ token ∉ a.issued.map Prod.fst then
        some ({ x with ownershipKeys := keys, jobFence := some (job, token),
                       txn := some { t with writes := t.writes ++ [.claim job token], pc := .claimed } },
          { a with issued := (token, session) :: a.issued })
      else none
    | _ => none
  | .findOrphan job =>
    if t.pc = .ready ∧ (a.rows job).state = .inProgress ∧ canLock others job then
      let t := { t with exclusive := job :: t.exclusive }
      let own := x.jobFence.map (fun f => (f.1, some f.2)) = some (job, (a.rows job).ownershipToken) ∧
        cfg.jobKey job ∈ x.held
      if ¬ own ∧ canAcquire others (cfg.jobKey job) then
        some ({ x with held := cfg.jobKey job :: x.held, txn := some { t with pc := .orphan job } }, a)
      else some ({ x with txn := some t }, a)
    else none
  | .resumeOrphan =>
    match t.pc with
    | .orphan job =>
      if job ∈ t.exclusive then
        some ({ x with txn := some { t with writes := t.writes ++ [.recover job], pc := .recovered job } }, a)
      else none
    | _ => none
  | .releaseOrphan =>
    match t.pc with
    | .orphan job | .recovered job =>
      some ({ x with held := x.held.erase (cfg.jobKey job), txn := some { t with pc := .ready } }, a)
    | _ => none
  | .finish state =>
    match t.fence with
    | some (job, _) =>
      if t.pc = .ready ∧ canLock others job then
        some ({ x with txn := some { t with exclusive := job :: t.exclusive,
                                            writes := t.writes ++ [.finish job state] } }, a)
      else none
    | none => none
  | .commit =>
    if t.pc = .ready ∨ t.pc = .claimed then
      some ({ x with txn := none },
        t.writes.foldl (Archive.write session x.pid) (a.fenced session t.fence))
    else none
  | .rollback => some ({ x with txn := none }, a)
  | _ => none

def Session.act (cfg : Config) (a : Archive) (others : List Session) (session : Nat) (x : Session)
    (e : Action) : Option (Session × Archive) :=
  if x.live then
    match e, x.txn with
    | .die, _ => some ({ x with live := false, held := [], txn := none }, a)
    | .begin, none => (x.begin a others).map fun x => (x, a)
    | .release, none =>
      some ({ x with jobFence := none, ownershipKeys := [],
                     held := x.ownershipKeys.reverse.foldl List.erase x.held }, a)
    | e, some t => x.inTxn cfg a others session t e
    | _, none => none
  else none

/-! ## The system -/

structure State where
  sessions : List Session
  archive : Archive

inductive Event
  | connect (pid : Nat)
  | act (session : Nat) (e : Action)
deriving DecidableEq, Repr

def step (cfg : Config) (s : State) : Event → Option State
  | .connect pid =>
    if s.sessions.all fun y => !y.live || decide (y.pid ≠ pid) then
      some { s with sessions := s.sessions ++ [⟨true, pid, none, [], [], none⟩] }
    else none
  | .act i e => do
    let x ← s.sessions[i]?
    let (x, a) ← x.act cfg s.archive (s.sessions.eraseIdx i) i e
    some ⟨s.sessions.set i x, a⟩

/-- No session yet and no job owned. -/
def ownership (cfg : Config) : System State Event where
  init s := s.sessions = [] ∧ s.archive.issued = [] ∧ s.archive.log = [] ∧
    ∀ job, (s.archive.rows job).ownershipToken = none
  step := step cfg

end ChessCrawl.Ownership
